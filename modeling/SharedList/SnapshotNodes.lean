import SharedList.Tree
import Mathlib.Data.List.Sigma
import Mathlib.Logic.Function.Basic

/-!
The nodes of Firebase's snapshots, `FLeafNode` and `FChildrenNode`, with the changes of a node along
a path. A node is never given an empty child, and a node that loses its last child is
empty itself, so that a node is one form of a tree with values at the leaves: every change of the
one is the change of the other at the same path. Keys are equal here where `keyComparator`
finds them so, which takes spellings of zero with a minus sign for those of their length without.
-/
namespace SharedList.SnapshotNodes
universe u v

/-- `FNode`, with the dictionary of the children as a list of keys and nodes. -/
inductive FNode (K : Type u) (V : Type v) where
  | leafNode (value : V)
  | childrenNode (children : List (Sigma fun _ : K => FNode K V))

namespace FNode
variable {K : Type u} {V : Type v} [DecidableEq K]

def emptyNode : FNode K V := childrenNode []

def isEmpty : FNode K V → Bool
  | leafNode _ => false
  | childrenNode children => children.isEmpty

def getImmediateChild : FNode K V → K → FNode K V
  | leafNode _, _ => emptyNode
  | childrenNode children, childName => (children.dlookup childName).getD emptyNode

def getChild : FNode K V → List K → FNode K V
  | node, [] => node
  | leafNode _, _ :: _ => emptyNode
  | childrenNode children, front :: path => ((childrenNode children).getImmediateChild front).getChild path

/-- The calls of the block of `enumerateChildrenUsingBlock:`. -/
def enumerateChildren : FNode K V → List (Sigma fun _ : K => FNode K V)
  | leafNode _ => []
  | childrenNode children => children

/-- `updateImmediateChild:withNewChild:` of `FChildrenNode`. -/
def updateChildren (children : List (Sigma fun _ : K => FNode K V)) (childName : K) (newChildNode : FNode K V) : FNode K V :=
  let newChildren := if newChildNode.isEmpty then children.kerase childName else children.kinsert childName newChildNode
  if newChildren.isEmpty then emptyNode else childrenNode newChildren

def updateImmediateChild : FNode K V → K → FNode K V → FNode K V
  | leafNode value, childName, newChildNode =>
    if newChildNode.isEmpty then leafNode value else updateChildren [] childName newChildNode
  | childrenNode children, childName, newChildNode => updateChildren children childName newChildNode

/-- `updateChild:withNewChild:` -/
def updateChild : FNode K V → List K → FNode K V → FNode K V
  | _, [], newChildNode => newChildNode
  | leafNode value, front :: path, newChildNode =>
    if newChildNode.isEmpty then leafNode value
    else (leafNode value).updateImmediateChild front (emptyNode.updateChild path newChildNode)
  | childrenNode children, front :: path, newChildNode =>
    let newImmediateChild := ((childrenNode children).getImmediateChild front).updateChild path newChildNode
    (childrenNode children).updateImmediateChild front newImmediateChild

/-- The value of a leaf. -/
def value? : FNode K V → Option V
  | leafNode value => some value
  | childrenNode _ => none

/-- The value of the leaf at a path. -/
def valueAt (node : FNode K V) (path : List K) : Option V := (node.getChild path).value?

/-- The children have one key each and none of them is empty. -/
inductive Valid : FNode K V → Prop
  | leaf (value : V) : Valid (leafNode value)
  | children {children : List (Sigma fun _ : K => FNode K V)} (distinct : children.NodupKeys)
      (filled : ∀ c ∈ children, c.2.isEmpty = false) (valid : ∀ c ∈ children, Valid c.2) : Valid (childrenNode children)

/-! ## Reading a node -/

omit [DecidableEq K] in
theorem isEmpty_iff {node : FNode K V} : node.isEmpty = true ↔ node = emptyNode := by
  cases node with
  | leafNode value => simp [isEmpty, emptyNode]
  | childrenNode children => simp [isEmpty, emptyNode]

@[simp] theorem getChild_empty (path : List K) : (emptyNode : FNode K V).getChild path = emptyNode := by
  induction path with
  | nil => rfl
  | cons front path ih => exact ih

theorem getChild_cons (node : FNode K V) (front : K) (path : List K) :
    node.getChild (front :: path) = (node.getImmediateChild front).getChild path := by
  cases node with
  | leafNode value => exact (getChild_empty path).symm
  | childrenNode children => rfl

theorem getChild_append (node : FNode K V) (p q : List K) : node.getChild (p ++ q) = (node.getChild p).getChild q := by
  induction p generalizing node with
  | nil => rfl
  | cons front p ih => rw [List.cons_append, getChild_cons, ih, ← getChild_cons]

@[simp] theorem valueAt_empty (path : List K) : (emptyNode : FNode K V).valueAt path = none := by
  rw [valueAt, getChild_empty]
  rfl

theorem valueAt_cons (node : FNode K V) (front : K) (path : List K) :
    node.valueAt (front :: path) = (node.getImmediateChild front).valueAt path := by
  rw [valueAt, getChild_cons, valueAt]

theorem valueAt_getChild (node : FNode K V) (p q : List K) : (node.getChild p).valueAt q = node.valueAt (p ++ q) := by
  rw [valueAt, valueAt, getChild_append]

omit [DecidableEq K] in
theorem Valid.empty : (emptyNode : FNode K V).Valid := .children List.nodupKeys_nil (by simp) (by simp)

theorem Valid.getImmediateChild {node : FNode K V} (valid : node.Valid) (k : K) : (node.getImmediateChild k).Valid := by
  cases valid with
  | leaf value => exact .empty
  | children distinct filled valid =>
    rename_i children
    cases found : children.dlookup k with
    | none =>
      simp only [FNode.getImmediateChild, found]
      exact .empty
    | some child =>
      simp only [FNode.getImmediateChild, found]
      exact valid ⟨k, child⟩ (List.of_mem_dlookup found)

theorem Valid.getChild {node : FNode K V} (valid : node.Valid) (path : List K) : (node.getChild path).Valid := by
  induction path generalizing node with
  | nil => exact valid
  | cons front path ih =>
    rw [getChild_cons]
    exact ih (valid.getImmediateChild front)

/-- Below a node that is not empty there is a leaf. -/
theorem Valid.exists_value {node : FNode K V} (valid : node.Valid) (filled : node.isEmpty = false) :
    ∃ path value, node.valueAt path = some value := by
  induction valid with
  | leaf value => exact ⟨[], value, rfl⟩
  | children distinct noneEmpty valid ih =>
    rename_i children
    cases children with
    | nil => cases filled
    | cons c rest =>
      obtain ⟨path, value, found⟩ := ih c List.mem_cons_self (noneEmpty c List.mem_cons_self)
      refine ⟨c.1 :: path, value, ?_⟩
      have first : (c :: rest).dlookup c.1 = some c.2 := List.dlookup_cons_eq ..
      rw [valueAt_cons, FNode.getImmediateChild, first]
      exact found

/-! ## Changing a node -/

theorem updateChildren_eq (children : List (Sigma fun _ : K => FNode K V)) (k : K) (newChild : FNode K V) :
    updateChildren children k newChild =
      childrenNode (if newChild.isEmpty then children.kerase k else children.kinsert k newChild) := by
  unfold updateChildren
  generalize (if newChild.isEmpty then children.kerase k else children.kinsert k newChild) = newChildren
  cases newChildren <;> rfl

theorem getImmediateChild_updateChildren {children : List (Sigma fun _ : K => FNode K V)} (distinct : children.NodupKeys)
    (k : K) (newChild : FNode K V) : (updateChildren children k newChild).getImmediateChild =
      Function.update (childrenNode children).getImmediateChild k newChild := by
  rw [updateChildren_eq]
  funext j
  by_cases here : j = k
  · subst here
    rw [Function.update_self]
    by_cases empty : newChild.isEmpty = true
    · rw [if_pos empty, getImmediateChild, List.dlookup_kerase _ distinct]
      exact (isEmpty_iff.mp empty).symm
    · rw [if_neg empty, getImmediateChild, List.dlookup_kinsert]
      rfl
  · rw [Function.update_of_ne here]
    by_cases empty : newChild.isEmpty = true
    · rw [if_pos empty, getImmediateChild, List.dlookup_kerase_ne here]
      rfl
    · rw [if_neg empty, getImmediateChild, List.dlookup_kinsert_ne here]
      rfl

theorem Valid.updateChildren {children : List (Sigma fun _ : K => FNode K V)} (valid : (childrenNode children).Valid) (k : K)
    {newChild : FNode K V} (validChild : newChild.Valid) : (updateChildren children k newChild).Valid := by
  cases valid with
  | children distinct filled valid =>
    rw [updateChildren_eq]
    have kept : ∀ c ∈ children.kerase k, c ∈ children := fun c member => (List.kerase_sublist k children).subset member
    by_cases empty : newChild.isEmpty = true
    · rw [if_pos empty]
      exact .children (distinct.kerase k) (fun c member => filled c (kept c member)) (fun c member => valid c (kept c member))
    · rw [if_neg empty]
      refine .children (List.kinsert_nodupKeys k newChild distinct) ?_ ?_
      · intro c member
        rcases List.mem_cons.mp member with rfl | member
        · simpa using empty
        · exact filled c (kept c member)
      · intro c member
        rcases List.mem_cons.mp member with rfl | member
        · exact validChild
        · exact valid c (kept c member)

theorem Valid.updateImmediateChild {node : FNode K V} (valid : node.Valid) (k : K) {newChild : FNode K V}
    (validChild : newChild.Valid) : (node.updateImmediateChild k newChild).Valid := by
  cases node with
  | leafNode value =>
    rw [FNode.updateImmediateChild]
    split
    · exact valid
    · exact Valid.empty.updateChildren k validChild
  | childrenNode children => exact valid.updateChildren k validChild

theorem getImmediateChild_updateImmediateChild {node : FNode K V} (valid : node.Valid) (k : K) (newChild : FNode K V) :
    (node.updateImmediateChild k newChild).getImmediateChild = Function.update node.getImmediateChild k newChild := by
  cases valid with
  | leaf value =>
    rw [updateImmediateChild]
    split
    · rename_i empty
      rw [isEmpty_iff.mp empty]
      exact (Function.update_eq_self k _).symm
    · exact getImmediateChild_updateChildren List.nodupKeys_nil k newChild
  | children distinct filled valid => exact getImmediateChild_updateChildren distinct k newChild

theorem updateChild_empty (path : List K) : (emptyNode : FNode K V).updateChild path emptyNode = emptyNode := by
  induction path with
  | nil => rfl
  | cons front path ih =>
    have step : (emptyNode : FNode K V).updateChild (front :: path) emptyNode =
        (emptyNode : FNode K V).updateImmediateChild front (emptyNode.updateChild path emptyNode) := rfl
    rw [step, ih]
    rfl

theorem Valid.updateChild {node : FNode K V} (valid : node.Valid) (path : List K) {newChild : FNode K V}
    (validChild : newChild.Valid) : (node.updateChild path newChild).Valid := by
  induction path generalizing node with
  | nil => exact validChild
  | cons front path ih =>
    cases node with
    | leafNode value =>
      rw [FNode.updateChild]
      split
      · exact valid
      · exact valid.updateImmediateChild front (ih .empty)
    | childrenNode children => exact valid.updateImmediateChild front (ih (valid.getImmediateChild front))

/-- A change along a path is a change of the first child along the rest of it. -/
theorem getImmediateChild_updateChild {node : FNode K V} (valid : node.Valid) (front : K) (path : List K) (newChild : FNode K V) :
    (node.updateChild (front :: path) newChild).getImmediateChild =
      Function.update node.getImmediateChild front ((node.getImmediateChild front).updateChild path newChild) := by
  cases node with
  | leafNode value =>
    rw [updateChild]
    split
    · rename_i empty
      rw [isEmpty_iff.mp empty]
      have same : ((leafNode value).getImmediateChild front).updateChild path emptyNode =
        (leafNode value).getImmediateChild front := updateChild_empty path
      rw [same, Function.update_eq_self]
    · exact getImmediateChild_updateImmediateChild valid front _
  | childrenNode children => exact getImmediateChild_updateImmediateChild valid front _

theorem value?_updateChildren (children : List (Sigma fun _ : K => FNode K V)) (k : K) (newChild : FNode K V) :
    (updateChildren children k newChild).value? = none := by
  rw [updateChildren_eq]
  rfl

theorem updateChildren_filled (children : List (Sigma fun _ : K => FNode K V)) (k : K) {newChild : FNode K V}
    (filled : newChild.isEmpty = false) : (updateChildren children k newChild).isEmpty = false := by
  rw [updateChildren_eq, filled]
  rfl

/-- What is not empty leaves no node empty on its way. -/
theorem updateChild_filled (path : List K) {newChild : FNode K V} (filled : newChild.isEmpty = false) :
    (emptyNode.updateChild path newChild).isEmpty = false := by
  induction path with
  | nil => exact filled
  | cons front path ih => exact updateChildren_filled [] front ih

/-- A leaf above the path goes, unless the new child is empty. -/
theorem value?_updateChild (node : FNode K V) (front : K) (path : List K) (newChild : FNode K V) :
    (node.updateChild (front :: path) newChild).value? = if newChild.isEmpty then node.value? else none := by
  cases node with
  | leafNode value =>
    rw [updateChild]
    by_cases empty : newChild.isEmpty = true
    · rw [if_pos empty, if_pos empty]
    · have filled := updateChild_filled path (Bool.eq_false_iff.mpr empty)
      rw [if_neg empty, if_neg empty, updateImmediateChild, if_neg (by simp [filled])]
      exact value?_updateChildren ..
  | childrenNode children =>
    have changed : ((childrenNode children).updateChild (front :: path) newChild).value? = none := value?_updateChildren ..
    rw [changed]
    split <;> rfl

/-- The changed node has the values of the new child below the path and its own elsewhere. -/
theorem valueAt_updateChild {node : FNode K V} (valid : node.Valid) (path : List K) {newChild : FNode K V} (q : List K) :
    (node.updateChild path newChild).valueAt q =
      if path <+: q then newChild.valueAt (q.drop path.length)
      else if newChild.isEmpty = false ∧ q <+: path then none
      else node.valueAt q := by
  induction path generalizing node q with
  | nil => simp [updateChild]
  | cons front path ih =>
    cases q with
    | nil =>
      have root : (node.updateChild (front :: path) newChild).valueAt [] = _ := value?_updateChild node front path newChild
      rw [root]
      cases newChild.isEmpty <;> simp [valueAt, getChild]
    | cons k q =>
      rw [valueAt_cons, valueAt_cons, getImmediateChild_updateChild valid]
      by_cases here : k = front
      · subst here
        rw [Function.update_self, ih (valid.getImmediateChild k)]
        simp [List.cons_prefix_cons]
      · rw [Function.update_of_ne here]
        simp [List.cons_prefix_cons, here, Ne.symm here]

/-! ## Equal nodes -/

omit [DecidableEq K] in
theorem sizeOf_child {children : List (Sigma fun _ : K => FNode K V)} {c : Sigma fun _ : K => FNode K V} (member : c ∈ children) :
    sizeOf c.2 < sizeOf (childrenNode children) := by
  have inList := List.sizeOf_lt_of_mem member
  obtain ⟨k, child⟩ := c
  simp only [childrenNode.sizeOf_spec, Sigma.mk.sizeOf_spec] at inList ⊢
  omega

theorem sizeOf_getImmediateChild (children : List (Sigma fun _ : K => FNode K V)) (k : K) :
    sizeOf ((childrenNode children).getImmediateChild k) ≤ sizeOf (childrenNode children) := by
  rw [getImmediateChild]
  cases found : children.dlookup k with
  | none =>
    simp only [Option.getD_none, emptyNode, childrenNode.sizeOf_spec, List.nil.sizeOf_spec]
    cases children with
    | nil => simp
    | cons c rest =>
      simp only [List.cons.sizeOf_spec]
      omega
  | some child => exact Nat.le_of_lt (sizeOf_child (List.of_mem_dlookup found))

/-- `isEqual:`; two nodes with children compare the other's child of each key with their own. -/
def isEqual [DecidableEq V] : FNode K V → FNode K V → Bool
  | leafNode value, other => other.value? = some value
  | childrenNode _, leafNode _ => false
  | childrenNode children, childrenNode otherChildren =>
    if children.isEmpty && otherChildren.isEmpty then true
    else children.length == otherChildren.length && children.attach.all fun c =>
      isEqual ((childrenNode otherChildren).getImmediateChild c.1.1) c.1.2
termination_by node other => sizeOf node + sizeOf other
decreasing_by
  have own := sizeOf_child c.2
  have others := sizeOf_getImmediateChild otherChildren c.1.1
  omega

/-- Two nodes have the same values if they have the same one themselves and their children do. -/
theorem valueAt_ext {node other : FNode K V} : node.valueAt = other.valueAt ↔
    node.value? = other.value? ∧ ∀ k, (node.getImmediateChild k).valueAt = (other.getImmediateChild k).valueAt := by
  constructor
  · intro same
    refine ⟨congrFun same [], fun k => funext fun q => ?_⟩
    rw [← valueAt_cons, ← valueAt_cons, same]
  · rintro ⟨root, children⟩
    funext q
    cases q with
    | nil => exact root
    | cons k q => rw [valueAt_cons, valueAt_cons, children]

/-- A valid node is empty exactly when no leaf lies below it. -/
theorem Valid.isEmpty_iff {node : FNode K V} (valid : node.Valid) : node.isEmpty = true ↔ node.valueAt = fun _ => none := by
  constructor
  · intro empty
    rw [FNode.isEmpty_iff.mp empty]
    exact funext valueAt_empty
  · intro none
    by_contra filled
    obtain ⟨path, value, found⟩ := valid.exists_value (Bool.eq_false_iff.mpr filled)
    rw [none] at found
    cases found

theorem isEmpty_congr {node other : FNode K V} (valid : node.Valid) (validOther : other.Valid)
    (same : node.valueAt = other.valueAt) : node.isEmpty = other.isEmpty := by
  rw [Bool.eq_iff_iff, valid.isEmpty_iff, validOther.isEmpty_iff, same]

/-- The keys of a valid node are those of its children that are not empty. -/
theorem Valid.mem_keys {children : List (Sigma fun _ : K => FNode K V)} (valid : (childrenNode children).Valid) {k : K} :
    k ∈ children.keys ↔ ((childrenNode children).getImmediateChild k).isEmpty = false := by
  cases valid with
  | children distinct filled valid =>
    rw [FNode.getImmediateChild, ← List.dlookup_isSome]
    cases found : children.dlookup k with
    | none => simp [emptyNode, FNode.isEmpty]
    | some child => simp [filled _ (List.of_mem_dlookup found)]

theorem Valid.getImmediateChild_of_mem {children : List (Sigma fun _ : K => FNode K V)} (valid : (childrenNode children).Valid)
    {c : Sigma fun _ : K => FNode K V} (member : c ∈ children) : (childrenNode children).getImmediateChild c.1 = c.2 := by
  cases valid with
  | children distinct filled valid => rw [FNode.getImmediateChild, List.mem_dlookup distinct member, Option.getD_some]

omit [DecidableEq K] in
theorem Valid.nodup_keys {children : List (Sigma fun _ : K => FNode K V)} (valid : (childrenNode children).Valid) : children.keys.Nodup := by
  cases valid with
  | children distinct filled valid => exact distinct

/-- Equal nodes are those with the same values. -/
theorem isEqual_iff [DecidableEq V] {node other : FNode K V} (valid : node.Valid) (validOther : other.Valid) :
    node.isEqual other = true ↔ node.valueAt = other.valueAt := by
  induction node, other using isEqual.induct with
  | case1 value other =>
    rw [isEqual, decide_eq_true_eq, valueAt_ext]
    cases other with
    | leafNode value' => simp [value?, getImmediateChild, eq_comm]
    | childrenNode children => simp [value?]
  | case2 children value =>
    rw [isEqual, valueAt_ext]
    simp [value?]
  | case3 children otherChildren empty =>
    obtain ⟨none, otherNone⟩ := Bool.and_eq_true_iff.mp empty
    rw [isEqual, if_pos empty, List.isEmpty_iff.mp none, List.isEmpty_iff.mp otherNone]
    simp
  | case4 children otherChildren notEmpty ih =>
    have child : ∀ c ∈ children, (((childrenNode otherChildren).getImmediateChild c.1).isEqual c.2 = true ↔
        ((childrenNode otherChildren).getImmediateChild c.1).valueAt = ((childrenNode children).getImmediateChild c.1).valueAt) := by
      intro c member
      have own := valid.getImmediateChild c.1
      rw [valid.getImmediateChild_of_mem member] at own ⊢
      exact ih ⟨c, member⟩ (validOther.getImmediateChild c.1) own
    have asked : (childrenNode children).isEqual (childrenNode otherChildren) = true ↔
        children.length = otherChildren.length ∧ ∀ c ∈ children,
          ((childrenNode otherChildren).getImmediateChild c.1).valueAt = ((childrenNode children).getImmediateChild c.1).valueAt := by
      rw [isEqual, if_neg notEmpty, Bool.and_eq_true, beq_iff_eq, List.all_eq_true]
      refine and_congr_right fun _ => ?_
      constructor
      · intro equal c member
        exact (child c member).mp (equal ⟨c, member⟩ (List.mem_attach _ _))
      · rintro same ⟨c, member⟩ _
        exact (child c member).mpr (same c member)
    have sameKey : ∀ k, ((childrenNode otherChildren).getImmediateChild k).valueAt = ((childrenNode children).getImmediateChild k).valueAt →
        (k ∈ children.keys ↔ k ∈ otherChildren.keys) := by
      intro k same
      rw [valid.mem_keys, validOther.mem_keys, isEmpty_congr (validOther.getImmediateChild k) (valid.getImmediateChild k) same]
    rw [asked, valueAt_ext]
    constructor
    · rintro ⟨length, same⟩
      refine ⟨rfl, ?_⟩
      -- as many keys on both sides, and each of the one is one of the other
      have subset : children.keys ⊆ otherChildren.keys := by
        intro k member
        obtain ⟨c, inChildren, rfl⟩ := List.mem_map.mp member
        exact (sameKey c.1 (same c inChildren)).mp member
      have keys : children.keys.Perm otherChildren.keys := by
        refine (List.subperm_of_subset valid.nodup_keys subset).perm_of_length_le ?_
        simp [List.keys, length]
      intro k
      by_cases member : k ∈ children.keys
      · obtain ⟨c, inChildren, rfl⟩ := List.mem_map.mp member
        exact (same c inChildren).symm
      · have other : k ∉ otherChildren.keys := fun there => member (keys.mem_iff.mpr there)
        rw [getImmediateChild, getImmediateChild, List.dlookup_eq_none.mpr member, List.dlookup_eq_none.mpr other]
    · rintro ⟨_, same⟩
      have keys : children.keys.Perm otherChildren.keys :=
        (List.perm_ext_iff_of_nodup valid.nodup_keys validOther.nodup_keys).mpr fun k => sameKey k (same k).symm
      refine ⟨?_, fun c _ => (same c.1).symm⟩
      simpa [List.keys] using keys.length_eq

end FNode

/-! ## Nodes and trees -/

variable {K : Type u} {V : Type v} [DecidableEq K]

/-- The node is one form of the tree. -/
structure Represents (node : FNode K V) (t : Tree K V) : Prop where
  valid : node.Valid
  values : ∀ path, node.valueAt path = t.at? path

/-- A change of a node and a change of a tree at the same path. -/
def SameChange (c : List K × FNode K V) (d : List K × Tree K V) : Prop := c.1 = d.1 ∧ Represents c.2 d.2

namespace Represents
open FNode

theorem empty : Represents (emptyNode : FNode K V) Tree.empty := ⟨.empty, fun path => valueAt_empty path⟩

theorem leaf (value : V) : Represents (leafNode value : FNode K V) (Tree.leaf value) where
  valid := .leaf value
  values := by
    intro path
    cases path with
    | nil => rfl
    | cons front path => rfl

theorem mem {node : FNode K V} {t : Tree K V} (same : Represents node t) {path : List K} {value : V} :
    (path, value) ∈ t.leaves ↔ node.valueAt path = some value := by
  rw [same.values, Tree.at?_eq_some]

theorem isEmpty {node : FNode K V} {t : Tree K V} (same : Represents node t) : node.isEmpty = true ↔ t.leaves = [] := by
  rw [same.valid.isEmpty_iff, List.eq_nil_iff_forall_not_mem]
  constructor
  · rintro none ⟨path, value⟩ member
    have found := same.mem.mp member
    rw [none] at found
    cases found
  · intro none
    funext path
    refine Option.eq_none_iff_forall_ne_some.mpr fun value found => ?_
    exact none (path, value) (same.mem.mpr found)

theorem filled {node : FNode K V} {t : Tree K V} (same : Represents node t) : node.isEmpty = false ↔ t.leaves ≠ [] := by
  rw [← Bool.not_eq_true, same.isEmpty]

theorem getChild {node : FNode K V} {t : Tree K V} (same : Represents node t) (path : List K) :
    Represents (node.getChild path) (t.sub path) where
  valid := same.valid.getChild path
  values := by
    intro q
    rw [valueAt_getChild, same.values, Tree.at?_sub]

theorem present {node : FNode K V} {t : Tree K V} (same : Represents node t) {path : List K} :
    (node.getChild path).isEmpty = false ↔ t.Present path := by
  rw [← List.append_nil path, ← Tree.present_sub, List.append_nil, (same.getChild path).filled]
  simp [Tree.Present, List.eq_nil_iff_forall_not_mem]

/-- A change of the node is the change of the tree. -/
theorem updateChild {node newChild : FNode K V} {t s : Tree K V} (same : Represents node t) (path : List K)
    (sameChild : Represents newChild s) : Represents (node.updateChild path newChild) (t.put path s) where
  valid := same.valid.updateChild path sameChild.valid
  values := by
    intro q
    ext value
    rw [valueAt_updateChild same.valid, Tree.at?_eq_some, Tree.mem_put]
    by_cases below : path <+: q
    · obtain ⟨r, rfl⟩ := below
      simp [sameChild.mem]
    · have notBelow : ∀ r, q ≠ path ++ r := fun r same => below ⟨r, same.symm⟩
      rw [if_neg below]
      by_cases above : newChild.isEmpty = false ∧ q <+: path
      · rw [if_pos above]
        simp [notBelow, sameChild.filled.mp above.1, above.2]
      · rw [if_neg above, ← same.mem]
        rw [sameChild.filled] at above
        have stays : s.leaves = [] ∨ ¬ q <+: path := by tauto
        simp [notBelow, below, stays]

/-- Several changes, one after the other. -/
theorem update {node : FNode K V} {t : Tree K V} (same : Represents node t) {changes : List (List K × FNode K V)}
    {trees : Tree.Changes K V} (sameChanges : List.Forall₂ SameChange changes trees) :
    Represents (changes.foldl (fun node c => node.updateChild c.1 c.2) node) (t.update trees) := by
  induction sameChanges generalizing node t with
  | nil => exact same
  | cons first rest ih =>
    obtain ⟨path, child⟩ := first
    rw [List.foldl_cons, path]
    exact ih (same.updateChild _ child)

theorem isEqual [DecidableEq V] {node other : FNode K V} {t s : Tree K V} (same : Represents node t) (sameOther : Represents other s) :
    node.isEqual other = true ↔ ∀ l, l ∈ t.leaves ↔ l ∈ s.leaves := by
  rw [isEqual_iff same.valid sameOther.valid]
  constructor
  · rintro values ⟨path, value⟩
    rw [same.mem, sameOther.mem, values]
  · intro leaves
    funext path
    ext value
    rw [← same.mem, ← sameOther.mem, leaves]

theorem congr {node : FNode K V} {t s : Tree K V} (same : Represents node t) (leaves : ∀ l, l ∈ t.leaves ↔ l ∈ s.leaves) :
    Represents node s where
  valid := same.valid
  values := by
    intro path
    ext value
    rw [same.values, Tree.at?_eq_some, Tree.at?_eq_some, leaves]

end Represents

/-- A node for a tree, made leaf by leaf. -/
def ofTree (t : Tree K V) : FNode K V :=
  t.leaves.foldl (fun node l => node.updateChild l.1 (.leafNode l.2)) .emptyNode

theorem represents_ofTree (t : Tree K V) : Represents (ofTree t) t := by
  have leaves : List.Forall₂ SameChange (t.leaves.map fun l => (l.1, .leafNode l.2)) (t.leaves.map fun l => (l.1, .leaf l.2)) := by
    rw [List.forall₂_map_left_iff, List.forall₂_map_right_iff, List.forall₂_same]
    exact fun l _ => ⟨rfl, .leaf l.2⟩
  have made := Represents.empty.update leaves
  rw [List.foldl_map] at made
  refine ⟨made.valid, ?_⟩
  intro path
  ext value
  have apart : Tree.Independent (t.leaves.map fun l => (l.1, Tree.leaf l.2)) := List.pairwise_map.mpr t.apart
  rw [Tree.at?_eq_some, ofTree, ← made.mem, Tree.mem_update apart]
  simp [Tree.empty, Tree.leaf]

/-- A child before the others is one more change. -/
theorem represents_cons {k : K} {child : FNode K V} {children : List (Sigma fun _ : K => FNode K V)} {t s : Tree K V}
    (rest : Represents (.childrenNode children) t) (first : Represents child s) (new : k ∉ children.keys)
    (filled : child.isEmpty = false) : Represents (.childrenNode (⟨k, child⟩ :: children)) (t.put [k] s) := by
  have changed := rest.updateChild [k] first
  have step : (FNode.childrenNode children).updateChild [k] child = .childrenNode (⟨k, child⟩ :: children) := by
    show FNode.updateChildren children k child = _
    rw [FNode.updateChildren_eq, filled, List.kinsert_def, List.kerase_of_notMem_keys new]
    rfl
  rw [step] at changed
  exact changed

/-- Every valid node is one form of a tree. -/
theorem exists_tree {node : FNode K V} (valid : node.Valid) : ∃ t, Represents node t := by
  induction valid with
  | leaf value => exact ⟨_, .leaf value⟩
  | children distinct filled valid ih =>
    rename_i children
    induction children with
    | nil => exact ⟨_, .empty⟩
    | cons c rest ihRest =>
      obtain ⟨new, distinctRest⟩ := List.nodupKeys_cons.mp distinct
      obtain ⟨t, represented⟩ := ihRest distinctRest (fun d member => filled d (List.mem_cons_of_mem _ member))
        (fun d member => valid d (List.mem_cons_of_mem _ member)) (fun d member => ih d (List.mem_cons_of_mem _ member))
      obtain ⟨s, first⟩ := ih c List.mem_cons_self
      exact ⟨_, represents_cons represented first new (filled c List.mem_cons_self)⟩

theorem exists_trees {changes : List (List K × FNode K V)} (valid : ∀ c ∈ changes, c.2.Valid) :
    ∃ trees, List.Forall₂ SameChange changes trees ∧ ∀ d ∈ trees, ∃ c ∈ changes, SameChange c d := by
  induction changes with
  | nil => exact ⟨[], .nil, by simp⟩
  | cons c rest ih =>
    obtain ⟨first, later⟩ := List.forall_mem_cons.mp valid
    obtain ⟨t, represented⟩ := exists_tree first
    obtain ⟨trees, same, each⟩ := ih later
    have sameFirst : SameChange c (c.1, t) := ⟨rfl, represented⟩
    refine ⟨(c.1, t) :: trees, .cons sameFirst same, List.forall_mem_cons.mpr ⟨⟨c, List.mem_cons_self, sameFirst⟩, ?_⟩⟩
    intro d member
    obtain ⟨c', inRest, related⟩ := each d member
    exact ⟨c', List.mem_cons_of_mem _ inRest, related⟩

/-- The nodes that the changes of two runs lead to, from empty nodes, are the trees that the same changes
lead to: with the same values, with a child wherever the tree has a node, and equal where the trees are. -/
theorem changed_nodes_follow_trees [DecidableEq V] (changes others : Tree.Changes K V) :
    let changed (changes : Tree.Changes K V) := changes.foldl (fun node c => node.updateChild c.1 (ofTree c.2)) FNode.emptyNode
    let tree (changes : Tree.Changes K V) : Tree K V := Tree.empty.update changes
    (changed changes).Valid ∧
    (∀ path value, (changed changes).valueAt path = some value ↔ (path, value) ∈ (tree changes).leaves) ∧
    (∀ path, ((changed changes).getChild path).isEmpty = false ↔ (tree changes).Present path) ∧
    ((changed changes).isEqual (changed others) = true ↔ ∀ l, l ∈ (tree changes).leaves ↔ l ∈ (tree others).leaves) := by
  intro changed tree
  have represented : ∀ changes, Represents (changed changes) (tree changes) := by
    intro changes
    have nodes : List.Forall₂ SameChange (changes.map fun c => (c.1, ofTree c.2)) changes := by
      rw [List.forall₂_map_left_iff, List.forall₂_same]
      exact fun c _ => ⟨rfl, represents_ofTree c.2⟩
    have made := Represents.empty.update nodes
    rw [List.foldl_map] at made
    exact made
  have first := represented changes
  exact ⟨first.valid, fun path value => first.mem.symm, fun path => first.present, first.isEqual (represented others)⟩

end SharedList.SnapshotNodes
