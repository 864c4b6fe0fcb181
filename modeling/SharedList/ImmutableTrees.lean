import SharedList.Tree
import Mathlib.Data.List.Sigma
import Mathlib.Logic.Function.Basic

/-!
`FImmutableTree`, Firebase's dictionary from paths to values. Where a value is set only at
a path at which one stands, and a tree put only where no value stands above it, no value comes
to lie below another, and the paths with their values are the leaves of a tree. Keys are
equal here where the dictionary's comparator, `compare:`, finds them so: canonically equal
strings are one key.
-/
namespace SharedList
universe u v

inductive FImmutableTree (K : Type u) (T : Type v) where
  | node (value : Option T) (children : List (Sigma fun _ : K => FImmutableTree K T))

namespace FImmutableTree
variable {K : Type u} {T : Type v} [DecidableEq K]

def empty : FImmutableTree K T := node none []
def initWithValue (value : T) : FImmutableTree K T := node (some value) []

def isEmpty : FImmutableTree K T → Bool
  | node value children => value.isNone && children.isEmpty

def value : FImmutableTree K T → Option T
  | node value _ => value

/-- The child of a key, or the empty tree. -/
def child : FImmutableTree K T → K → FImmutableTree K T
  | node _ children, front => (children.dlookup front).getD empty

def valueAtPath : FImmutableTree K T → List K → Option T
  | node value _, [] => value
  | node value children, front :: path => ((node value children).child front).valueAtPath path

def findRootMostValueAndPath : FImmutableTree K T → List K → Option (List K × T)
  | node (some value) _, _ => some ([], value)
  | node none _, [] => none
  | node none children, front :: path =>
    (((node none children).child front).findRootMostValueAndPath path).map fun found => (front :: found.1, found.2)

def subtreeAtPath : FImmutableTree K T → List K → FImmutableTree K T
  | tree, [] => tree
  | tree, front :: path => (tree.child front).subtreeAtPath path

def setValue (newValue : T) : FImmutableTree K T → List K → FImmutableTree K T
  | node _ children, [] => node (some newValue) children
  | node value children, front :: path =>
    node value (children.kinsert front (((node value children).child front).setValue newValue path))

def setTree : FImmutableTree K T → FImmutableTree K T → List K → FImmutableTree K T
  | _, newTree, [] => newTree
  | node value children, newTree, front :: path =>
    let newChild := ((node value children).child front).setTree newTree path
    node value (if newChild.isEmpty then children.kerase front else children.kinsert front newChild)

mutual
/-- `forEach:`, the paths and values that the block is called with. -/
def forEach : FImmutableTree K T → List (List K × T)
  | node value children => forEachChild children ++ value.toList.map fun value => ([], value)
def forEachChild : List (Sigma fun _ : K => FImmutableTree K T) → List (List K × T)
  | [] => []
  | ⟨childKey, childTree⟩ :: rest => childTree.forEach.map (fun w => (childKey :: w.1, w.2)) ++ forEachChild rest
end

/-- No value lies below another, and every child has a value at or below it. -/
inductive Valid : FImmutableTree K T → Prop
  | value (value : T) : Valid (node (some value) [])
  | children {children : List (Sigma fun _ : K => FImmutableTree K T)} (distinct : children.NodupKeys)
      (filled : ∀ c ∈ children, c.2.isEmpty = false) (valid : ∀ c ∈ children, Valid c.2) : Valid (node none children)

/-! ## Reading a tree -/

omit [DecidableEq K] in
theorem Valid.empty : (empty : FImmutableTree K T).Valid := .children List.nodupKeys_nil (by simp) (by simp)

theorem valueAtPath_cons (tree : FImmutableTree K T) (front : K) (path : List K) :
    tree.valueAtPath (front :: path) = (tree.child front).valueAtPath path := by
  cases tree
  rfl

@[simp] theorem valueAtPath_empty (path : List K) : (empty : FImmutableTree K T).valueAtPath path = none := by
  induction path with
  | nil => rfl
  | cons front path ih => exact ih

theorem valueAtPath_initWithValue (value : T) (path : List K) :
    (initWithValue value : FImmutableTree K T).valueAtPath path = if path = [] then some value else none := by
  cases path with
  | nil => rfl
  | cons front path =>
    rw [valueAtPath_cons, if_neg (List.cons_ne_nil _ _)]
    exact valueAtPath_empty path

theorem valueAtPath_subtreeAtPath (tree : FImmutableTree K T) (p q : List K) :
    (tree.subtreeAtPath p).valueAtPath q = tree.valueAtPath (p ++ q) := by
  induction p generalizing tree with
  | nil => rfl
  | cons front p ih => rw [subtreeAtPath, ih, List.cons_append, valueAtPath_cons]

omit [DecidableEq K] in
theorem Valid.distinct {value : Option T} {children : List (Sigma fun _ : K => FImmutableTree K T)}
    (valid : (node value children).Valid) : children.NodupKeys := by
  cases valid with
  | value => exact List.nodupKeys_nil
  | children distinct filled valid => exact distinct

theorem Valid.child {tree : FImmutableTree K T} (valid : tree.Valid) (k : K) : (tree.child k).Valid := by
  cases valid with
  | value value => exact .empty
  | children distinct filled valid =>
    rename_i children
    cases found : children.dlookup k with
    | none =>
      simp only [FImmutableTree.child, found]
      exact .empty
    | some child =>
      simp only [FImmutableTree.child, found]
      exact valid ⟨k, child⟩ (List.of_mem_dlookup found)

theorem Valid.subtreeAtPath {tree : FImmutableTree K T} (valid : tree.Valid) (path : List K) : (tree.subtreeAtPath path).Valid := by
  induction path generalizing tree with
  | nil => exact valid
  | cons front path ih => exact ih (valid.child front)

/-- The root-most value stands on the path. -/
theorem findRootMostValueAndPath_some {tree : FImmutableTree K T} {path p : List K} {value : T}
    (found : tree.findRootMostValueAndPath path = some (p, value)) : p <+: path ∧ tree.valueAtPath p = some value := by
  induction path generalizing tree p with
  | nil =>
    obtain ⟨root, children⟩ := tree
    cases root with
    | none => cases found
    | some root =>
      cases found
      exact ⟨List.prefix_rfl, rfl⟩
  | cons front path ih =>
    obtain ⟨root, children⟩ := tree
    cases root with
    | none =>
      obtain ⟨⟨q, inner⟩, below, same⟩ := Option.map_eq_some_iff.mp found
      cases same
      obtain ⟨above, there⟩ := ih below
      exact ⟨List.cons_prefix_cons.mpr ⟨rfl, above⟩, there⟩
    | some root =>
      cases found
      exact ⟨List.nil_prefix, rfl⟩

theorem findRootMostValueAndPath_none {tree : FImmutableTree K T} {path : List K}
    (missing : tree.findRootMostValueAndPath path = none) {p : List K} (above : p <+: path) : tree.valueAtPath p = none := by
  induction path generalizing tree p with
  | nil =>
    obtain ⟨root, children⟩ := tree
    cases root with
    | none => rw [List.prefix_nil.mp above]; rfl
    | some root => cases missing
  | cons front path ih =>
    obtain ⟨root, children⟩ := tree
    cases root with
    | none =>
      cases p with
      | nil => rfl
      | cons k p =>
        obtain ⟨rfl, further⟩ := List.cons_prefix_cons.mp above
        exact ih (Option.map_eq_none_iff.mp missing) further
    | some root => cases missing

/-- Without a value on the way, the rest of the path is searched in the subtree there. -/
theorem findRootMostValueAndPath_append {tree : FImmutableTree K T} {p q : List K} (missing : tree.findRootMostValueAndPath p = none) :
    tree.findRootMostValueAndPath (p ++ q) =
      ((tree.subtreeAtPath p).findRootMostValueAndPath q).map fun found => (p ++ found.1, found.2) := by
  induction p generalizing tree with
  | nil =>
    show _ = (tree.findRootMostValueAndPath q).map id
    rw [Option.map_id]
    rfl
  | cons front p ih =>
    obtain ⟨root, children⟩ := tree
    cases root with
    | none =>
      have below := ih (Option.map_eq_none_iff.mp missing)
      rw [List.cons_append, findRootMostValueAndPath, below, Option.map_map]
      rfl
    | some root => cases missing

/-- A valid tree that is not empty has a value. -/
theorem Valid.exists_value {tree : FImmutableTree K T} (valid : tree.Valid) (filled : tree.isEmpty = false) :
    ∃ path value, tree.valueAtPath path = some value := by
  induction valid with
  | value value => exact ⟨[], value, rfl⟩
  | children distinct noneEmpty valid ih =>
    rename_i children
    cases children with
    | nil => cases filled
    | cons c rest =>
      obtain ⟨path, value, found⟩ := ih c List.mem_cons_self (noneEmpty c List.mem_cons_self)
      refine ⟨c.1 :: path, value, ?_⟩
      have first : (c :: rest).dlookup c.1 = some c.2 := List.dlookup_cons_eq ..
      rw [valueAtPath_cons, FImmutableTree.child, first]
      exact found

/-! ## Changing a tree -/

theorem child_kinsert (value : Option T) (children : List (Sigma fun _ : K => FImmutableTree K T)) (k : K) (newChild : FImmutableTree K T) :
    (node value (children.kinsert k newChild)).child = Function.update (node value children).child k newChild := by
  funext j
  by_cases here : j = k
  · subst here
    rw [Function.update_self, child, List.dlookup_kinsert, Option.getD_some]
  · rw [Function.update_of_ne here, child, List.dlookup_kinsert_ne here, child]

omit [DecidableEq K] in
theorem isEmpty_iff {tree : FImmutableTree K T} : tree.isEmpty = true ↔ tree = empty := by
  obtain ⟨value, children⟩ := tree
  simp [isEmpty, empty]

theorem child_set {value : Option T} {children : List (Sigma fun _ : K => FImmutableTree K T)} (distinct : children.NodupKeys)
    (k : K) (newChild : FImmutableTree K T) :
    (node value (if newChild.isEmpty then children.kerase k else children.kinsert k newChild)).child =
      Function.update (node value children).child k newChild := by
  split
  · rename_i none
    rw [isEmpty_iff.mp none]
    funext j
    by_cases here : j = k
    · subst here
      rw [Function.update_self, child, List.dlookup_kerase _ distinct, Option.getD_none]
    · rw [Function.update_of_ne here, child, List.dlookup_kerase_ne here, child]
  · exact child_kinsert ..

theorem valueAtPath_setValue (tree : FImmutableTree K T) (path : List K) (newValue : T) (q : List K) :
    (tree.setValue newValue path).valueAtPath q = if q = path then some newValue else tree.valueAtPath q := by
  induction path generalizing tree q with
  | nil =>
    obtain ⟨value, children⟩ := tree
    cases q with
    | nil => rfl
    | cons k q => rfl
  | cons front path ih =>
    obtain ⟨value, children⟩ := tree
    rw [setValue]
    cases q with
    | nil => rfl
    | cons k q =>
      rw [valueAtPath_cons, valueAtPath_cons, child_kinsert]
      by_cases here : k = front
      · subst here
        rw [Function.update_self, ih]
        simp
      · rw [Function.update_of_ne here]
        simp [here]

theorem valueAtPath_setTree {tree : FImmutableTree K T} (valid : tree.Valid) (path : List K) (newTree : FImmutableTree K T) (q : List K) :
    (tree.setTree newTree path).valueAtPath q =
      if path <+: q then newTree.valueAtPath (q.drop path.length) else tree.valueAtPath q := by
  induction path generalizing tree q with
  | nil => simp [setTree]
  | cons front path ih =>
    obtain ⟨value, children⟩ := tree
    rw [setTree]
    cases q with
    | nil => simp [valueAtPath]
    | cons k q =>
      rw [valueAtPath_cons, valueAtPath_cons, child_set valid.distinct]
      by_cases here : k = front
      · subst here
        rw [Function.update_self, ih (valid.child k)]
        simp [List.cons_prefix_cons]
      · rw [Function.update_of_ne here]
        simp [List.cons_prefix_cons, Ne.symm here]

/-- Another child, unless it is empty. -/
theorem Valid.setChild {children : List (Sigma fun _ : K => FImmutableTree K T)} (valid : (node none children).Valid) (k : K)
    {newChild : FImmutableTree K T} (validChild : newChild.Valid) :
    (node none (if newChild.isEmpty then children.kerase k else children.kinsert k newChild)).Valid := by
  cases valid with
  | children distinct filled valid =>
    have kept : ∀ c ∈ children.kerase k, c ∈ children := fun c member => (List.kerase_sublist k children).subset member
    by_cases none : newChild.isEmpty = true
    · rw [if_pos none]
      exact .children (distinct.kerase k) (fun c member => filled c (kept c member)) (fun c member => valid c (kept c member))
    · rw [if_neg none]
      refine .children (List.kinsert_nodupKeys k newChild distinct) ?_ ?_
      · intro c member
        rcases List.mem_cons.mp member with rfl | member
        · simpa using none
        · exact filled c (kept c member)
      · intro c member
        rcases List.mem_cons.mp member with rfl | member
        · exact validChild
        · exact valid c (kept c member)

/-- A tree is put where no value stands above it. -/
theorem Valid.setTree {tree newTree : FImmutableTree K T} (valid : tree.Valid) (validNew : newTree.Valid) {path : List K}
    (missing : tree.findRootMostValueAndPath path = none) : (tree.setTree newTree path).Valid := by
  induction path generalizing tree with
  | nil => exact validNew
  | cons front path ih =>
    obtain ⟨value, children⟩ := tree
    cases value with
    | none => exact valid.setChild front (ih (valid.child front) (Option.map_eq_none_iff.mp missing))
    | some value => cases missing

theorem setTree_empty (path : List K) : (empty : FImmutableTree K T).setTree empty path = empty := by
  induction path with
  | nil => rfl
  | cons front path ih =>
    have step : (empty : FImmutableTree K T).setTree empty (front :: path) =
        node none (if (empty.setTree (empty : FImmutableTree K T) path).isEmpty then [] else
          [⟨front, empty.setTree (empty : FImmutableTree K T) path⟩]) := rfl
    rw [step, ih]
    rfl

/-- A tree is removed, wherever a value stands. -/
theorem Valid.removeTree {tree : FImmutableTree K T} (valid : tree.Valid) (path : List K) : (tree.setTree .empty path).Valid := by
  induction path generalizing tree with
  | nil => exact .empty
  | cons front path ih =>
    cases valid with
    | value value =>
      have nothing : ((node (some value) []).child front).setTree .empty path = .empty := setTree_empty path
      rw [FImmutableTree.setTree, nothing]
      exact .value value
    | children distinct filled valid =>
      have whole : (node none _).Valid := .children distinct filled valid
      exact whole.setChild front (ih (whole.child front))

theorem setValue_filled (tree : FImmutableTree K T) (path : List K) (newValue : T) : (tree.setValue newValue path).isEmpty = false := by
  obtain ⟨value, children⟩ := tree
  cases path with
  | nil => rfl
  | cons front path => simp [setValue, isEmpty, List.kinsert_def]

/-- A value is set where one stands. -/
theorem Valid.setValue {tree : FImmutableTree K T} (valid : tree.Valid) {path : List K} {value newValue : T}
    (there : tree.valueAtPath path = some value) : (tree.setValue newValue path).Valid := by
  induction path generalizing tree with
  | nil =>
    cases valid with
    | value => exact .value newValue
    | children distinct filled valid => cases there
  | cons front path ih =>
    rw [valueAtPath_cons] at there
    obtain ⟨root, children⟩ := tree
    cases root with
    | none =>
      have set := valid.setChild front (ih (valid.child front) there)
      rw [setValue_filled] at set
      exact set
    | some root =>
      cases valid
      rw [show (node (some root) []).child front = FImmutableTree.empty from rfl, valueAtPath_empty] at there
      cases there

/-! ## The values of a tree -/

omit [DecidableEq K] in
theorem forEachChild_eq (children : List (Sigma fun _ : K => FImmutableTree K T)) :
    forEachChild children = children.flatMap fun c => c.2.forEach.map fun w => (c.1 :: w.1, w.2) := by
  induction children with
  | nil => rfl
  | cons c rest ih =>
    obtain ⟨k, tree⟩ := c
    rw [forEachChild, ih, List.flatMap_cons]

theorem Valid.mem_forEach {tree : FImmutableTree K T} (valid : tree.Valid) {path : List K} {value : T} :
    (path, value) ∈ tree.forEach ↔ tree.valueAtPath path = some value := by
  induction valid generalizing path with
  | value root =>
    have same : (node (some root) [] : FImmutableTree K T) = initWithValue root := rfl
    rw [same, valueAtPath_initWithValue]
    simp [forEach, forEachChild, initWithValue, eq_comm]
  | children distinct filled valid ih =>
    rename_i children
    simp only [forEach, forEachChild_eq, Option.toList_none, List.map_nil, List.append_nil, List.mem_flatMap, List.mem_map,
      Prod.mk.injEq, Prod.exists]
    cases path with
    | nil => simp [valueAtPath]
    | cons k path =>
      rw [valueAtPath_cons]
      constructor
      · rintro ⟨c, member, q, v, there, same, rfl⟩
        obtain ⟨rfl, rfl⟩ := List.cons.inj same
        rw [FImmutableTree.child, List.mem_dlookup distinct member]
        exact (ih c member).mp there
      · intro there
        cases found : children.dlookup k with
        | none =>
          rw [FImmutableTree.child, found, Option.getD_none, valueAtPath_empty] at there
          cases there
        | some tree =>
          rw [FImmutableTree.child, found, Option.getD_some] at there
          have member := List.of_mem_dlookup found
          exact ⟨⟨k, tree⟩, member, path, value, (ih _ member).mpr there, rfl, rfl⟩

omit [DecidableEq K] in
/-- No value lies at or below another. -/
theorem Valid.apart {tree : FImmutableTree K T} (valid : tree.Valid) : tree.forEach.Pairwise fun a b => Apart a.1 b.1 := by
  induction valid with
  | value value => simp [forEach, forEachChild]
  | children distinct filled valid ih =>
    rename_i children
    simp only [forEach, forEachChild_eq, Option.toList_none, List.map_nil, List.append_nil]
    rw [List.pairwise_flatMap]
    refine ⟨?_, ?_⟩
    · intro c member
      refine List.pairwise_map.mpr ((ih c member).imp ?_)
      intro a b apart
      exact (apart_append [c.1] a.1 b.1).mpr apart
    · refine distinct.pairwise_ne.imp ?_
      intro c d different a inC b inD
      obtain ⟨_, _, rfl⟩ := List.mem_map.mp inC
      obtain ⟨_, _, rfl⟩ := List.mem_map.mp inD
      simp [Apart, List.cons_prefix_cons, different, Ne.symm different]

end FImmutableTree
end SharedList
