import SharedList.Feeds
import Mathlib.Data.List.AList
import Mathlib.Logic.Function.Basic

/-!
How Firebase finds the events that a change of a node raises. `FIndexedFilter` notes
what every update does to a child, `FChildChangeAccumulator` keeps one change for each
child and merges a later one into it, and `FEventGenerator` raises the events, those
of removed children first. What is kept is the difference between the children at
the start and at the end, and the events lead a listener from the ones to the others.
-/
namespace SharedList.ChildChanges
universe u v w

inductive EventType where
  | childRemoved | childAdded | childChanged
deriving DecidableEq

/-- `FChange` of a child. -/
inductive Change (N : Type v) where
  | childAdded (indexedNode : N)
  | childRemoved (indexedNode : N)
  | childChanged (indexedNode oldIndexedNode : N)
deriving DecidableEq

namespace Change
variable {N : Type v}

def type : Change N → EventType
  | childAdded _ => .childAdded
  | childRemoved _ => .childRemoved
  | childChanged .. => .childChanged

/-- The snapshot that comes with the event. -/
def indexedNode : Change N → N
  | childAdded node | childRemoved node | childChanged node _ => node

/-- The child before the change, if there was one. -/
def before : Change N → Option N
  | childAdded _ => none
  | childRemoved node => some node
  | childChanged _ old => some old

/-- The child after the change, if there is one. -/
def after : Change N → Option N
  | childAdded node | childChanged node _ => some node
  | childRemoved _ => none

end Change

variable {K : Type u} {N : Type v} {P : Type w} {V : Type w} [DecidableEq K] [DecidableEq N] [DecidableEq V]

/-- `changeMap` of an accumulator. -/
abbrev ChangeMap (K : Type u) (N : Type v) := AList (fun _ : K => Change N)

/-- `trackChildChange`; `none` is the exception for an illegal combination. -/
def trackChildChange (changeMap : ChangeMap K N) (childKey : K) (change : Change N) : Option (ChangeMap K N) :=
  match changeMap.lookup childKey with
  | some oldChange =>
    match change, oldChange with
    | .childAdded node, .childRemoved old => some (changeMap.insert childKey (.childChanged node old))
    | .childRemoved _, .childAdded _ => some (changeMap.erase childKey)
    | .childRemoved _, .childChanged _ old => some (changeMap.insert childKey (.childRemoved old))
    | .childChanged node _, .childAdded _ => some (changeMap.insert childKey (.childAdded node))
    | .childChanged node _, .childChanged _ old => some (changeMap.insert childKey (.childChanged node old))
    | _, _ => none
  | none => some (changeMap.insert childKey change)

/-- A node: a leaf, or its children. -/
inductive Node (K : Type u) (N : Type v) where
  | leafNode
  | childrenNode (children : AList (fun _ : K => N))

namespace Node

def children : Node K N → AList (fun _ : K => N)
  | leafNode => ∅
  | childrenNode children => children

/-- `getImmediateChild`; `none` is the empty node. -/
def getImmediateChild (node : Node K N) (childKey : K) : Option N := node.children.lookup childKey

/-- `updateImmediateChild:withNewChild:`. -/
def updateImmediateChild (node : Node K N) (childKey : K) : Option N → Node K N
  | some newChild => childrenNode (node.children.insert childKey newChild)
  | none =>
    match node with
    | leafNode => leafNode
    | childrenNode children => childrenNode (children.erase childKey)

omit [DecidableEq N] in
theorem getImmediateChild_updateImmediateChild (node : Node K N) (childKey : K) (newChild : Option N) :
    (node.updateImmediateChild childKey newChild).getImmediateChild =
      Function.update node.getImmediateChild childKey newChild := by
  funext k
  by_cases here : k = childKey
  · subst here
    rw [Function.update_self]
    cases newChild with
    | some newChild => exact AList.lookup_insert _
    | none =>
      cases node with
      | leafNode => rfl
      | childrenNode children => exact AList.lookup_erase ..
  · rw [Function.update_of_ne here]
    cases newChild with
    | some newChild => exact AList.lookup_insert_ne here
    | none =>
      cases node with
      | leafNode => rfl
      | childrenNode children => exact AList.lookup_erase_ne here

end Node

/-- The arguments of one call of `updateChildIn`. -/
structure ChildUpdate (K : Type u) (N : Type v) (P : Type w) where
  childKey : K
  newChild : Option N
  affectedPath : P

/-- `updateChildIn`; `getChild` is what a child, or no child, has at a path. -/
def updateChildIn (getChild : Option N → P → V) (s : Node K N × ChangeMap K N) (update : ChildUpdate K N P) :
    Option (Node K N × ChangeMap K N) :=
  let oldChild := s.1.getImmediateChild update.childKey
  if getChild oldChild update.affectedPath = getChild update.newChild update.affectedPath ∧
      oldChild.isNone = update.newChild.isNone then some s
  else do
    let tracked ← match update.newChild, oldChild with
      | none, some old => trackChildChange s.2 update.childKey (.childRemoved old)
      | none, none => some s.2
      | some new, none => trackChildChange s.2 update.childKey (.childAdded new)
      | some new, some old => trackChildChange s.2 update.childKey (.childChanged new old)
    return (s.1.updateImmediateChild update.childKey update.newChild, tracked)

/-- `updateFullNode`: two loops, over the children before and over those after. -/
def updateFullNode (oldSnap newSnap : Node K N) (accumulator : ChangeMap K N) : Option (ChangeMap K N) := do
  let removed ← oldSnap.children.entries.foldlM (fun tracked child =>
    if (newSnap.getImmediateChild child.1).isNone then trackChildChange tracked child.1 (.childRemoved child.2)
    else some tracked) accumulator
  newSnap.children.entries.foldlM (fun tracked child =>
    match oldSnap.getImmediateChild child.1 with
    | some oldChild => if oldChild = child.2 then some tracked else trackChildChange tracked child.1 (.childChanged child.2 oldChild)
    | none => trackChildChange tracked child.1 (.childAdded child.2)) removed

/-- The equality that is asserted where nothing has changed at the affected path. -/
def Asserted (getChild : Option N → P → V) (s : Node K N × ChangeMap K N) (update : ChildUpdate K N P) : Prop :=
  getChild (s.1.getImmediateChild update.childKey) update.affectedPath = getChild update.newChild update.affectedPath →
    (s.1.getImmediateChild update.childKey).isNone = update.newChild.isNone →
      s.1.getImmediateChild update.childKey = update.newChild

/-- The children after an update. -/
def assign (children : K → Option N) (update : ChildUpdate K N P) : K → Option N :=
  Function.update children update.childKey update.newChild

/-! ## What the accumulator keeps -/

/-- The changes lead from the children before to those after; a child without one is the same. -/
def Describes (before after : K → Option N) (changeMap : ChangeMap K N) : Prop :=
  ∀ k, (∀ change ∈ changeMap.lookup k, change.before = before k ∧ change.after = after k) ∧
    (changeMap.lookup k = none → before k = after k)

/-- The change that leads from one child to another, or from none or to none. -/
def difference : Option N → Option N → Option (Change N)
  | none, none => none
  | none, some node => some (.childAdded node)
  | some old, none => some (.childRemoved old)
  | some old, some node => some (.childChanged node old)

omit [DecidableEq N] in
theorem difference_of_change (change : Change N) : difference change.before change.after = some change := by
  cases change <;> rfl

omit [DecidableEq N] in
theorem Describes.lookup {before after : K → Option N} {changeMap : ChangeMap K N} (describes : Describes before after changeMap)
    {k : K} (differ : before k ≠ after k) : changeMap.lookup k = difference (before k) (after k) := by
  cases found : changeMap.lookup k with
  | none => exact absurd ((describes k).2 found) differ
  | some change =>
    obtain ⟨sameBefore, sameAfter⟩ := (describes k).1 change found
    rw [← sameBefore, ← sameAfter, difference_of_change]

omit [DecidableEq N] in
theorem describes_empty (children : K → Option N) : Describes children children (∅ : ChangeMap K N) := by
  intro k
  simp

omit [DecidableEq N] in
/-- A change of a child, noted, is never an illegal combination with what was noted before. -/
theorem Describes.track {before after : K → Option N} {changeMap : ChangeMap K N} (describes : Describes before after changeMap)
    {childKey : K} {change : Change N} (follows : change.before = after childKey) :
    ∃ tracked, trackChildChange changeMap childKey change = some tracked ∧
      Describes before (Function.update after childKey change.after) tracked := by
  have others : ∀ {tracked : ChangeMap K N}, (∀ k ≠ childKey, tracked.lookup k = changeMap.lookup k) →
      ((∀ new ∈ tracked.lookup childKey, new.before = before childKey ∧ new.after = change.after) ∧
        (tracked.lookup childKey = none → before childKey = change.after)) →
      Describes before (Function.update after childKey change.after) tracked := by
    intro tracked same here k
    by_cases isHere : k = childKey
    · subst isHere
      simpa only [Function.update_self] using here
    · rw [Function.update_of_ne isHere, same k isHere]
      exact describes k
  have insert : ∀ {new : Change N}, new.before = before childKey → new.after = change.after →
      Describes before (Function.update after childKey change.after) (changeMap.insert childKey new) := by
    intro new sameBefore sameAfter
    refine others (fun k other => AList.lookup_insert_ne other) ?_
    rw [AList.lookup_insert]
    exact ⟨by rintro _ ⟨⟩; exact ⟨sameBefore, sameAfter⟩, by simp⟩
  obtain ⟨noted, unnoted⟩ := describes childKey
  unfold trackChildChange
  cases found : changeMap.lookup childKey with
  | none =>
    exact ⟨_, rfl, insert (follows.trans (unnoted found).symm) rfl⟩
  | some oldChange =>
    obtain ⟨oldBefore, oldAfter⟩ := noted oldChange found
    rw [← oldAfter] at follows
    cases change with
    | childAdded node =>
      cases oldChange with
      | childRemoved old => exact ⟨_, rfl, insert oldBefore rfl⟩
      | childAdded | childChanged => cases follows
    | childRemoved node =>
      cases oldChange with
      | childAdded old =>
        refine ⟨_, rfl, others (fun k other => AList.lookup_erase_ne other) ?_⟩
        rw [AList.lookup_erase]
        exact ⟨by simp, fun _ => oldBefore.symm⟩
      | childChanged newer old => exact ⟨_, rfl, insert oldBefore rfl⟩
      | childRemoved => cases follows
    | childChanged node previous =>
      cases oldChange with
      | childAdded old => exact ⟨_, rfl, insert oldBefore rfl⟩
      | childChanged newer old => exact ⟨_, rfl, insert oldBefore rfl⟩
      | childRemoved => cases follows

omit [DecidableEq N] in
/-- An update is carried out and noted. -/
theorem updateChildIn_describes {getChild : Option N → P → V} {before : K → Option N} {s : Node K N × ChangeMap K N}
    (describes : Describes before s.1.getImmediateChild s.2) {update : ChildUpdate K N P} (asserted : Asserted getChild s update) :
    ∃ t, updateChildIn getChild s update = some t ∧ t.1.getImmediateChild = assign s.1.getImmediateChild update ∧
      Describes before t.1.getImmediateChild t.2 := by
  unfold updateChildIn
  by_cases unchanged : getChild (s.1.getImmediateChild update.childKey) update.affectedPath =
      getChild update.newChild update.affectedPath ∧ (s.1.getImmediateChild update.childKey).isNone = update.newChild.isNone
  · rw [if_pos unchanged]
    refine ⟨s, rfl, ?_, describes⟩
    rw [assign, ← asserted unchanged.1 unchanged.2, Function.update_eq_self]
  · rw [if_neg unchanged]
    have noted : ∀ {change : Change N}, change.before = s.1.getImmediateChild update.childKey → change.after = update.newChild →
        ∃ t, (do let tracked ← trackChildChange s.2 update.childKey change
                 return (s.1.updateImmediateChild update.childKey update.newChild, tracked)) = some t ∧
          t.1.getImmediateChild = assign s.1.getImmediateChild update ∧ Describes before t.1.getImmediateChild t.2 := by
      intro change follows new
      obtain ⟨tracked, track, after⟩ := describes.track follows
      have updated := s.1.getImmediateChild_updateImmediateChild update.childKey update.newChild
      rw [track]
      refine ⟨_, rfl, updated, ?_⟩
      rw [updated, ← new]
      exact after
    cases old : s.1.getImmediateChild update.childKey with
    | none =>
      cases new : update.newChild with
      | none =>
        rw [old, new] at unchanged
        exact absurd ⟨rfl, rfl⟩ unchanged
      | some child =>
        have follows : (Change.childAdded child).before = s.1.getImmediateChild update.childKey := old.symm
        simpa only [new] using noted follows new.symm
    | some child =>
      cases new : update.newChild with
      | none =>
        have follows : (Change.childRemoved child).before = s.1.getImmediateChild update.childKey := old.symm
        simpa only [new] using noted follows new.symm
      | some newer =>
        have follows : (Change.childChanged newer child).before = s.1.getImmediateChild update.childKey := old.symm
        simpa only [new] using noted follows new.symm

/-- Every update finds what is asserted. -/
def AllAsserted (getChild : Option N → P → V) (s : Node K N × ChangeMap K N) : List (ChildUpdate K N P) → Prop
  | [] => True
  | update :: rest => Asserted getChild s update ∧ ∀ t, updateChildIn getChild s update = some t → AllAsserted getChild t rest

omit [DecidableEq N] in
theorem foldlM_updateChildIn {getChild : Option N → P → V} {before : K → Option N} {updates : List (ChildUpdate K N P)}
    {s : Node K N × ChangeMap K N} (describes : Describes before s.1.getImmediateChild s.2)
    (asserted : AllAsserted getChild s updates) :
    ∃ t, updates.foldlM (updateChildIn getChild) s = some t ∧
      t.1.getImmediateChild = updates.foldl assign s.1.getImmediateChild ∧ Describes before t.1.getImmediateChild t.2 := by
  induction updates generalizing s with
  | nil => exact ⟨s, rfl, rfl, describes⟩
  | cons update rest ih =>
    obtain ⟨t, updated, children, noted⟩ := updateChildIn_describes describes asserted.1
    obtain ⟨u, later, laterChildren, laterNoted⟩ := ih noted (asserted.2 t updated)
    refine ⟨u, ?_, ?_, laterNoted⟩
    · rw [List.foldlM_cons, updated]
      exact later
    · rw [laterChildren, children]
      rfl

omit [DecidableEq N] in
/-- Changes of children that have none yet are noted as they are. -/
theorem foldlM_track (change : Sigma (fun _ : K => N) → Option (Change N)) {children : List (Sigma fun _ : K => N)}
    (distinct : (children.map Sigma.fst).Nodup) {changeMap : ChangeMap K N}
    (unnoted : ∀ child ∈ children, changeMap.lookup child.1 = none) :
    ∃ tracked, children.foldlM (fun tracked child =>
        match change child with
        | some new => trackChildChange tracked child.1 new
        | none => some tracked) changeMap = some tracked ∧
      (∀ child ∈ children, tracked.lookup child.1 = change child) ∧
      ∀ k ∉ children.map Sigma.fst, tracked.lookup k = changeMap.lookup k := by
  induction children generalizing changeMap with
  | nil => exact ⟨changeMap, rfl, by simp, fun _ _ => rfl⟩
  | cons child rest ih =>
    obtain ⟨notInRest, restDistinct⟩ := List.nodup_cons.mp distinct
    obtain ⟨first, later⟩ := List.forall_mem_cons.mp unnoted
    obtain ⟨noted, track, here, others⟩ : ∃ noted : ChangeMap K N,
        (match change child with
          | some new => trackChildChange changeMap child.1 new
          | none => some changeMap) = some noted ∧
        noted.lookup child.1 = change child ∧ ∀ k, k ≠ child.1 → noted.lookup k = changeMap.lookup k := by
      cases new : change child with
      | none => exact ⟨changeMap, rfl, first, fun _ _ => rfl⟩
      | some noted =>
        refine ⟨changeMap.insert child.1 noted, ?_, AList.lookup_insert _, fun k other => AList.lookup_insert_ne other⟩
        simp [trackChildChange, first]
    have restUnnoted : ∀ other ∈ rest, noted.lookup other.1 = none := by
      intro other member
      have differs : other.1 ≠ child.1 := by
        intro same
        exact notInRest (List.mem_map.mpr ⟨other, member, same⟩)
      rw [others other.1 differs, later other member]
    obtain ⟨tracked, run, inside, outside⟩ := ih restDistinct restUnnoted
    refine ⟨tracked, ?_, ?_, ?_⟩
    · rw [List.foldlM_cons, track]
      exact run
    · refine List.forall_mem_cons.mpr ⟨?_, inside⟩
      rw [outside child.1 notInRest, here]
    · intro k notListed
      rw [List.map_cons, List.mem_cons, not_or] at notListed
      rw [outside k notListed.2, others k notListed.1]

/-- The change that the loop over the children before notes for one of them. -/
def removal (newSnap : Node K N) (child : Sigma fun _ : K => N) : Option (Change N) :=
  if (newSnap.getImmediateChild child.1).isNone then some (.childRemoved child.2) else none

/-- The change that the loop over the children after notes for one of them. -/
def arrival (oldSnap : Node K N) (child : Sigma fun _ : K => N) : Option (Change N) :=
  match oldSnap.getImmediateChild child.1 with
  | some oldChild => if oldChild = child.2 then none else some (.childChanged child.2 oldChild)
  | none => some (.childAdded child.2)

theorem updateFullNode_eq (oldSnap newSnap : Node K N) (accumulator : ChangeMap K N) :
    updateFullNode oldSnap newSnap accumulator = (do
      let removed ← oldSnap.children.entries.foldlM (fun tracked child =>
        match removal newSnap child with
        | some new => trackChildChange tracked child.1 new
        | none => some tracked) accumulator
      newSnap.children.entries.foldlM (fun tracked child =>
        match arrival oldSnap child with
        | some new => trackChildChange tracked child.1 new
        | none => some tracked) removed) := by
  have first : ∀ (tracked : ChangeMap K N) (child : Sigma fun _ : K => N),
      (if (newSnap.getImmediateChild child.1).isNone then trackChildChange tracked child.1 (.childRemoved child.2)
        else some tracked) =
      match removal newSnap child with
      | some new => trackChildChange tracked child.1 new
      | none => some tracked := by
    intro tracked child
    unfold removal
    split <;> rfl
  have second : ∀ (tracked : ChangeMap K N) (child : Sigma fun _ : K => N),
      (match oldSnap.getImmediateChild child.1 with
        | some oldChild => if oldChild = child.2 then some tracked else trackChildChange tracked child.1 (.childChanged child.2 oldChild)
        | none => trackChildChange tracked child.1 (.childAdded child.2)) =
      match arrival oldSnap child with
      | some new => trackChildChange tracked child.1 new
      | none => some tracked := by
    intro tracked child
    unfold arrival
    cases oldSnap.getImmediateChild child.1 with
    | none => rfl
    | some oldChild =>
      by_cases same : oldChild = child.2
      · simp only [if_pos same]
      · simp only [if_neg same]
  simp only [updateFullNode, first, second]

/-- Two nodes compared: the difference is noted for every child that differs, and nothing for the others. -/
theorem updateFullNode_lookup (oldSnap newSnap : Node K N) :
    ∃ full, updateFullNode oldSnap newSnap ∅ = some full ∧
      ∀ k, full.lookup k = if oldSnap.getImmediateChild k = newSnap.getImmediateChild k then none
        else difference (oldSnap.getImmediateChild k) (newSnap.getImmediateChild k) := by
  have entry : ∀ {node : Node K N} {k : K} {child : N}, node.getImmediateChild k = some child →
      ⟨k, child⟩ ∈ node.children.entries := AList.mem_lookup_iff.mp
  have listed : ∀ {node : Node K N} {k : K}, node.getImmediateChild k = none → k ∉ node.children.entries.map Sigma.fst :=
    AList.lookup_eq_none.mp
  have unheld : ∀ child ∈ oldSnap.children.entries, (∅ : ChangeMap K N).lookup child.1 = none := fun child _ =>
    AList.lookup_empty child.1
  obtain ⟨removed, firstLoop, inside, outside⟩ := foldlM_track (removal newSnap) oldSnap.children.keys_nodup unheld
  -- the first loop has noted nothing for a child that is still there
  have unnoted : ∀ child ∈ newSnap.children.entries, removed.lookup child.1 = none := by
    intro child member
    have there : newSnap.getImmediateChild child.1 = some child.2 := AList.mem_lookup_iff.mpr member
    cases old : oldSnap.getImmediateChild child.1 with
    | none => rw [outside child.1 (listed old), AList.lookup_empty]
    | some oldChild =>
      rw [inside ⟨child.1, oldChild⟩ (entry old), removal, there]
      rfl
  obtain ⟨full, secondLoop, later, kept⟩ := foldlM_track (arrival oldSnap) newSnap.children.keys_nodup unnoted
  refine ⟨full, ?_, ?_⟩
  · rw [updateFullNode_eq, firstLoop]
    exact secondLoop
  · intro k
    cases new : newSnap.getImmediateChild k with
    | some newChild =>
      rw [later ⟨k, newChild⟩ (entry new), arrival]
      cases old : oldSnap.getImmediateChild k with
      | none => rfl
      | some oldChild =>
        by_cases same : oldChild = newChild
        · simp only [same, if_true]
        · simp only [Option.some.injEq, if_neg same, difference]
    | none =>
      rw [kept k (listed new)]
      cases old : oldSnap.getImmediateChild k with
      | none => rw [outside k (listed old), AList.lookup_empty, if_pos rfl]
      | some oldChild =>
        rw [inside ⟨k, oldChild⟩ (entry old), removal, new]
        rfl

/-- Updates noted one by one give what the comparison of the first and the last node gives, and beyond that at most
changes of a child to itself, for a child that has come back to what it was. -/
theorem incremental_changes_agree (getChild : Option N → P → V) (oldSnap : Node K N) (updates : List (ChildUpdate K N P))
    (asserted : AllAsserted getChild (oldSnap, ∅) updates) :
    ∃ newSnap tracked full, updates.foldlM (updateChildIn getChild) (oldSnap, ∅) = some (newSnap, tracked) ∧
      updateFullNode oldSnap newSnap ∅ = some full ∧
      newSnap.getImmediateChild = updates.foldl assign oldSnap.getImmediateChild ∧
      ∀ k, (oldSnap.getImmediateChild k ≠ newSnap.getImmediateChild k →
          (full.lookup k).isSome = true ∧ tracked.lookup k = full.lookup k) ∧
        (oldSnap.getImmediateChild k = newSnap.getImmediateChild k → full.lookup k = none ∧
          ∀ change ∈ tracked.lookup k, ∃ node, newSnap.getImmediateChild k = some node ∧ change = .childChanged node node) := by
  obtain ⟨⟨newSnap, tracked⟩, run, children, describes⟩ := foldlM_updateChildIn (describes_empty oldSnap.getImmediateChild) asserted
  obtain ⟨full, compared, lookup⟩ := updateFullNode_lookup oldSnap newSnap
  refine ⟨newSnap, tracked, full, run, compared, children, ?_⟩
  intro k
  constructor
  · intro differ
    rw [lookup k, if_neg differ, describes.lookup differ]
    refine ⟨?_, rfl⟩
    cases old : oldSnap.getImmediateChild k with
    | none =>
      cases new : newSnap.getImmediateChild k with
      | none => exact absurd (old.trans new.symm) differ
      | some node => rfl
    | some node => cases newSnap.getImmediateChild k <;> rfl
  · intro same
    rw [lookup k, if_pos same]
    refine ⟨rfl, ?_⟩
    intro change noted
    obtain ⟨sameBefore, sameAfter⟩ := (describes k).1 change noted
    rw [same] at sameBefore
    cases change with
    | childAdded node => exact absurd (sameBefore.trans sameAfter.symm) (by simp [Change.before, Change.after])
    | childRemoved node => exact absurd (sameBefore.trans sameAfter.symm) (by simp [Change.before, Change.after])
    | childChanged node old =>
      have equal : some old = some node := sameBefore.trans sameAfter.symm
      cases equal
      exact ⟨node, sameAfter.symm, rfl⟩

omit [DecidableEq N] in
/-- An update that replaces the whole child finds what is asserted. -/
theorem allAsserted_whole {getChild : Option N → P → V} (whole : ∀ path, Function.Injective fun child => getChild child path)
    (s : Node K N × ChangeMap K N) (updates : List (ChildUpdate K N P)) : AllAsserted getChild s updates := by
  induction updates generalizing s with
  | nil => trivial
  | cons update rest ih => exact ⟨fun same _ => whole update.affectedPath same, fun t _ => ih t⟩

/-- Items by their keys, with the amount of each. -/
def shopping : Node String Nat := .childrenNode ((∅ : AList fun _ : String => Nat).insert "milk" 1 |>.insert "bread" 2)
/-- Milk is taken off and put back, eggs come in two steps, and bread goes. -/
def shoppingUpdates : List (ChildUpdate String Nat Unit) :=
  [⟨"milk", none, ()⟩, ⟨"eggs", some 6, ()⟩, ⟨"milk", some 1, ()⟩, ⟨"eggs", some 12, ()⟩, ⟨"bread", none, ()⟩]

theorem incremental_changes_agree_shopping :
    ∃ newSnap tracked full, shoppingUpdates.foldlM (updateChildIn fun child _ => child) (shopping, ∅) = some (newSnap, tracked) ∧
      updateFullNode shopping newSnap ∅ = some full ∧ tracked.lookup "eggs" = full.lookup "eggs" ∧
      newSnap.getImmediateChild "milk" = some 1 ∧ full.lookup "milk" = none := by
  obtain ⟨newSnap, tracked, full, run, compared, children, agree⟩ := incremental_changes_agree (fun child (_ : Unit) => child)
    shopping shoppingUpdates (allAsserted_whole (fun _ _ _ same => same) _ _)
  have eggs : newSnap.getImmediateChild "eggs" = some 12 := by rw [children]; decide
  have milk : newSnap.getImmediateChild "milk" = some 1 := by rw [children]; decide
  refine ⟨newSnap, tracked, full, run, compared, ((agree "eggs").1 ?_).2, milk, ((agree "milk").2 ?_).1⟩
  · rw [eggs]
    decide
  · rw [milk]
    decide

/-! ## The events raised -/

structure FChildEventRegistration where
  handle : Nat
  callbacks : List EventType
deriving DecidableEq

def FChildEventRegistration.responseTo (registration : FChildEventRegistration) (eventType : EventType) : Bool :=
  eventType ∈ registration.callbacks

/-- `FDataEvent`. -/
structure Event (K : Type u) (N : Type v) where
  eventRegistration : FChildEventRegistration
  eventType : EventType
  childKey : K
  snapshot : N
deriving DecidableEq

/-- `generateEventForChange`. -/
def generateEvent (change : Sigma fun _ : K => Change N) (registration : FChildEventRegistration) : Event K N where
  eventRegistration := registration
  eventType := change.2.type
  childKey := change.1
  snapshot := change.2.indexedNode

/-- `filteredChanges`; `compareKey` orders the children of the query. -/
def filteredChanges (compareKey : K × N → K × N → Bool) (changes : List (Sigma fun _ : K => Change N))
    (eventType : EventType) : List (Sigma fun _ : K => Change N) :=
  (changes.filter fun change => change.2.type = eventType).mergeSort fun one two =>
    compareKey (one.1, one.2.indexedNode) (two.1, two.2.indexedNode)

/-- `generateEvents:forType:`. -/
def generateEventsForType (compareKey : K × N → K × N → Bool) (changes : List (Sigma fun _ : K => Change N))
    (registrations : List FChildEventRegistration) (eventType : EventType) : List (Event K N) :=
  (filteredChanges compareKey changes eventType).flatMap fun change =>
    (registrations.filter fun registration => registration.responseTo eventType).map (generateEvent change)

/-- `generateEventsForChanges`. -/
def generateEventsForChanges (compareKey : K × N → K × N → Bool) (changes : List (Sigma fun _ : K => Change N))
    (registrations : List FChildEventRegistration) : List (Event K N) :=
  generateEventsForType compareKey changes registrations .childRemoved ++
    (generateEventsForType compareKey changes registrations .childAdded ++
      generateEventsForType compareKey changes registrations .childChanged)

/-- What a listener that keeps the children makes of an event; `none` is an event that cannot have come. -/
def Event.hear (children : K → Option N) (event : Event K N) : Option (K → Option N) :=
  match event.eventType, children event.childKey with
  | .childRemoved, some _ => some (Function.update children event.childKey none)
  | .childAdded, none | .childChanged, some _ => some (Function.update children event.childKey (some event.snapshot))
  | _, _ => none

/-- What a listener to the keys alone hears of an event. -/
def Event.ofKey (event : Event K N) : Option (ChildEvent K) :=
  match event.eventType with
  | .childRemoved => some (.removed event.childKey)
  | .childAdded => some (.added event.childKey)
  | .childChanged => none

/-- The changes in the order in which their events are raised. -/
def raised (compareKey : K × N → K × N → Bool) (changes : List (Sigma fun _ : K => Change N)) :
    List (Sigma fun _ : K => Change N) :=
  filteredChanges compareKey changes .childRemoved ++
    (filteredChanges compareKey changes .childAdded ++ filteredChanges compareKey changes .childChanged)

omit [DecidableEq K] [DecidableEq N] in
theorem raised_perm (compareKey : K × N → K × N → Bool) (changes : List (Sigma fun _ : K => Change N)) :
    (raised compareKey changes).Perm changes := by
  have split : ((changes.filter fun change => change.2.type = .childRemoved) ++
      ((changes.filter fun change => change.2.type = .childAdded) ++
        changes.filter fun change => change.2.type = .childChanged)).Perm changes := by
    induction changes with
    | nil => rfl
    | cons change rest ih =>
      cases type : change.2.type with
      | childRemoved => simpa [type] using ih
      | childAdded =>
        simp only [List.filter_cons, type, reduceCtorEq, decide_false, decide_true, if_true, Bool.false_eq_true, if_false]
        exact List.perm_middle.trans (ih.cons change)
      | childChanged =>
        simp only [List.filter_cons, type, reduceCtorEq, decide_false, decide_true, if_true, Bool.false_eq_true, if_false]
        rw [← List.append_assoc]
        refine List.perm_middle.trans (List.Perm.cons change ?_)
        rw [List.append_assoc]
        exact ih
  exact ((List.mergeSort_perm ..).append ((List.mergeSort_perm ..).append (List.mergeSort_perm ..))).trans split

/-- Exactly one registration answers an event of the type. -/
def AnsweredOnce (registrations : List FChildEventRegistration) (eventType : EventType) : Prop :=
  ∃ registration, (registrations.filter fun registration => registration.responseTo eventType) = [registration]

omit [DecidableEq K] [DecidableEq N] in
/-- Where one registration answers, one event is raised for each change. -/
theorem generateEventsForType_once {registrations : List FChildEventRegistration} {eventType : EventType}
    (once : AnsweredOnce registrations eventType) (compareKey : K × N → K × N → Bool) (changes : List (Sigma fun _ : K => Change N)) :
    ∃ registration, generateEventsForType compareKey changes registrations eventType =
      (filteredChanges compareKey changes eventType).map fun change => generateEvent change registration := by
  obtain ⟨registration, answers⟩ := once
  refine ⟨registration, ?_⟩
  rw [generateEventsForType, answers, List.map_eq_flatMap]
  rfl

/-- What a listener that keeps the children makes of a change. -/
def hearChange (children : K → Option N) (change : Sigma fun _ : K => Change N) : Option (K → Option N) :=
  match change.2, children change.1 with
  | .childRemoved _, some _ => some (Function.update children change.1 none)
  | .childAdded node, none | .childChanged node _, some _ => some (Function.update children change.1 (some node))
  | _, _ => none

omit [DecidableEq N] in
theorem hear_generateEvent (children : K → Option N) (change : Sigma fun _ : K => Change N)
    (registration : FChildEventRegistration) : (generateEvent change registration).hear children = hearChange children change := by
  obtain ⟨childKey, change⟩ := change
  cases change <;> cases found : children childKey <;> simp [generateEvent, Event.hear, hearChange, Change.type, Change.indexedNode, found]

omit [DecidableEq N] in
theorem foldlM_hear_once {registrations : List FChildEventRegistration} {eventType : EventType}
    (once : AnsweredOnce registrations eventType) (compareKey : K × N → K × N → Bool) (changes : List (Sigma fun _ : K => Change N))
    (children : K → Option N) :
    (generateEventsForType compareKey changes registrations eventType).foldlM Event.hear children =
      (filteredChanges compareKey changes eventType).foldlM hearChange children := by
  obtain ⟨registration, events⟩ := generateEventsForType_once once compareKey changes
  rw [events, List.foldlM_map]
  simp only [hear_generateEvent]

omit [DecidableEq N] in
/-- Changes of different children, each from what the child is, lead to what they say and leave the others. -/
theorem foldlM_hearChange {changes : List (Sigma fun _ : K => Change N)} (distinct : (changes.map Sigma.fst).Nodup)
    {children : K → Option N} (from_children : ∀ change ∈ changes, change.2.before = children change.1) :
    ∃ heard, changes.foldlM hearChange children = some heard ∧ (∀ change ∈ changes, heard change.1 = change.2.after) ∧
      ∀ k ∉ changes.map Sigma.fst, heard k = children k := by
  induction changes generalizing children with
  | nil => exact ⟨children, rfl, by simp, fun _ _ => rfl⟩
  | cons change rest ih =>
    obtain ⟨notInRest, restDistinct⟩ := List.nodup_cons.mp distinct
    obtain ⟨first, later⟩ := List.forall_mem_cons.mp from_children
    have step : hearChange children change = some (Function.update children change.1 change.2.after) := by
      obtain ⟨childKey, change⟩ := change
      cases change <;> simp [hearChange, ← first, Change.before, Change.after]
    have restFrom : ∀ other ∈ rest, other.2.before = Function.update children change.1 change.2.after other.1 := by
      intro other member
      have differs : other.1 ≠ change.1 := by
        intro same
        exact notInRest (List.mem_map.mpr ⟨other, member, same⟩)
      rw [Function.update_of_ne differs, later other member]
    obtain ⟨heard, run, inside, outside⟩ := ih restDistinct restFrom
    refine ⟨heard, ?_, ?_, ?_⟩
    · rw [List.foldlM_cons, step]
      exact run
    · refine List.forall_mem_cons.mpr ⟨?_, inside⟩
      rw [outside change.1 notInRest, Function.update_self]
    · intro k notListed
      rw [List.map_cons, List.mem_cons, not_or] at notListed
      rw [outside k notListed.2, Function.update_of_ne notListed.1]

/-- What a listener to the keys alone hears of a change. -/
def ofChange (change : Sigma fun _ : K => Change N) : Option (ChildEvent K) :=
  match change.2 with
  | .childRemoved _ => some (.removed change.1)
  | .childAdded _ => some (.added change.1)
  | .childChanged .. => none

omit [DecidableEq K] [DecidableEq N] in
theorem ofKey_generateEvent (change : Sigma fun _ : K => Change N) (registration : FChildEventRegistration) :
    (generateEvent change registration).ofKey = ofChange change := by
  obtain ⟨childKey, change⟩ := change
  cases change <;> rfl

omit [DecidableEq K] [DecidableEq N] in
theorem filterMap_ofKey_once {registrations : List FChildEventRegistration} {eventType : EventType}
    (once : AnsweredOnce registrations eventType) (compareKey : K × N → K × N → Bool) (changes : List (Sigma fun _ : K => Change N)) :
    (generateEventsForType compareKey changes registrations eventType).filterMap Event.ofKey =
      (filteredChanges compareKey changes eventType).filterMap ofChange := by
  obtain ⟨registration, events⟩ := generateEventsForType_once once compareKey changes
  rw [events, List.filterMap_map]
  congr 1
  funext change
  exact ofKey_generateEvent change registration

omit [DecidableEq K] [DecidableEq N] in
theorem type_of_mem_filteredChanges {compareKey : K × N → K × N → Bool} {changes : List (Sigma fun _ : K => Change N)}
    {eventType : EventType} {change : Sigma fun _ : K => Change N} (member : change ∈ filteredChanges compareKey changes eventType) :
    change.2.type = eventType := by
  rw [filteredChanges, List.mem_mergeSort, List.mem_filter] at member
  exact of_decide_eq_true member.2

omit [DecidableEq K] [DecidableEq N] in
/-- A changed child is no news of its key, whoever listens. -/
theorem filterMap_ofKey_childChanged (compareKey : K × N → K × N → Bool) (changes : List (Sigma fun _ : K => Change N))
    (registrations : List FChildEventRegistration) :
    (generateEventsForType compareKey changes registrations .childChanged).filterMap Event.ofKey =
      (filteredChanges compareKey changes .childChanged).filterMap ofChange := by
  have silent : ∀ change ∈ filteredChanges compareKey changes .childChanged, ofChange change = none := by
    rintro ⟨childKey, change⟩ member
    have type : change.type = .childChanged := type_of_mem_filteredChanges member
    cases change with
    | childChanged => rfl
    | childAdded | childRemoved => cases type
  rw [List.filterMap_eq_nil_iff.mpr silent, List.filterMap_eq_nil_iff]
  intro event member
  obtain ⟨change, listed, answered⟩ := List.mem_flatMap.mp member
  obtain ⟨registration, -, rfl⟩ := List.mem_map.mp answered
  rw [ofKey_generateEvent, silent change listed]

omit [DecidableEq N] in
/-- The keys that the changes tell of, and what they say of them. -/
theorem leads_of_changes {changes : List (Sigma fun _ : K => Change N)} (distinct : (changes.map Sigma.fst).Nodup)
    {before after : K → Option N} (noted : ∀ change ∈ changes, change.2.before = before change.1 ∧ change.2.after = after change.1)
    (unnoted : ∀ k ∉ changes.map Sigma.fst, before k = after k) {history : List (ChildEvent K)}
    (heard : ∀ k, standing history k = some true ↔ (before k).isSome = true) {keys : Finset K}
    (present : ∀ k, k ∈ keys ↔ (after k).isSome = true) : Leads history (changes.filterMap ofChange) keys := by
  have event : ∀ e ∈ changes.filterMap ofChange, (e.here = false ↔ (before e.key).isSome = true) ∧
      (e.here = true ↔ (after e.key).isSome = true) := by
    intro e member
    obtain ⟨⟨childKey, change⟩, listed, told⟩ := List.mem_filterMap.mp member
    obtain ⟨sameBefore, sameAfter⟩ := noted ⟨childKey, change⟩ listed
    cases change with
    | childAdded node =>
      cases told
      exact ⟨by simp [ChildEvent.here, ChildEvent.key, ← sameBefore, Change.before],
        by simp [ChildEvent.here, ChildEvent.key, ← sameAfter, Change.after]⟩
    | childRemoved node =>
      cases told
      exact ⟨by simp [ChildEvent.here, ChildEvent.key, ← sameBefore, Change.before],
        by simp [ChildEvent.here, ChildEvent.key, ← sameAfter, Change.after]⟩
    | childChanged => cases told
  refine leads_batch ?_ ?_ ?_ ?_
  · rw [List.Nodup, List.pairwise_map] at distinct ⊢
    refine distinct.filterMap ofChange ?_
    rintro ⟨childKey, change⟩ ⟨otherKey, other⟩ differ e told f toldOther
    cases change <;> cases told <;> cases other <;> cases toldOther <;> exact differ
  · intro e member
    rw [Possible, heard]
    exact (event e member).1
  · intro e member
    rw [present]
    exact (event e member).2
  · intro k untold
    rw [heard, present]
    by_cases listed : k ∈ changes.map Sigma.fst
    · obtain ⟨⟨childKey, change⟩, member, rfl⟩ := List.mem_map.mp listed
      obtain ⟨sameBefore, sameAfter⟩ := noted _ member
      have told : ∀ e, ofChange ⟨childKey, change⟩ = some e → e.key = childKey → False := by
        intro e tells same
        exact untold (List.mem_map.mpr ⟨e, List.mem_filterMap.mpr ⟨_, member, tells⟩, same⟩)
      cases change with
      | childAdded node => exact (told _ rfl rfl).elim
      | childRemoved node => exact (told _ rfl rfl).elim
      | childChanged node old => simp [← sameBefore, ← sameAfter, Change.before, Change.after]
    · rw [unnoted k listed]

omit [DecidableEq N] in
/-- The events that a run of updates raises lead a listener of added and removed children from the keys before to
the keys after, and one that hears of changed children too from the children before to those after. -/
theorem events_lead_listener (getChild : Option N → P → V) (oldSnap : Node K N) (updates : List (ChildUpdate K N P))
    (asserted : AllAsserted getChild (oldSnap, ∅) updates) (compareKey : K × N → K × N → Bool)
    (registrations : List FChildEventRegistration) (removedOnce : AnsweredOnce registrations .childRemoved)
    (addedOnce : AnsweredOnce registrations .childAdded) :
    ∃ newSnap tracked, updates.foldlM (updateChildIn getChild) (oldSnap, ∅) = some (newSnap, tracked) ∧
      newSnap.getImmediateChild = updates.foldl assign oldSnap.getImmediateChild ∧
      ∀ changes : List (Sigma fun _ : K => Change N), changes.Perm tracked.entries →
        (∀ history, (∀ k, standing history k = some true ↔ (oldSnap.getImmediateChild k).isSome = true) →
          Leads history ((generateEventsForChanges compareKey changes registrations).filterMap Event.ofKey)
            newSnap.children.keys.toFinset) ∧
        (AnsweredOnce registrations .childChanged →
          (generateEventsForChanges compareKey changes registrations).foldlM Event.hear oldSnap.getImmediateChild =
            some newSnap.getImmediateChild) := by
  obtain ⟨⟨newSnap, tracked⟩, run, children, describes⟩ := foldlM_updateChildIn (describes_empty oldSnap.getImmediateChild) asserted
  refine ⟨newSnap, tracked, run, children, ?_⟩
  intro changes order
  have perm : (raised compareKey changes).Perm tracked.entries := (raised_perm compareKey changes).trans order
  have distinct : ((raised compareKey changes).map Sigma.fst).Nodup := (perm.map Sigma.fst).nodup_iff.mpr tracked.keys_nodup
  have noted : ∀ change ∈ raised compareKey changes, change.2.before = oldSnap.getImmediateChild change.1 ∧
      change.2.after = newSnap.getImmediateChild change.1 := by
    intro change member
    exact (describes change.1).1 change.2 (AList.mem_lookup_iff.mpr (perm.mem_iff.mp member))
  have unnoted : ∀ k ∉ (raised compareKey changes).map Sigma.fst, oldSnap.getImmediateChild k = newSnap.getImmediateChild k := by
    intro k unlisted
    exact (describes k).2 (AList.lookup_eq_none.mpr fun listed => unlisted ((perm.map Sigma.fst).mem_iff.mpr listed))
  constructor
  · intro history heard
    rw [generateEventsForChanges, List.filterMap_append, List.filterMap_append, filterMap_ofKey_once removedOnce,
      filterMap_ofKey_once addedOnce, filterMap_ofKey_childChanged, ← List.filterMap_append, ← List.filterMap_append]
    refine leads_of_changes distinct noted unnoted heard ?_
    intro k
    rw [List.mem_toFinset]
    exact AList.lookup_isSome.symm
  · intro changedOnce
    obtain ⟨heard, replay, inside, outside⟩ := foldlM_hearChange distinct fun change member => (noted change member).1
    have reached : heard = newSnap.getImmediateChild := by
      funext k
      by_cases listed : k ∈ (raised compareKey changes).map Sigma.fst
      · obtain ⟨change, member, rfl⟩ := List.mem_map.mp listed
        rw [inside change member, (noted change member).2]
      · rw [outside k listed, unnoted k listed]
    simp only [raised, List.foldlM_append] at replay
    simp only [generateEventsForChanges, List.foldlM_append, foldlM_hear_once removedOnce, foldlM_hear_once addedOnce,
      foldlM_hear_once changedOnce]
    rw [replay, reached]

/-- A registration for each kind of event, as for the items of a list. -/
def itemRegistrations : List FChildEventRegistration := [⟨1, [.childAdded]⟩, ⟨2, [.childRemoved]⟩, ⟨3, [.childChanged]⟩]

theorem events_lead_listener_shopping :
    ∃ newSnap tracked, shoppingUpdates.foldlM (updateChildIn fun child _ => child) (shopping, ∅) = some (newSnap, tracked) ∧
      Leads [.added "bread", .added "milk"]
        ((generateEventsForChanges (fun one two => one.1 ≤ two.1) tracked.entries itemRegistrations).filterMap Event.ofKey)
        newSnap.children.keys.toFinset ∧
      (generateEventsForChanges (fun one two => one.1 ≤ two.1) tracked.entries itemRegistrations).foldlM Event.hear
        shopping.getImmediateChild = some newSnap.getImmediateChild := by
  obtain ⟨newSnap, tracked, run, -, lead⟩ := events_lead_listener (fun child (_ : Unit) => child) shopping shoppingUpdates
    (allAsserted_whole (fun _ _ _ same => same) _ _) (fun one two => one.1 ≤ two.1) itemRegistrations ⟨⟨2, [.childRemoved]⟩, rfl⟩
    ⟨⟨1, [.childAdded]⟩, rfl⟩
  obtain ⟨keys, children⟩ := lead tracked.entries (List.Perm.refl _)
  refine ⟨newSnap, tracked, run, keys _ ?_, children ⟨⟨3, [.childChanged]⟩, rfl⟩⟩
  intro k
  by_cases milk : k = "milk"
  · subst milk
    decide
  by_cases bread : k = "bread"
  · subst bread
    decide
  have gone : shopping.getImmediateChild k = none := by
    rw [Node.getImmediateChild, shopping, Node.children, AList.lookup_insert_ne bread, AList.lookup_insert_ne milk]
    exact AList.lookup_empty k
  rw [gone, standing_added, standing_added, if_neg (Ne.symm bread), if_neg (Ne.symm milk), standing]
  simp

end SharedList.ChildChanges
