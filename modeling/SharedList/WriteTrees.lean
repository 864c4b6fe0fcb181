import SharedList.Layers
import SharedList.CompoundWrites
import SharedList.Runs

/-!
`FWriteTree`, the writes of a device that the server has not confirmed yet. Beside the list of them it keeps one compound
write, from which the removal of a write takes as little as it can: nothing if a later write covers the removed one, its
own nodes if no other write is at or below its path, and only otherwise is everything layered again. As long as the
removed write is untangled from the others, all of these leave the compound write of the remaining list.
-/
namespace SharedList.WriteTrees
open SnapshotNodes CompoundWrites
universe u v
variable {K : Type u} {V : Type v} [DecidableEq K]

/-- What a record overwrites with, or merges. -/
inductive FWrite (K : Type u) (V : Type v) where
  | overwrite (node : FNode K V)
  | merge (compoundWrite : FCompoundWrite K V)

structure FWriteRecord (K : Type u) (V : Type v) where
  path : List K
  write : FWrite K V
  writeId : Int
  visible : Bool

namespace FWriteRecord

/-- `record:containsPath:` -/
def containsPath (record : FWriteRecord K V) (path : List K) : Bool :=
  match record.write with
  | .overwrite _ => record.path <+: path
  | .merge merge => merge.writeTree.forEach.any fun w => record.path ++ w.1 <+: path

/-- The step of `layerTreeFromWrites` for one record. -/
def layer (record : FWriteRecord K V) (treeRoot : List K) (compoundWrite : FCompoundWrite K V) : FCompoundWrite K V :=
  match record.write with
  | .overwrite overwrite =>
    if treeRoot <+: record.path then compoundWrite.addWrite overwrite (record.path.drop treeRoot.length)
    else if record.path <+: treeRoot then compoundWrite.addWrite (overwrite.getChild (treeRoot.drop record.path.length)) []
    else compoundWrite
  | .merge merge =>
    if treeRoot <+: record.path then compoundWrite.addCompoundWrite merge (record.path.drop treeRoot.length)
    else if record.path <+: treeRoot then
      let relativePath := treeRoot.drop record.path.length
      if relativePath.isEmpty then compoundWrite.addCompoundWrite merge []
      else match merge.completeNodeAtPath relativePath with
        | some child => compoundWrite.addWrite (child.getChild relativePath.tail) []
        | none => compoundWrite
    else compoundWrite

/-- The nodes of a record with their paths. -/
def writes (record : FWriteRecord K V) : List (List K × FNode K V) :=
  match record.write with
  | .overwrite node => [(record.path, node)]
  | .merge merge => merge.writeTree.forEach.map fun w => (record.path ++ w.1, w.2)

end FWriteRecord

structure FWriteTree (K : Type u) (V : Type v) where
  visibleWrites : FCompoundWrite K V
  allWrites : List (FWriteRecord K V)
  lastWriteId : Int

namespace FWriteTree

def init : FWriteTree K V := ⟨.emptyWrite, [], -1⟩

/-- `none` where the assertion fails. -/
def addOverwriteAtPath (tree : FWriteTree K V) (path : List K) (newData : FNode K V) (writeId : Int) (visible : Bool) : Option (FWriteTree K V) :=
  if writeId > tree.lastWriteId then
    let record : FWriteRecord K V := ⟨path, .overwrite newData, writeId, visible⟩
    let visibleWrites := if visible then tree.visibleWrites.addWrite newData path else tree.visibleWrites
    some ⟨visibleWrites, tree.allWrites ++ [record], writeId⟩
  else none

def addMergeAtPath (tree : FWriteTree K V) (path : List K) (changedChildren : FCompoundWrite K V) (writeId : Int) : Option (FWriteTree K V) :=
  if writeId > tree.lastWriteId then
    let record : FWriteRecord K V := ⟨path, .merge changedChildren, writeId, true⟩
    some ⟨tree.visibleWrites.addCompoundWrite changedChildren path, tree.allWrites ++ [record], writeId⟩
  else none

def layerTreeFromWrites (writes : List (FWriteRecord K V)) (filter : FWriteRecord K V → Bool) (treeRoot : List K) : FCompoundWrite K V :=
  writes.foldl (fun compoundWrite record => if filter record then record.layer treeRoot compoundWrite else compoundWrite) .emptyWrite

/-- It keeps the hidden writes too. -/
def defaultFilter (_record : FWriteRecord K V) : Bool := true

def resetTree (tree : FWriteTree K V) : FWriteTree K V :=
  { tree with
    visibleWrites := layerTreeFromWrites tree.allWrites defaultFilter []
    lastWriteId := (tree.allWrites.getLast?.map FWriteRecord.writeId).getD (-1) }

/-- The loop of `removeWriteId:` over the remaining writes and their indices, the last one first: whether the
removed write still counts as visible, and whether it overlaps with others. -/
def overlaps (index : Nat) (writeToRemove : FWriteRecord K V) : List (FWriteRecord K V × Nat) → Bool → Bool → Bool × Bool
  | [], removedWriteWasVisible, removedWriteOverlaps => (removedWriteWasVisible, removedWriteOverlaps)
  | (currentWrite, i) :: rest, removedWriteWasVisible, removedWriteOverlaps =>
    if removedWriteWasVisible then
      if currentWrite.visible then
        if i ≥ index ∧ currentWrite.containsPath writeToRemove.path then overlaps index writeToRemove rest false removedWriteOverlaps
        else if writeToRemove.path <+: currentWrite.path then overlaps index writeToRemove rest removedWriteWasVisible true
        else overlaps index writeToRemove rest removedWriteWasVisible removedWriteOverlaps
      else overlaps index writeToRemove rest removedWriteWasVisible removedWriteOverlaps
    else (removedWriteWasVisible, removedWriteOverlaps)

/-- The rest of `removeWriteId:`, with whether views have to be evaluated again. -/
def removeWrite (tree : FWriteTree K V) (index : Nat) (writeToRemove : FWriteRecord K V) : Bool × FWriteTree K V :=
  let removed := { tree with allWrites := tree.allWrites.eraseIdx index }
  let found := overlaps index writeToRemove removed.allWrites.zipIdx.reverse writeToRemove.visible false
  if !found.1 then (false, removed)
  else if found.2 then (true, removed.resetTree)
  else
    let visibleWrites := match writeToRemove.write with
      | .overwrite _ => removed.visibleWrites.removeWriteAtPath writeToRemove.path
      | .merge merge => merge.writeTree.forEach.foldl
          (fun visibleWrites w => visibleWrites.removeWriteAtPath (writeToRemove.path ++ w.1)) removed.visibleWrites
    (true, { removed with visibleWrites := visibleWrites })

/-- `none` where there is no write with this id. -/
def removeWriteId (tree : FWriteTree K V) (writeId : Int) : Option (Bool × FWriteTree K V) :=
  match tree.allWrites.findIdx? fun record => record.writeId = writeId with
  | none => none
  | some index => tree.allWrites[index]?.map (tree.removeWrite index)

def removeAllWrites (tree : FWriteTree K V) : FWriteTree K V := { tree with visibleWrites := .emptyWrite, allWrites := [] }

/-- `calculateCompleteEventCacheAtPath:completeServerCache:excludeWriteIds:includeHiddenWrites:` -/
def calculateCompleteEventCacheAtPath (tree : FWriteTree K V) (treePath : List K) (completeServerCache : Option (FNode K V))
    (writeIdsToExclude : Option (List Int)) (includeHiddenWrites : Bool) : Option (FNode K V) :=
  if writeIdsToExclude.isNone && !includeHiddenWrites then tree.visibleWrites.completeEventCache treePath completeServerCache
  else
    let merge := tree.visibleWrites.childCompoundWriteAtPath treePath
    if !includeHiddenWrites && merge.isEmpty then completeServerCache
    else if !includeHiddenWrites && completeServerCache.isNone && !merge.hasCompleteWriteAtPath [] then none
    else
      let filter (record : FWriteRecord K V) := (record.visible || includeHiddenWrites) &&
        !(writeIdsToExclude.any fun excluded => excluded.contains record.writeId) &&
        (record.path <+: treePath || treePath <+: record.path)
      some ((layerTreeFromWrites tree.allWrites filter treePath).applyToNode (completeServerCache.getD .emptyNode))

/-- The writes that are waited for, one after the other. -/
def pending (tree : FWriteTree K V) : List (List K × FNode K V) := tree.allWrites.flatMap FWriteRecord.writes

end FWriteTree

/-! ## Removing a write -/

open FWriteTree

/-- A later write covers the removed one. -/
theorem overlaps_fst (index : Nat) (r : FWriteRecord K V) (others : List (FWriteRecord K V × Nat)) (wasVisible overlapping : Bool)
    (visible : ∀ d ∈ others, d.1.visible = true) : (overlaps index r others wasVisible overlapping).1 = true ↔
      wasVisible = true ∧ ∀ d ∈ others, d.2 ≥ index → d.1.containsPath r.path = false := by
  induction others generalizing wasVisible overlapping with
  | nil => simp [overlaps]
  | cons d rest ih =>
    obtain ⟨current, i⟩ := d
    obtain ⟨first, later⟩ := List.forall_mem_cons.mp visible
    rw [overlaps]
    cases wasVisible with
    | false => simp
    | true =>
      have shown : current.visible = true := first
      rw [if_pos rfl, if_pos shown, List.forall_mem_cons]
      by_cases covers : i ≥ index ∧ current.containsPath r.path = true
      · rw [if_pos covers, ih _ _ later]
        simp [covers.1, covers.2]
      · have notCovered : i ≥ index → current.containsPath r.path = false :=
          fun below => Bool.eq_false_iff.mpr fun contains => covers ⟨below, contains⟩
        rw [if_neg covers]
        split <;> exact (ih _ _ later).trans (and_congr_right fun _ => (and_iff_right notCovered).symm)

/-- Another write is at or below the path of the removed one. -/
theorem overlaps_snd (index : Nat) (r : FWriteRecord K V) (others : List (FWriteRecord K V × Nat)) (overlapping : Bool)
    (visible : ∀ d ∈ others, d.1.visible = true) (notCovered : ∀ d ∈ others, d.2 ≥ index → d.1.containsPath r.path = false) :
    (overlaps index r others true overlapping).2 = true ↔ overlapping = true ∨ ∃ d ∈ others, r.path <+: d.1.path := by
  induction others generalizing overlapping with
  | nil => simp [overlaps]
  | cons d rest ih =>
    obtain ⟨current, i⟩ := d
    obtain ⟨first, later⟩ := List.forall_mem_cons.mp visible
    obtain ⟨notFirst, notLater⟩ := List.forall_mem_cons.mp notCovered
    have shown : current.visible = true := first
    have covers : ¬ (i ≥ index ∧ current.containsPath r.path = true) := by
      rintro ⟨below, contains⟩
      rw [show current.containsPath r.path = false from notFirst below] at contains
      cases contains
    rw [overlaps, if_pos rfl, if_pos shown, if_neg covers]
    split
    · rename_i above
      rw [ih _ later notLater]
      simp [above]
    · rename_i notAbove
      rw [ih _ later notLater]
      simp [notAbove]

omit [DecidableEq K] in
/-- The indices from that of the removed write on are those of the later ones. -/
theorem forall_later {before after : List (FWriteRecord K V)} {P : FWriteRecord K V → Prop} :
    (∀ d ∈ (before ++ after).zipIdx.reverse, d.2 ≥ before.length → P d.1) ↔ ∀ d ∈ after, P d := by
  simp only [List.mem_reverse, List.mem_zipIdx_iff_getElem?]
  constructor
  · intro all d member
    obtain ⟨i, there⟩ := List.mem_iff_getElem?.mp member
    refine all (d, before.length + i) ?_ (Nat.le_add_right _ _)
    rw [List.getElem?_append_right (Nat.le_add_right _ _), Nat.add_sub_cancel_left]
    exact there
  · rintro all ⟨d, i⟩ there later
    rw [List.getElem?_append_right later] at there
    exact all d (List.mem_of_getElem? there)

omit [DecidableEq K] in
theorem exists_other {others : List (FWriteRecord K V)} {P : FWriteRecord K V → Prop} :
    (∃ d ∈ others.zipIdx.reverse, P d.1) ↔ ∃ d ∈ others, P d := by
  simp only [List.mem_reverse, List.mem_zipIdx_iff_getElem?]
  constructor
  · rintro ⟨⟨d, i⟩, there, holds⟩
    exact ⟨d, List.mem_of_getElem? there, holds⟩
  · rintro ⟨d, member, holds⟩
    obtain ⟨i, there⟩ := List.mem_iff_getElem?.mp member
    exact ⟨(d, i), there, holds⟩

/-- The removed write is covered by a later one, or the writes are layered again, or its nodes are removed. -/
theorem removeWrite_cases {tree : FWriteTree K V} {before after : List (FWriteRecord K V)} {r : FWriteRecord K V}
    (visible : ∀ d ∈ tree.allWrites, d.visible = true) (split : tree.allWrites = before ++ r :: after) :
    let t := (tree.removeWrite before.length r).2
    t.allWrites = before ++ after ∧
      (((∃ d ∈ after, d.containsPath r.path = true) ∧ t.visibleWrites = tree.visibleWrites ∧ t.lastWriteId = tree.lastWriteId) ∨
        ((∃ d ∈ before ++ after, r.path <+: d.path) ∧ t = resetTree { tree with allWrites := before ++ after }) ∨
        ((∀ d ∈ after, d.containsPath r.path = false) ∧ (∀ d ∈ before ++ after, ¬ r.path <+: d.path) ∧
          t.visibleWrites = r.writes.foldl (fun visibleWrites c => visibleWrites.removeWriteAtPath c.1) tree.visibleWrites ∧
          t.lastWriteId = tree.lastWriteId)) := by
  have erased : tree.allWrites.eraseIdx before.length = before ++ after := by
    rw [split, List.eraseIdx_append_of_length_le (Nat.le_refl _)]
    simp
  have others : ∀ d ∈ (before ++ after).zipIdx.reverse, d.1.visible = true := by
    intro d member
    refine visible d.1 ?_
    have inOthers := List.fst_mem_of_mem_zipIdx (List.mem_reverse.mp member)
    rw [split]
    simp only [List.mem_append, List.mem_cons] at inOthers ⊢
    tauto
  have shown : r.visible = true := visible r (by simp [split])
  have first := overlaps_fst before.length r _ true false others
  rw [forall_later (P := fun d => d.containsPath r.path = false)] at first
  unfold FWriteTree.removeWrite
  simp only [erased, shown]
  by_cases notCovered : ∀ d ∈ after, d.containsPath r.path = false
  · have second := overlaps_snd before.length r _ false others
      ((forall_later (P := fun d => d.containsPath r.path = false)).mpr notCovered)
    rw [exists_other (P := fun d => r.path <+: d.path)] at second
    rw [first.mpr ⟨rfl, notCovered⟩]
    by_cases overlapping : ∃ d ∈ before ++ after, r.path <+: d.path
    · rw [second.mpr (.inr overlapping)]
      exact ⟨rfl, .inr (.inl ⟨overlapping, rfl⟩)⟩
    · have notSecond := Bool.eq_false_iff.mpr fun yes => (second.mp yes).elim (by simp) overlapping
      rw [notSecond]
      refine ⟨rfl, .inr (.inr ⟨notCovered, fun d member above => overlapping ⟨d, member, above⟩, ?_, rfl⟩)⟩
      cases write : r.write with
      | overwrite node => simp [FWriteRecord.writes, write]
      | merge merge => simp [FWriteRecord.writes, write, List.foldl_map]
  · have notFirst := Bool.eq_false_iff.mpr fun yes => notCovered (first.mp yes).2
    rw [notFirst]
    push Not at notCovered
    obtain ⟨d, member, covers⟩ := notCovered
    exact ⟨rfl, .inl ⟨⟨d, member, by simpa using covers⟩, rfl, rfl⟩⟩

/-- The write with the id is removed, wherever it stands in the list. -/
theorem removeWriteId_some {tree t : FWriteTree K V} {writeId : Int} {evaluate : Bool} (removed : tree.removeWriteId writeId = some (evaluate, t)) :
    ∃ before r after, tree.allWrites = before ++ r :: after ∧ r.writeId = writeId ∧ (tree.removeWrite before.length r).2 = t := by
  unfold removeWriteId at removed
  split at removed
  · cases removed
  · rename_i index found
    obtain ⟨r, there, result⟩ := Option.map_eq_some_iff.mp removed
    obtain ⟨short, isIt⟩ := (List.findIdx?_eq_some_iff_getElem.mp found).imp fun _ holds => holds.1
    obtain ⟨_, isR⟩ := List.getElem?_eq_some_iff.mp there
    refine ⟨tree.allWrites.take index, r, tree.allWrites.drop (index + 1), ?_, ?_, ?_⟩
    · rw [← isR, ← List.drop_eq_getElem_cons, List.take_append_drop]
    · simpa [isR] using isIt
    · rw [List.length_take, Nat.min_eq_left (Nat.le_of_lt short), result]

/-! ## Runs -/

inductive Action (K : Type u) (V : Type v) where
  | addOverwrite (path : List K) (newData : FNode K V) (writeId : Int) (visible : Bool)
  | addMerge (path : List K) (changedChildren : FCompoundWrite K V) (writeId : Int)
  | removeWrite (writeId : Int)
  | removeAllWrites

def step (tree : FWriteTree K V) : Action K V → Option (FWriteTree K V)
  | .addOverwrite path newData writeId visible => tree.addOverwriteAtPath path newData writeId visible
  | .addMerge path changedChildren writeId => tree.addMergeAtPath path changedChildren writeId
  | .removeWrite writeId => (tree.removeWriteId writeId).map Prod.snd
  | .removeAllWrites => some tree.removeAllWrites

/-- The nodes of an action are valid. -/
def Action.Valid : Action K V → Prop
  | .addOverwrite _ newData _ _ => newData.Valid
  | .addMerge _ changedChildren _ => ∀ w ∈ changedChildren.writeTree.forEach, w.2.Valid
  | .removeWrite _ => True
  | .removeAllWrites => True

/-- No write removes something below a leaf that an earlier one puts. -/
def NoneBelowLeaf (writes : List (List K × FNode K V)) : Prop :=
  writes.Pairwise fun earlier later => Uncovered (FNode.emptyNode.updateChild earlier.1 earlier.2) later

instance [DecidableEq V] (writes : List (List K × FNode K V)) : Decidable (NoneBelowLeaf writes) :=
  inferInstanceAs (Decidable (writes.Pairwise _))

/-- A write is taken back without a trace of it in the other one, and without one of the other. -/
def Untangled (r other : FWriteRecord K V) (later : Bool) : Prop :=
  r.path <+: other.path ∨ (later = true ∧ other.containsPath r.path = true) ∨ ∀ c ∈ r.writes, ∀ d ∈ other.writes, Apart c.1 d.1

instance (r other : FWriteRecord K V) (later : Bool) : Decidable (Untangled r other later) :=
  inferInstanceAs (Decidable (_ ∨ _ ∨ _))

/-- Writes are visible, none removes something below a leaf that a write before it puts, and the
removed ones are untangled from the others. -/
def Orderly (tree : FWriteTree K V) : Action K V → Prop
  | .addOverwrite path newData _ visible => visible = true ∧ NoneBelowLeaf (tree.pending ++ [(path, newData)])
  | .addMerge path changedChildren _ =>
    NoneBelowLeaf (tree.pending ++ changedChildren.writeTree.forEach.map fun w => (path ++ w.1, w.2))
  | .removeWrite writeId => ∀ r ∈ tree.allWrites.zipIdx, r.1.writeId = writeId →
    ∀ other ∈ tree.allWrites.zipIdx, other.2 ≠ r.2 → Untangled r.1 other.1 (r.2 < other.2)
  | .removeAllWrites => True

instance [DecidableEq V] (tree : FWriteTree K V) : ∀ action, Decidable (Orderly tree action)
  | .addOverwrite _ _ _ _ => inferInstanceAs (Decidable (_ ∧ _))
  | .addMerge _ _ _ => inferInstanceAs (Decidable (NoneBelowLeaf _))
  | .removeWrite writeId => inferInstanceAs (Decidable (∀ r ∈ tree.allWrites.zipIdx, r.1.writeId = writeId →
    ∀ other ∈ tree.allWrites.zipIdx, other.2 ≠ r.2 → Untangled r.1 other.1 (r.2 < other.2)))
  | .removeAllWrites => isTrue trivial

/-- The visible writes are one compound write of the pending ones. -/
structure Layered (tree : FWriteTree K V) : Prop where
  ids : tree.allWrites.Pairwise fun a b => a.writeId < b.writeId
  last : ∀ r ∈ tree.allWrites, r.writeId ≤ tree.lastWriteId
  visible : ∀ r ∈ tree.allWrites, r.visible = true
  valid : ∀ c ∈ tree.pending, c.2.Valid
  noneBelow : NoneBelowLeaf tree.pending
  layers : ∃ w trees, List.Forall₂ SameChange tree.pending trees ∧ Keeps tree.visibleWrites w ∧ w.Layers trees

theorem uncovered_trees {node : FNode K V} {t : Tree K V} (represented : Represents node t) {writes : List (List K × FNode K V)}
    {trees : Tree.Changes K V} (same : List.Forall₂ SameChange writes trees) (uncovered : ∀ c ∈ writes, Uncovered node c) :
    ∀ d ∈ trees, t.Uncovered d.1 d.2 := by
  induction same with
  | nil => simp
  | cons first rest ih =>
    obtain ⟨next, later⟩ := List.forall_mem_cons.mp uncovered
    exact List.forall_mem_cons.mpr ⟨next.tree represented first, ih later⟩

theorem NoneBelowLeaf.trees {writes : List (List K × FNode K V)} {trees : Tree.Changes K V} (same : List.Forall₂ SameChange writes trees)
    (noneBelow : NoneBelowLeaf writes) : Overlay.NoneBelowLeaf trees := by
  induction same with
  | nil => exact .nil
  | @cons c d _ _ first rest ih =>
    obtain ⟨below, later⟩ := List.pairwise_cons.mp noneBelow
    have placed := Represents.empty.updateChild d.1 first.2
    rw [first.1] at below
    exact List.pairwise_cons.mpr ⟨uncovered_trees placed rest below, ih later⟩

theorem exists_split {A : Type u} {B : Type v} {R : A → B → Prop} {a b : List A} {l : List B} (related : List.Forall₂ R (a ++ b) l) :
    ∃ c d, l = c ++ d ∧ List.Forall₂ R a c ∧ List.Forall₂ R b d := by
  induction a generalizing l with
  | nil => exact ⟨[], l, rfl, .nil, related⟩
  | cons x a ih =>
    cases related with
    | cons first rest =>
      obtain ⟨c, d, rfl, left, right⟩ := ih rest
      exact ⟨_ :: c, d, rfl, .cons first left, right⟩

theorem exists_related {A : Type u} {B : Type v} {R : A → B → Prop} {a : List A} {b : List B} (related : List.Forall₂ R a b) {x : A}
    (member : x ∈ a) : ∃ y ∈ b, R x y := by
  induction related with
  | nil => cases member
  | cons first rest ih =>
    rcases List.mem_cons.mp member with rfl | later
    · exact ⟨_, List.mem_cons_self, first⟩
    · obtain ⟨y, inRest, holds⟩ := ih later
      exact ⟨y, List.mem_cons_of_mem _ inRest, holds⟩

/-! ## What the records write -/

theorem containsPath_iff {record : FWriteRecord K V} {path : List K} :
    record.containsPath path = true ↔ ∃ c ∈ record.writes, c.1 <+: path := by
  cases kind : record.write with
  | overwrite node => simp [FWriteRecord.containsPath, FWriteRecord.writes, kind]
  | merge merge =>
    simp only [FWriteRecord.containsPath, FWriteRecord.writes, kind, List.any_eq_true, decide_eq_true_eq]
    constructor
    · rintro ⟨w, inMerge, above⟩
      exact ⟨_, List.mem_map.mpr ⟨w, inMerge, rfl⟩, above⟩
    · rintro ⟨c, member, above⟩
      obtain ⟨w, inMerge, rfl⟩ := List.mem_map.mp member
      exact ⟨w, inMerge, above⟩

omit [DecidableEq K] in
theorem path_above_writes {record : FWriteRecord K V} {c : List K × FNode K V} (member : c ∈ record.writes) : record.path <+: c.1 := by
  cases kind : record.write with
  | overwrite node =>
    simp only [FWriteRecord.writes, kind, List.mem_singleton] at member
    rw [member]
  | merge merge =>
    simp only [FWriteRecord.writes, kind, List.mem_map] at member
    obtain ⟨w, _, rfl⟩ := member
    exact List.prefix_append _ _

omit [DecidableEq K] in
theorem le_last {writes : List (FWriteRecord K V)} (ids : writes.Pairwise fun a b => a.writeId < b.writeId) {r : FWriteRecord K V}
    (member : r ∈ writes) : r.writeId ≤ (writes.getLast?.map FWriteRecord.writeId).getD (-1) := by
  induction writes using List.reverseRecOn with
  | nil => cases member
  | append_singleton earlier last ih =>
    rw [List.getLast?_concat, Option.map_some, Option.getD_some]
    rcases List.mem_append.mp member with inEarlier | isLast
    · exact Int.le_of_lt ((List.pairwise_append.mp ids).2.2 r inEarlier last List.mem_cons_self)
    · exact Int.le_of_eq (by rw [List.mem_singleton.mp isLast])

/-- Layering all writes again. -/
theorem layerTreeFromWrites_root (writes : List (FWriteRecord K V)) :
    layerTreeFromWrites writes defaultFilter [] = compoundWrite (writes.flatMap FWriteRecord.writes) := by
  have each : ∀ (record : FWriteRecord K V) (write : FCompoundWrite K V),
      record.layer [] write = record.writes.foldl (fun write c => write.addWrite c.2 c.1) write := by
    intro record write
    cases kind : record.write with
    | overwrite node => simp [FWriteRecord.layer, FWriteRecord.writes, kind]
    | merge merge => simp [FWriteRecord.layer, FWriteRecord.writes, kind, FCompoundWrite.addCompoundWrite, List.foldl_map]
  unfold layerTreeFromWrites compoundWrite
  rw [List.foldl_flatMap]
  simp only [defaultFilter, if_true, each]

namespace Layered

theorem init : Layered (FWriteTree.init : FWriteTree K V) where
  ids := .nil
  last := by simp [FWriteTree.init]
  visible := by simp [FWriteTree.init]
  valid := by simp [FWriteTree.init, pending]
  noneBelow := .nil
  layers := ⟨_, [], .nil, .empty, .empty⟩

variable {tree : FWriteTree K V}

/-- One more record. -/
theorem add (layered : Layered tree) {record : FWriteRecord K V} (visible : record.visible = true) (newer : record.writeId > tree.lastWriteId)
    (valid : ∀ c ∈ record.writes, c.2.Valid) (noneBelow : NoneBelowLeaf (tree.pending ++ record.writes)) {write : FCompoundWrite K V}
    (added : write = record.writes.foldl (fun write c => write.addWrite c.2 c.1) tree.visibleWrites) :
    Layered ⟨write, tree.allWrites ++ [record], record.writeId⟩ := by
  have pending_eq : pending ⟨write, tree.allWrites ++ [record], record.writeId⟩ = tree.pending ++ record.writes := by
    simp [pending]
  refine ⟨?_, ?_, ?_, ?_, ?_, ?_⟩
  · refine List.pairwise_append.mpr ⟨layered.ids, List.pairwise_singleton _ _, ?_⟩
    intro a earlier b last
    rw [List.mem_singleton.mp last]
    have bound := layered.last a earlier
    omega
  · intro r member
    rcases List.mem_append.mp member with earlier | last
    · have bound := layered.last r earlier
      show r.writeId ≤ record.writeId
      omega
    · exact Int.le_of_eq (by rw [List.mem_singleton.mp last])
  · intro r member
    rcases List.mem_append.mp member with earlier | last
    · exact layered.visible r earlier
    · rwa [List.mem_singleton.mp last]
  · rw [pending_eq]
    exact List.forall_mem_append.mpr ⟨layered.valid, valid⟩
  · rwa [pending_eq]
  · obtain ⟨w, trees, same, keeps, layers⟩ := layered.layers
    obtain ⟨more, sameMore, _⟩ := exists_trees valid
    rw [pending_eq, added]
    exact ⟨w.addAll more, trees ++ more, List.rel_append same sameMore, keeps.addWrites sameMore, layers.addAll more⟩

/-- The other records are untangled from the removed one. -/
theorem untangled_of_split {tree : FWriteTree K V} {before after : List (FWriteRecord K V)} {r : FWriteRecord K V}
    (split : tree.allWrites = before ++ r :: after) (orderly : Orderly tree (.removeWrite r.writeId)) :
    (∀ d ∈ before, Untangled r d false) ∧ ∀ d ∈ after, Untangled r d true := by
  have isIt : (r, before.length) ∈ tree.allWrites.zipIdx := by
    rw [List.mem_zipIdx_iff_getElem?, split]
    simp
  have untangled := orderly (r, before.length) isIt rfl
  constructor
  · intro d member
    obtain ⟨i, short, there⟩ := List.mem_iff_getElem.mp member
    have inTree : (d, i) ∈ tree.allWrites.zipIdx := by
      rw [List.mem_zipIdx_iff_getElem?, split, List.getElem?_append_left short]
      simp [there, short]
    have apart := untangled (d, i) inTree (Nat.ne_of_lt short)
    rwa [decide_eq_false (Nat.not_lt.mpr (Nat.le_of_lt short))] at apart
  · intro d member
    obtain ⟨i, there⟩ := List.mem_iff_getElem?.mp member
    have inTree : (d, before.length + (i + 1)) ∈ tree.allWrites.zipIdx := by
      rw [List.mem_zipIdx_iff_getElem?, split, List.getElem?_append_right (Nat.le_add_right _ _), Nat.add_sub_cancel_left]
      exact there
    have later : before.length < before.length + (i + 1) := by omega
    have apart := untangled (d, before.length + (i + 1)) inTree (Nat.ne_of_gt later)
    rwa [decide_eq_true later] at apart

/-- A write that is neither covered nor at or above the path of another is beside all others. -/
theorem apart_of_untangled {before after : List (FWriteRecord K V)} {r other : FWriteRecord K V} {c d : List K × FNode K V}
    (untangled : (∀ d ∈ before, Untangled r d false) ∧ ∀ d ∈ after, Untangled r d true)
    (notCovered : ∀ d ∈ after, d.containsPath r.path = false) (notAbove : ∀ d ∈ before ++ after, ¬ r.path <+: d.path)
    (inRemoved : c ∈ r.writes) (inRecords : other ∈ before ++ after) (inOther : d ∈ other.writes) : Apart c.1 d.1 := by
  have notHere := notAbove other inRecords
  rcases List.mem_append.mp inRecords with inBefore | inAfter
  · rcases untangled.1 other inBefore with above | ⟨later, _⟩ | apart
    · exact absurd above notHere
    · cases later
    · exact apart c inRemoved d inOther
  · rcases untangled.2 other inAfter with above | ⟨_, covers⟩ | apart
    · exact absurd above notHere
    · rw [notCovered other inAfter] at covers
      cases covers
    · exact apart c inRemoved d inOther

/-- Removing a write. -/
theorem removeWrite (layered : Layered tree) {t : FWriteTree K V} {writeId : Int} {evaluate : Bool}
    (orderly : Orderly tree (.removeWrite writeId)) (removed : tree.removeWriteId writeId = some (evaluate, t)) : Layered t := by
  obtain ⟨before, r, after, split, rfl, result⟩ := removeWriteId_some removed
  have removal := removeWrite_cases layered.visible split
  simp only [result] at removal
  obtain ⟨left, cases⟩ := removal
  have sublist : (before ++ after).Sublist tree.allWrites := by
    rw [split]
    exact (List.Sublist.refl before).append (List.sublist_cons_self r after)
  have pending_eq : tree.pending = before.flatMap FWriteRecord.writes ++ r.writes ++ after.flatMap FWriteRecord.writes := by
    simp [pending, split]
  have pending_left : t.pending = before.flatMap FWriteRecord.writes ++ after.flatMap FWriteRecord.writes := by
    simp [pending, left]
  have pendingSublist : t.pending.Sublist tree.pending := by
    rw [pending_left, pending_eq, List.append_assoc]
    exact (List.Sublist.refl _).append (List.sublist_append_right _ _)
  have ids := layered.ids.sublist sublist
  refine ⟨left ▸ ids, ?_, fun r member => layered.visible r (sublist.subset (left ▸ member)),
    fun c member => layered.valid c (pendingSublist.subset member), layered.noneBelow.sublist pendingSublist, ?_⟩
  · intro r member
    rw [left] at member
    rcases cases with ⟨_, _, same⟩ | ⟨_, same⟩ | ⟨_, _, _, same⟩
    · rw [same]
      exact layered.last r (sublist.subset member)
    · rw [same]
      exact le_last ids member
    · rw [same]
      exact layered.last r (sublist.subset member)
  · obtain ⟨w, trees, same, keeps, layers⟩ := layered.layers
    have noneBelow := layered.noneBelow.trees same
    rw [pending_eq] at same
    obtain ⟨upToBlock, treesAfter, rfl, sameUpTo, sameAfter⟩ := exists_split same
    obtain ⟨treesBefore, block, rfl, sameBefore, sameBlock⟩ := exists_split sameUpTo
    have sameLeft : List.Forall₂ SameChange (before.flatMap FWriteRecord.writes ++ after.flatMap FWriteRecord.writes)
      (treesBefore ++ treesAfter) := List.rel_append sameBefore sameAfter
    rw [pending_left]
    rcases cases with ⟨⟨d, inAfter, covers⟩, visibleWrites, _⟩ | ⟨_, reset⟩ | ⟨notCovered, notAbove, visibleWrites, _⟩
    · -- a later write covers the removed one, which leaves nothing
      obtain ⟨c, inWrites, above⟩ := containsPath_iff.mp covers
      obtain ⟨⟨q, s⟩, inTrees, path, _⟩ := exists_related sameAfter (List.mem_flatMap.mpr ⟨d, inAfter, inWrites⟩)
      have below : ∀ e ∈ block, q <+: e.1 := by
        intro e member
        obtain ⟨c', inRemoved, related⟩ := exists_related sameBlock.flip member
        have path' : c'.1 = e.1 := related.1
        rw [← path', ← show c.1 = q from path]
        exact above.trans (path_above_writes inRemoved)
      rw [visibleWrites]
      exact ⟨w, _, sameLeft, keeps, layers.forget inTrees below noneBelow⟩
    · -- everything is layered again
      have visibleWrites : (resetTree { tree with allWrites := before ++ after }).visibleWrites =
          compoundWrite (before.flatMap FWriteRecord.writes ++ after.flatMap FWriteRecord.writes) := by
        rw [← List.flatMap_append]
        exact layerTreeFromWrites_root _
      rw [reset, visibleWrites]
      exact ⟨_, _, sameLeft, Keeps.empty.addWrites sameLeft, by simpa using Overlay.Layers.empty.addAll _⟩
    · -- the nodes of the removed write are beside all others
      have beside : ∀ c ∈ block, ∀ d ∈ treesBefore ++ treesAfter, Apart c.1 d.1 := by
        intro c inBlock d inOthers
        obtain ⟨c', inRemoved, related⟩ := exists_related sameBlock.flip inBlock
        obtain ⟨d', inLeft, related'⟩ := exists_related sameLeft.flip inOthers
        rw [← List.flatMap_append] at inLeft
        obtain ⟨other, inRecords, inOther⟩ := List.mem_flatMap.mp inLeft
        have apart := apart_of_untangled (untangled_of_split split orderly) notCovered notAbove inRemoved inRecords inOther
        rw [← show c'.1 = c.1 from related.1, ← show d'.1 = d.1 from related'.1]
        exact apart
      rw [visibleWrites]
      exact ⟨_, _, sameLeft, keeps.removeWrites sameBlock, layers.takeOut beside⟩

theorem step (layered : Layered tree) {t : FWriteTree K V} {action : Action K V} (valid : action.Valid) (orderly : Orderly tree action)
    (stepped : step tree action = some t) : Layered t := by
  cases action with
  | addOverwrite path newData writeId visible =>
    obtain ⟨rfl, noneBelow⟩ := orderly
    obtain ⟨newer, added⟩ := Option.ite_none_right_eq_some.mp stepped
    cases added
    exact @add K V _ tree layered ⟨path, .overwrite newData, writeId, true⟩ rfl newer
      (List.forall_mem_singleton.mpr valid) noneBelow _ rfl
  | addMerge path changedChildren writeId =>
    obtain ⟨newer, added⟩ := Option.ite_none_right_eq_some.mp stepped
    cases added
    exact @add K V _ tree layered ⟨path, .merge changedChildren, writeId, true⟩ rfl newer
      (List.forall_mem_map.mpr valid) orderly _ (by simp [FWriteRecord.writes, FCompoundWrite.addCompoundWrite, List.foldl_map])
  | removeWrite writeId =>
    obtain ⟨⟨evaluate, left⟩, removed, rfl⟩ := Option.map_eq_some_iff.mp stepped
    exact layered.removeWrite orderly removed
  | removeAllWrites =>
    cases stepped
    exact ⟨.nil, by simp [FWriteTree.removeAllWrites], by simp [FWriteTree.removeAllWrites],
      by simp [pending, FWriteTree.removeAllWrites], .nil, _, [], .nil, .empty, .empty⟩

theorem run (layered : Layered tree) {t : FWriteTree K V} {actions : List (Action K V)} (valid : ∀ action ∈ actions, action.Valid)
    (orderly : Runs.Along WriteTrees.step Orderly tree actions) (run : Runs.exec WriteTrees.step tree actions = some t) : Layered t := by
  induction actions generalizing tree with
  | nil =>
    cases run
    exact layered
  | cons action rest ih =>
    obtain ⟨first, later⟩ := List.forall_mem_cons.mp valid
    obtain ⟨next, stepped, run⟩ := Option.bind_eq_some_iff.mp run
    obtain ⟨inOrder, orderly⟩ := orderly next stepped
    exact ih (layered.step first inOrder stepped) later orderly run

end Layered

/-- The server's data with the pending writes made one after the other. -/
def FWriteTree.madeTo (tree : FWriteTree K V) (server : FNode K V) : FNode K V :=
  tree.pending.foldl (fun node c => node.updateChild c.1 c.2) server

/-- The visible writes do what the pending ones do one after the other. -/
theorem Layered.exists_overlay {tree : FWriteTree K V} (layered : Layered tree) : ∃ w, Keeps tree.visibleWrites w ∧
    ∀ server t, Represents server t → (∀ c ∈ tree.pending, Uncovered server c) → Represents (tree.madeTo server) (t.overlay w) := by
  obtain ⟨w, trees, same, keeps, layers⟩ := layered.layers
  refine ⟨w, keeps, fun server t represented uncovered => (represented.update same).congr fun l => ?_⟩
  exact (layers.mem_overlay_iff (uncovered_trees represented same uncovered) l).symm

namespace Sample

def groceries : FNode String String := FNode.emptyNode.updateChild ["title"] (.leafNode "Groceries")

/-- A list gets another title twice, and a user a name; all but the last title are confirmed. -/
def titles : List (Action String String) :=
  [.addOverwrite ["lists", "groceries"] groceries 1 true,
   .addOverwrite ["lists", "groceries", "title"] (.leafNode "Food") 2 true,
   .addMerge ["users"] (compoundWrite [(["alice"], .leafNode "Alice")]) 3,
   .removeWrite 1, .removeWrite 3,
   .addOverwrite ["lists", "groceries", "title"] (.leafNode "Fruit") 4 true,
   .removeWrite 2]

/-- While a list is written, an update of the whole database gives it another title. -/
def tangled : List (Action String String) :=
  [.addOverwrite ["lists", "groceries"] groceries 1 true,
   .addMerge [] (compoundWrite [(["lists", "groceries", "title"], .leafNode "Food")]) 2,
   .removeWrite 1]

theorem groceries_valid : groceries.Valid := .updateChild .empty _ (.leaf _)

theorem titles_valid : ∀ action ∈ titles, action.Valid := by
  have merged : (compoundWrite [(["alice"], FNode.leafNode "Alice")] : FCompoundWrite String String).writeTree.forEach =
    [(["alice"], .leafNode "Alice")] := rfl
  simp [titles, Action.Valid, merged, groceries_valid, FNode.Valid.leaf]

end Sample

/-- Below the path of the removed write the pending update is forgotten: its own path is above. -/
example : (Runs.exec step FWriteTree.init Sample.tangled).map (fun tree => (tree.pending.map Prod.fst, tree.visibleWrites.isEmpty)) =
    some ([["lists", "groceries", "title"]], true) := by decide +kernel

end SharedList.WriteTrees
