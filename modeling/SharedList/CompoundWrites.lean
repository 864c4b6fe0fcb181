import SharedList.ImmutableTrees
import SharedList.Layers
import SharedList.SnapshotNodes

/-!
Firebase's compound writes. `FCompoundWrite` keeps the nodes that several writes put at their paths, and
merges a write at or below another one into its node. It is one form of an overlay: applying it to a node does
what the writes do one after the other, and what it makes of a node at a path needs
only what it and the node have there.
-/
namespace SharedList.CompoundWrites
open SnapshotNodes
universe u v
variable {K : Type u} {V : Type v} [DecidableEq K]

structure FCompoundWrite (K : Type u) (V : Type v) where
  writeTree : FImmutableTree K (FNode K V)

namespace FCompoundWrite

def emptyWrite : FCompoundWrite K V := ⟨.empty⟩

/-- `addWrite:atPath:` -/
def addWrite (write : FCompoundWrite K V) (node : FNode K V) (path : List K) : FCompoundWrite K V :=
  if path.isEmpty then ⟨.initWithValue node⟩
  else match write.writeTree.findRootMostValueAndPath path with
    | some rootMost =>
      let relativePath := path.drop rootMost.1.length
      ⟨write.writeTree.setValue (rootMost.2.updateChild relativePath node) rootMost.1⟩
    | none => ⟨write.writeTree.setTree (.initWithValue node) path⟩

/-- `addCompoundWrite:atPath:` -/
def addCompoundWrite (write compoundWrite : FCompoundWrite K V) (path : List K) : FCompoundWrite K V :=
  compoundWrite.writeTree.forEach.foldl (fun newWrite w => newWrite.addWrite w.2 (path ++ w.1)) write

def removeWriteAtPath (write : FCompoundWrite K V) (path : List K) : FCompoundWrite K V :=
  if path.isEmpty then emptyWrite else ⟨write.writeTree.setTree .empty path⟩

def completeNodeAtPath (write : FCompoundWrite K V) (path : List K) : Option (FNode K V) :=
  (write.writeTree.findRootMostValueAndPath path).map fun rootMost => rootMost.2.getChild (path.drop rootMost.1.length)

def hasCompleteWriteAtPath (write : FCompoundWrite K V) (path : List K) : Bool := (write.completeNodeAtPath path).isSome

def childCompoundWriteAtPath (write : FCompoundWrite K V) (path : List K) : FCompoundWrite K V :=
  if path.isEmpty then write
  else match write.completeNodeAtPath path with
    | some shadowingNode => ⟨.initWithValue shadowingNode⟩
    | none => ⟨write.writeTree.subtreeAtPath path⟩

def isEmpty (write : FCompoundWrite K V) : Bool := write.writeTree.isEmpty

mutual
/-- `applySubtreeWrite:atPath:toNode:` -/
def applySubtreeWrite : FImmutableTree K (FNode K V) → List K → FNode K V → FNode K V
  | .node (some value) _, relativePath, node => node.updateChild relativePath value
  | .node none children, relativePath, node => applyChildWrites children relativePath node
/-- The loop over the children of a subtree. -/
def applyChildWrites : List (Sigma fun _ : K => FImmutableTree K (FNode K V)) → List K → FNode K V → FNode K V
  | [], _, node => node
  | ⟨childKey, childTree⟩ :: rest, relativePath, node =>
    applyChildWrites rest relativePath (applySubtreeWrite childTree (relativePath ++ [childKey]) node)
end

def applyToNode (write : FCompoundWrite K V) (node : FNode K V) : FNode K V := applySubtreeWrite write.writeTree [] node

/-- The children that are overwritten as a whole, with their keys. -/
def completeChildren (write : FCompoundWrite K V) : List (Sigma fun _ : K => FNode K V) :=
  match write.writeTree with
  | .node (some node) _ => node.enumerateChildren
  | .node none children => children.filterMap fun c => c.2.value.map fun node => ⟨c.1, node⟩

/-- `calculateCompleteEventCacheAtPath:` of an `FWriteTree` with these visible writes, without hidden or excluded writes. -/
def completeEventCache (visibleWrites : FCompoundWrite K V) (treePath : List K) (completeServerCache : Option (FNode K V)) :
    Option (FNode K V) :=
  match visibleWrites.completeNodeAtPath treePath with
  | some shadowingNode => some shadowingNode
  | none =>
    let subMerge := visibleWrites.childCompoundWriteAtPath treePath
    if subMerge.isEmpty then completeServerCache
    else if completeServerCache.isNone && !subMerge.hasCompleteWriteAtPath [] then none
    else some (subMerge.applyToNode (completeServerCache.getD .emptyNode))

theorem addWrite_none {write : FCompoundWrite K V} {path : List K} (node : FNode K V)
    (missing : write.writeTree.findRootMostValueAndPath path = none) :
    (write.addWrite node path).writeTree = write.writeTree.setTree (.initWithValue node) path := by
  cases path with
  | nil => rfl
  | cons front path => simp [addWrite, missing]

/-- The case of the empty path gives what the others would. -/
theorem addWrite_some {write : FCompoundWrite K V} (valid : write.writeTree.Valid) {path p : List K} {value : FNode K V}
    (node : FNode K V) (found : write.writeTree.findRootMostValueAndPath path = some (p, value)) :
    (write.addWrite node path).writeTree = write.writeTree.setValue (value.updateChild (path.drop p.length) node) p := by
  cases path with
  | nil =>
    obtain ⟨tree⟩ := write
    cases valid with
    | value root =>
      cases found
      rfl
    | children distinct filled valid => cases found
  | cons front path => simp [addWrite, found]

theorem childCompoundWriteAtPath_none {write : FCompoundWrite K V} {path : List K} (missing : write.completeNodeAtPath path = none) :
    write.childCompoundWriteAtPath path = ⟨write.writeTree.subtreeAtPath path⟩ := by
  cases path with
  | nil => rfl
  | cons front path => simp [childCompoundWriteAtPath, missing]

/-- A complete node takes the place of any other. -/
theorem applyToNode_complete {write : FCompoundWrite K V} {k : K} {path : List K} {complete : FNode K V}
    (found : write.completeNodeAtPath (k :: path) = some complete) (node : FNode K V) :
    (write.childCompoundWriteAtPath (k :: path)).applyToNode node = complete := by
  have child : write.childCompoundWriteAtPath (k :: path) = ⟨.initWithValue complete⟩ := by
    simp [childCompoundWriteAtPath, found]
  rw [child, applyToNode, FImmutableTree.initWithValue, applySubtreeWrite, FNode.updateChild]

/-- Without a complete node on the way, the rest of the path is looked up in the part there. -/
theorem completeNodeAtPath_append {write : FCompoundWrite K V} {p q : List K} (missing : write.completeNodeAtPath p = none) :
    write.completeNodeAtPath (p ++ q) = (write.childCompoundWriteAtPath p).completeNodeAtPath q := by
  rw [childCompoundWriteAtPath_none missing, completeNodeAtPath, completeNodeAtPath,
    FImmutableTree.findRootMostValueAndPath_append (Option.map_eq_none_iff.mp missing), Option.map_map]
  refine Option.map_congr fun found _ => ?_
  rw [Function.comp, List.length_append, ← List.drop_drop, List.drop_left]

/-- Below a complete node every node is complete. -/
theorem hasCompleteWriteAtPath_below {write : FCompoundWrite K V} {p : List K} {complete : FNode K V}
    (found : write.completeNodeAtPath p = some complete) (q : List K) : write.hasCompleteWriteAtPath (p ++ q) = true := by
  obtain ⟨rootMost, search, _⟩ := Option.map_eq_some_iff.mp found
  obtain ⟨above, there⟩ := FImmutableTree.findRootMostValueAndPath_some search
  rw [hasCompleteWriteAtPath, completeNodeAtPath, Option.isSome_map]
  by_contra missing
  have none := FImmutableTree.findRootMostValueAndPath_none (Option.not_isSome_iff_eq_none.mp missing) (above.trans (List.prefix_append p q))
  rw [there] at none
  cases none

/-- The writes are applied one after the other. -/
theorem applySubtreeWrite_eq {tree : FImmutableTree K (FNode K V)} (valid : tree.Valid) (relativePath : List K) (node : FNode K V) :
    applySubtreeWrite tree relativePath node =
      tree.forEach.foldl (fun node w => node.updateChild (relativePath ++ w.1) w.2) node := by
  induction valid generalizing relativePath node with
  | value value => simp [applySubtreeWrite, FImmutableTree.forEach, FImmutableTree.forEachChild]
  | children distinct filled valid ih =>
    rename_i children
    simp only [applySubtreeWrite, FImmutableTree.forEach, Option.toList_none, List.map_nil, List.append_nil]
    clear distinct filled valid
    induction children generalizing node with
    | nil => rfl
    | cons c rest ihRest =>
      obtain ⟨childKey, childTree⟩ := c
      have first := ih ⟨childKey, childTree⟩ List.mem_cons_self
      have later := ihRest fun d member => ih d (List.mem_cons_of_mem _ member)
      rw [applyChildWrites, FImmutableTree.forEachChild, List.foldl_append, List.foldl_map, first, later]
      simp

end FCompoundWrite

/-! ## Compound writes and overlays -/

open FCompoundWrite

/-- The compound write is one form of the overlay. -/
structure Keeps (write : FCompoundWrite K V) (w : Overlay K V) : Prop where
  valid : write.writeTree.Valid
  toTree : ∀ path node, write.writeTree.valueAtPath path = some node → ∃ t, (path, t) ∈ w.leaves ∧ Represents node t
  toNode : ∀ path t, (path, t) ∈ w.leaves → ∃ node, write.writeTree.valueAtPath path = some node ∧ Represents node t

namespace Keeps
variable {write : FCompoundWrite K V} {w : Overlay K V}

theorem empty : Keeps (emptyWrite : FCompoundWrite K V) Tree.empty where
  valid := .empty
  toTree := by simp [emptyWrite]
  toNode := by simp [Tree.empty]

/-- Both have the same root-most leaf on a path. -/
theorem rootMost_some (keeps : Keeps write w) {path p : List K} {node : FNode K V}
    (found : write.writeTree.findRootMostValueAndPath path = some (p, node)) :
    p <+: path ∧ ∃ t, w.rootMost path = some (p, t) ∧ Represents node t := by
  obtain ⟨above, there⟩ := FImmutableTree.findRootMostValueAndPath_some found
  obtain ⟨t, member, represented⟩ := keeps.toTree p node there
  refine ⟨above, t, ?_, represented⟩
  cases search : w.rootMost path with
  | none => exact absurd above (Overlay.rootMost_none search member)
  | some c =>
    obtain ⟨other, r, rfl⟩ := Overlay.rootMost_some search
    rcases Overlay.same_or_apart other member with same | apart
    · rw [same]
    · rcases List.prefix_or_prefix_of_prefix (List.prefix_append c.1 r) above with h | h
      · exact absurd h apart.1
      · exact absurd h apart.2

theorem rootMost_none (keeps : Keeps write w) {path : List K}
    (missing : write.writeTree.findRootMostValueAndPath path = none) : w.rootMost path = none := by
  cases search : w.rootMost path with
  | none => rfl
  | some c =>
    obtain ⟨member, r, rfl⟩ := Overlay.rootMost_some search
    obtain ⟨node, there, _⟩ := keeps.toNode c.1 c.2 member
    rw [FImmutableTree.findRootMostValueAndPath_none missing (List.prefix_append c.1 r)] at there
    cases there

/-- One more write is one more write of the overlay. -/
theorem addWrite (keeps : Keeps write w) {node : FNode K V} {s : Tree K V} (represented : Represents node s) (path : List K) :
    Keeps (write.addWrite node path) (w.add path s) := by
  cases found : write.writeTree.findRootMostValueAndPath path with
  | none =>
    have missing := keeps.rootMost_none found
    have changed : ∀ q, (write.addWrite node path).writeTree.valueAtPath q =
        if path <+: q then (if q = path then some node else none) else write.writeTree.valueAtPath q := by
      intro q
      rw [addWrite_none node found, FImmutableTree.valueAtPath_setTree keeps.valid, FImmutableTree.valueAtPath_initWithValue]
      by_cases below : path <+: q
      · obtain ⟨r, rfl⟩ := below
        simp
      · rw [if_neg below, if_neg below]
    refine ⟨?_, ?_, ?_⟩
    · rw [addWrite_none node found]
      exact keeps.valid.setTree (.value node) found
    · intro q other there
      rw [changed] at there
      split at there
      · split at there
        · rename_i here
          cases there
          exact ⟨s, (Overlay.mem_add_none missing).mpr (.inl (by rw [here])), represented⟩
        · cases there
      · rename_i notBelow
        obtain ⟨t, member, same⟩ := keeps.toTree q other there
        have apart : Apart path q := ⟨notBelow, Overlay.rootMost_none missing member⟩
        exact ⟨t, (Overlay.mem_add_none missing).mpr (.inr ⟨member, apart⟩), same⟩
    · intro q t member
      rw [changed]
      rcases (Overlay.mem_add_none missing).mp member with here | ⟨member, apart⟩
      · cases here
        exact ⟨node, by simp, represented⟩
      · rw [if_neg apart.1]
        exact keeps.toNode q t member
  | some rootMost =>
    obtain ⟨p, value⟩ := rootMost
    obtain ⟨⟨r, rfl⟩, t, search, same⟩ := keeps.rootMost_some found
    have there := (FImmutableTree.findRootMostValueAndPath_some found).2
    have merged := same.updateChild r represented
    have changed : ∀ q, (write.addWrite node (p ++ r)).writeTree.valueAtPath q =
        if q = p then some (value.updateChild r node) else write.writeTree.valueAtPath q := by
      intro q
      rw [addWrite_some keeps.valid node found, FImmutableTree.valueAtPath_setValue, List.drop_left]
    refine ⟨?_, ?_, ?_⟩
    · rw [addWrite_some keeps.valid node found]
      exact keeps.valid.setValue there
    · intro q other atQ
      rw [changed] at atQ
      split at atQ
      · rename_i here
        cases atQ
        exact ⟨_, (Overlay.mem_add_some search).mpr (.inl (by rw [here])), merged⟩
      · rename_i different
        obtain ⟨u, member, sameOther⟩ := keeps.toTree q other atQ
        rcases Overlay.same_or_apart (Overlay.rootMost_some search).1 member with here | apart
        · exact absurd (congrArg Prod.fst here).symm different
        · exact ⟨u, (Overlay.mem_add_some search).mpr (.inr ⟨member, apart⟩), sameOther⟩
    · intro q u member
      rw [changed]
      rcases (Overlay.mem_add_some search).mp member with here | ⟨member, apart⟩
      · cases here
        exact ⟨_, if_pos rfl, merged⟩
      · rw [if_neg (by rintro rfl; exact apart.1 List.prefix_rfl)]
        exact keeps.toNode q u member

/-- Several writes, one after the other. -/
theorem addWrites (keeps : Keeps write w) {changes : List (List K × FNode K V)} {trees : Tree.Changes K V}
    (same : List.Forall₂ SameChange changes trees) :
    Keeps (changes.foldl (fun write c => write.addWrite c.2 c.1) write) (w.addAll trees) := by
  induction same generalizing write w with
  | nil => exact keeps
  | cons first rest ih =>
    obtain ⟨path, represented⟩ := first
    rw [List.foldl_cons, path]
    exact ih (keeps.addWrite represented _)

/-- A write that is removed goes with all below it; one above it stays. -/
theorem removeWriteAtPath (keeps : Keeps write w) (path : List K) : Keeps (write.removeWriteAtPath path) (w.put path Tree.empty) := by
  have removed : (write.removeWriteAtPath path).writeTree = write.writeTree.setTree .empty path := by
    cases path <;> rfl
  have left : ∀ q t, (q, t) ∈ (w.put path Tree.empty).leaves ↔ (q, t) ∈ w.leaves ∧ ¬ path <+: q := by
    intro q t
    rw [Tree.mem_put]
    simp [Tree.empty]
  constructor
  · rw [removed]
    exact keeps.valid.removeTree path
  · intro q node there
    rw [removed, FImmutableTree.valueAtPath_setTree keeps.valid, FImmutableTree.valueAtPath_empty] at there
    split at there
    · cases there
    · rename_i notBelow
      obtain ⟨t, member, represented⟩ := keeps.toTree q node there
      exact ⟨t, (left q t).mpr ⟨member, notBelow⟩, represented⟩
  · intro q t member
    obtain ⟨inOverlay, notBelow⟩ := (left q t).mp member
    rw [removed, FImmutableTree.valueAtPath_setTree keeps.valid, if_neg notBelow]
    exact keeps.toNode q t inOverlay

theorem removeWrites (keeps : Keeps write w) {changes : List (List K × FNode K V)} {trees : Tree.Changes K V}
    (same : List.Forall₂ SameChange changes trees) :
    Keeps (changes.foldl (fun write c => write.removeWriteAtPath c.1) write) (w.update (trees.map fun c => (c.1, Tree.empty))) := by
  induction same generalizing write w with
  | nil => exact keeps
  | cons first rest ih =>
    rw [List.foldl_cons, first.1]
    exact ih (keeps.removeWriteAtPath _)

/-- A compound write without writes is the only empty one. -/
theorem isEmpty (keeps : Keeps write w) : write.isEmpty = true ↔ w.leaves = [] := by
  constructor
  · intro none
    refine List.eq_nil_iff_forall_not_mem.mpr ?_
    rintro ⟨path, t⟩ member
    obtain ⟨node, there, _⟩ := keeps.toNode path t member
    rw [FImmutableTree.isEmpty_iff.mp none, FImmutableTree.valueAtPath_empty] at there
    cases there
  · intro none
    by_contra filled
    obtain ⟨path, node, there⟩ := keeps.valid.exists_value (Bool.eq_false_iff.mpr filled)
    obtain ⟨t, member, _⟩ := keeps.toTree path node there
    rw [none] at member
    cases member

/-- The writes that are applied are those of the overlay. -/
theorem exists_changes (keeps : Keeps write w) : ∃ trees : Tree.Changes K V,
    List.Forall₂ SameChange write.writeTree.forEach trees ∧ Tree.Independent trees ∧ ∀ c, c ∈ trees ↔ c ∈ w.leaves := by
  have each : ∀ c ∈ write.writeTree.forEach, ∃ t, w.at? c.1 = some t ∧ Represents c.2 t := by
    rintro ⟨path, node⟩ member
    obtain ⟨t, inOverlay, represented⟩ := keeps.toTree path node (keeps.valid.mem_forEach.mp member)
    exact ⟨t, Tree.at?_eq_some.mpr inOverlay, represented⟩
  refine ⟨write.writeTree.forEach.map fun c => (c.1, (w.at? c.1).getD Tree.empty), ?_, ?_, ?_⟩
  · rw [List.forall₂_map_right_iff, List.forall₂_same]
    intro c member
    obtain ⟨t, found, represented⟩ := each c member
    rw [found]
    exact ⟨rfl, represented⟩
  · exact List.pairwise_map.mpr keeps.valid.apart
  · rintro ⟨path, t⟩
    constructor
    · intro member
      obtain ⟨c, inTree, same⟩ := List.mem_map.mp member
      obtain ⟨u, found, _⟩ := each c inTree
      rw [found] at same
      cases same
      exact Tree.at?_eq_some.mp found
    · intro member
      obtain ⟨node, there, _⟩ := keeps.toNode path t member
      refine List.mem_map.mpr ⟨(path, node), keeps.valid.mem_forEach.mpr there, ?_⟩
      rw [Tree.at?_eq_some.mpr member, Option.getD_some]

/-- Applying the compound write to a node lays the overlay over its tree. -/
theorem applyToNode (keeps : Keeps write w) {node : FNode K V} {t : Tree K V} (represented : Represents node t) :
    Represents (write.applyToNode node) (t.overlay w) := by
  obtain ⟨trees, same, independent, members⟩ := keeps.exists_changes
  have changed := represented.update same
  have applied : write.applyToNode node = write.writeTree.forEach.foldl (fun node c => node.updateChild c.1 c.2) node :=
    applySubtreeWrite_eq keeps.valid [] node
  rw [applied]
  refine changed.congr ?_
  rintro ⟨q, value⟩
  rw [Tree.mem_update independent, Tree.mem_overlay]
  simp only [members]

/-- The part of a compound write below a path at or above which it has no node. -/
theorem subtreeAtPath (keeps : Keeps write w) (path : List K) :
    Keeps (⟨write.writeTree.subtreeAtPath path⟩ : FCompoundWrite K V) (w.sub path) where
  valid := keeps.valid.subtreeAtPath path
  toTree := by
    intro q node there
    rw [FImmutableTree.valueAtPath_subtreeAtPath] at there
    obtain ⟨t, member, represented⟩ := keeps.toTree _ node there
    exact ⟨t, Tree.mem_sub.mpr member, represented⟩
  toNode := by
    intro q t member
    rw [FImmutableTree.valueAtPath_subtreeAtPath]
    exact keeps.toNode _ t (Tree.mem_sub.mp member)

/-- A complete node is what the path holds, whatever the compound write is applied to. -/
theorem completeNodeAtPath (keeps : Keeps write w) {path : List K} {complete : FNode K V}
    (found : write.completeNodeAtPath path = some complete) (t : Tree K V) : Represents complete ((t.overlay w).sub path) := by
  obtain ⟨⟨p, node⟩, search, rfl⟩ := Option.map_eq_some_iff.mp found
  obtain ⟨⟨r, rfl⟩, s, atLeaf, represented⟩ := keeps.rootMost_some search
  rw [List.drop_left]
  refine (represented.getChild r).congr ?_
  rintro ⟨q, value⟩
  rw [Tree.mem_sub, Tree.mem_sub, Overlay.mem_overlay_below atLeaf]

/-- Without a complete node the part below the path makes the node there. -/
theorem childCompoundWriteAtPath (keeps : Keeps write w) {path : List K} (missing : write.completeNodeAtPath path = none) :
    Keeps (write.childCompoundWriteAtPath path) (w.sub path) ∧ ∀ t : Tree K V, ∀ l,
      l ∈ ((t.sub path).overlay (w.sub path)).leaves ↔ l ∈ ((t.overlay w).sub path).leaves := by
  have noneAbove := keeps.rootMost_none (Option.map_eq_none_iff.mp missing)
  rw [childCompoundWriteAtPath_none missing]
  exact ⟨keeps.subtreeAtPath path, fun t => Overlay.mem_overlay_sub noneAbove⟩

/-- Without a complete node, what the part below the path makes of the node there. -/
theorem applyBelow (keeps : Keeps write w) {server : FNode K V} {t : Tree K V} (represented : Represents server t) {path : List K}
    (missing : write.completeNodeAtPath path = none) :
    Represents ((write.childCompoundWriteAtPath path).applyToNode (server.getChild path)) ((t.overlay w).sub path) := by
  obtain ⟨below, same⟩ := keeps.childCompoundWriteAtPath missing
  exact (below.applyToNode (represented.getChild path)).congr (same t)

/-- Without writes at, above or below the path the node there is the server's. -/
theorem notShadowing (keeps : Keeps write w) {server : FNode K V} {t : Tree K V} (represented : Represents server t) {path : List K}
    (missing : write.completeNodeAtPath path = none) (noWrites : (write.childCompoundWriteAtPath path).isEmpty = true) :
    Represents (server.getChild path) ((t.overlay w).sub path) := by
  obtain ⟨below, same⟩ := keeps.childCompoundWriteAtPath missing
  refine (represented.getChild path).congr fun l => ?_
  rw [← same t l, Tree.overlay, below.isEmpty.mp noWrites]
  rfl

/-- The event cache at a path is what the visible writes make of the server's data there. -/
theorem completeEventCache (keeps : Keeps write w) {server : FNode K V} {t : Tree K V} (represented : Represents server t)
    (treePath : List K) : ∃ cache, write.completeEventCache treePath (some (server.getChild treePath)) = some cache ∧
      Represents cache ((t.overlay w).sub treePath) := by
  cases found : write.completeNodeAtPath treePath with
  | some shadowingNode => exact ⟨shadowingNode, by simp [FCompoundWrite.completeEventCache, found], keeps.completeNodeAtPath found t⟩
  | none =>
    by_cases noWrites : (write.childCompoundWriteAtPath treePath).isEmpty = true
    · exact ⟨_, by simp [FCompoundWrite.completeEventCache, found, noWrites], keeps.notShadowing represented found noWrites⟩
    · exact ⟨_, by simp [FCompoundWrite.completeEventCache, found, noWrites], keeps.applyBelow represented found⟩

/-- Without the server's data there is an event cache only where the writes cover the path. -/
theorem completeEventCache_none (keeps : Keeps write w) {treePath : List K} {cache : FNode K V}
    (complete : write.completeEventCache treePath none = some cache) : write.completeNodeAtPath treePath = some cache := by
  cases found : write.completeNodeAtPath treePath with
  | some shadowingNode => simpa [FCompoundWrite.completeEventCache, found] using complete
  | none =>
    obtain ⟨subMerge, _⟩ := keeps.childCompoundWriteAtPath found
    -- no node at the path itself, which would be complete
    have notRoot : (write.childCompoundWriteAtPath treePath).hasCompleteWriteAtPath [] = false := by
      by_contra there
      obtain ⟨node, root⟩ := Option.isSome_iff_exists.mp (Bool.not_eq_false _ ▸ there)
      obtain ⟨⟨p, value⟩, search, _⟩ := Option.map_eq_some_iff.mp root
      obtain ⟨above, t, atRoot, _⟩ := subMerge.rootMost_some search
      obtain ⟨member, _⟩ := Overlay.rootMost_some atRoot
      rw [List.prefix_nil.mp above, Tree.mem_sub, List.append_nil] at member
      exact Overlay.rootMost_none (keeps.rootMost_none (Option.map_eq_none_iff.mp found)) member List.prefix_rfl
    simp [FCompoundWrite.completeEventCache, found, notRoot] at complete

theorem isSome_completeEventCache_none (keeps : Keeps write w) {treePath : List K} :
    (write.completeEventCache treePath none).isSome = true ↔ ∃ c ∈ w.leaves, c.1 <+: treePath := by
  constructor
  · intro some
    obtain ⟨cache, made⟩ := Option.isSome_iff_exists.mp some
    obtain ⟨⟨p, node⟩, search, _⟩ := Option.map_eq_some_iff.mp (keeps.completeEventCache_none made)
    obtain ⟨above, s, atLeaf, _⟩ := keeps.rootMost_some search
    exact ⟨_, (Overlay.rootMost_some atLeaf).1, above⟩
  · rintro ⟨c, member, above⟩
    cases found : write.completeNodeAtPath treePath with
    | some shadowingNode => simp [FCompoundWrite.completeEventCache, found]
    | none => exact absurd above (Overlay.rootMost_none (keeps.rootMost_none (Option.map_eq_none_iff.mp found)) member)

end Keeps

/-! ## Runs of writes -/

/-- The compound write of several writes, one after the other. -/
def compoundWrite (writes : List (List K × FNode K V)) : FCompoundWrite K V :=
  writes.foldl (fun write c => write.addWrite c.2 c.1) emptyWrite

/-- A write that removes nothing, or at a path that is not below a leaf of the node. -/
def Uncovered (node : FNode K V) (c : List K × FNode K V) : Prop :=
  c.2.isEmpty = true → ∀ q, node.valueAt q ≠ none → q <+: c.1 → c.1 <+: q

instance [DecidableEq V] (node : FNode K V) (c : List K × FNode K V) : Decidable (Uncovered node c) :=
  decidable_of_iff (c.2.isEmpty = true → ∀ q ∈ c.1.inits, node.valueAt q ≠ none → c.1 <+: q) <| by
    simp only [List.mem_inits]
    exact imp_congr_right fun _ => forall_congr' fun q => ⟨fun h there above => h above there, fun h above there => h there above⟩

/-- What holds of a node and of a write holds of their trees. -/
theorem Uncovered.tree {node : FNode K V} {t : Tree K V} (represented : Represents node t) {c : List K × FNode K V}
    {d : List K × Tree K V} (same : SameChange c d) (uncovered : Uncovered node c) : t.Uncovered d.1 d.2 := by
  obtain ⟨path, representedNew⟩ := same
  intro removed l inTree above
  rw [← path] at above ⊢
  refine uncovered (representedNew.isEmpty.mpr removed) l.1 ?_ above
  rw [represented.mem.mp inTree]
  exact Option.some_ne_none _

namespace Sample

/-- The server knows the list `party`. -/
def server : FNode String String := FNode.emptyNode.updateChild ["lists", "party"] (.leafNode "Party")

/-- A list is made, gets another title and is removed, and another one is made. -/
def pending : List (List String × FNode String String) :=
  [(["lists", "groceries", "title"], .leafNode "Groceries"), (["lists", "groceries"], .emptyNode), (["lists", "trip"], .leafNode "Trip")]

/-- A write below a leaf, and one that takes it back. -/
def belowLeaf : List (List String × FNode String String) := [(["title"], .leafNode "Groceries"), (["title"], .emptyNode)]

theorem server_valid : server.Valid := .updateChild .empty _ (.leaf _)

theorem pending_valid : ∀ c ∈ pending, c.2.Valid := by
  simp [pending, FNode.Valid.leaf, FNode.Valid.empty]

end Sample

/-- A leaf that a write below it has replaced comes back when this write is forgotten. -/
example : (compoundWrite Sample.belowLeaf).applyToNode (.leafNode "Groceries") = .leafNode "Groceries" ∧
    (Sample.belowLeaf.foldl (fun node c => node.updateChild c.1 c.2) (.leafNode "Groceries" : FNode String String)).isEmpty = true := ⟨rfl, rfl⟩

/-- The overlay of several writes has a leaf at or above a path where one of them is made there. -/
theorem covered_iff {writes : List (List K × FNode K V)} {trees : Tree.Changes K V} (same : List.Forall₂ SameChange writes trees)
    (path : List K) : (∃ c ∈ (Overlay.addAll Tree.empty trees).leaves, c.1 <+: path) ↔ ∃ c ∈ writes, c.1 <+: path := by
  have written : (∃ c ∈ writes, c.1 <+: path) ↔ ∃ d ∈ trees, d.1 <+: path := by
    induction same with
    | nil => simp
    | cons one _ ih => rw [List.exists_mem_cons_iff, List.exists_mem_cons_iff, one.1, ih]
  have layers : Overlay.Layers (Overlay.addAll Tree.empty trees) trees := by simpa using Overlay.Layers.empty.addAll trees
  rw [written]
  constructor
  · rintro ⟨⟨p, t⟩, member, above⟩
    obtain ⟨⟨s, inTrees⟩, _⟩ := (layers.top p).mpr ⟨t, member⟩
    exact ⟨(p, s), inTrees, above⟩
  · rintro ⟨d, inTrees, above⟩
    obtain ⟨p, further, topMost⟩ := Overlay.exists_topMost inTrees
    obtain ⟨t, member⟩ := (layers.top p).mp topMost
    exact ⟨(p, t), member, further.trans above⟩

end SharedList.CompoundWrites
