import SharedList.WriteTrees

/-!
The other caches that `FWriteTree` calculates, each from no more of the server's data than it needs: what an overwrite
by the server changes, one complete child, and the complete children. All are parts of one node, the
server's data with the pending writes made one after the other.
-/
namespace SharedList.EventCaches
open SnapshotNodes CompoundWrites WriteTrees
universe u v
variable {K : Type u} {V : Type v} [DecidableEq K]

structure FCacheNode (K : Type u) (V : Type v) where
  node : FNode K V
  isFullyInitialized : Bool
  isFiltered : Bool

def FCacheNode.isCompleteForChild (cache : FCacheNode K V) (childKey : K) : Bool :=
  (cache.isFullyInitialized && !cache.isFiltered) || !(cache.node.getImmediateChild childKey).isEmpty

/-- `calculateEventCacheAfterServerOverwriteAtPath:childPath:existingEventSnap:existingServerSnap:`, with `none` outside
where the assertion fails. -/
def calculateEventCacheAfterServerOverwriteAtPath (tree : FWriteTree K V) (treePath childPath : List K)
    (existingEventSnap existingServerSnap : Option (FNode K V)) : Option (Option (FNode K V)) :=
  if existingEventSnap.isSome || existingServerSnap.isSome then
    let path := treePath ++ childPath
    if tree.visibleWrites.hasCompleteWriteAtPath path then some none
    else
      let childMerge := tree.visibleWrites.childCompoundWriteAtPath path
      if childMerge.isEmpty then some (existingServerSnap.map fun snap => snap.getChild childPath)
      else some (existingServerSnap.map fun snap => childMerge.applyToNode (snap.getChild childPath))
  else none

/-- `calculateCompleteChildAtPath:childKey:cache:` -/
def calculateCompleteChildAtPath (tree : FWriteTree K V) (treePath : List K) (childKey : K) (existingServerCache : FCacheNode K V) :
    Option (FNode K V) :=
  let path := treePath ++ [childKey]
  match tree.visibleWrites.completeNodeAtPath path with
  | some shadowingNode => some shadowingNode
  | none =>
    if existingServerCache.isCompleteForChild childKey then
      some ((tree.visibleWrites.childCompoundWriteAtPath path).applyToNode (existingServerCache.node.getImmediateChild childKey))
    else none

/-- `calculateCompleteEventChildrenAtPath:completeServerChildren:` -/
def calculateCompleteEventChildrenAtPath (tree : FWriteTree K V) (treePath : List K) (completeServerChildren : FNode K V) : FNode K V :=
  match tree.visibleWrites.completeNodeAtPath treePath with
  | some topLevelSet =>
    topLevelSet.enumerateChildren.foldl (fun completeChildren c => completeChildren.updateImmediateChild c.1 c.2) .emptyNode
  | none =>
    let merge := tree.visibleWrites.childCompoundWriteAtPath treePath
    let layered := completeServerChildren.enumerateChildren.foldl (fun completeChildren c =>
      completeChildren.updateImmediateChild c.1 ((merge.childCompoundWriteAtPath [c.1]).applyToNode c.2)) .emptyNode
    merge.completeChildren.foldl (fun completeChildren c => completeChildren.updateImmediateChild c.1 c.2) layered

/-- A cache of the server's data at a path: what it has for complete is what the server has there. -/
def Caches (cache : FCacheNode K V) (served : FNode K V) : Prop :=
  ∀ k, cache.isCompleteForChild k = true → cache.node.getImmediateChild k = served.getImmediateChild k

/-! ## An overwrite by the server -/

section
variable {tree : FWriteTree K V} {server : FNode K V} {t : Tree K V} {w : Overlay K V}

/-- What is to be put at the path of the overwrite. -/
theorem afterServerOverwrite_some (keeps : Keeps tree.visibleWrites w) (represented : Represents server t) {treePath childPath : List K}
    {eventSnap : Option (FNode K V)} {node : FNode K V}
    (calculated : calculateEventCacheAfterServerOverwriteAtPath tree treePath childPath eventSnap (some (server.getChild treePath)) = some (some node)) :
    Represents node ((t.overlay w).sub (treePath ++ childPath)) := by
  simp only [calculateEventCacheAfterServerOverwriteAtPath, Option.isSome_some, Bool.or_true, if_true, Option.map_some,
    ← FNode.getChild_append] at calculated
  cases found : tree.visibleWrites.completeNodeAtPath (treePath ++ childPath) with
  | some shadowingNode => simp [FCompoundWrite.hasCompleteWriteAtPath, found] at calculated
  | none =>
    simp only [FCompoundWrite.hasCompleteWriteAtPath, found, Option.isSome_none, Bool.false_eq_true, if_false] at calculated
    split at calculated
    · rename_i noWrites
      cases calculated
      exact keeps.notShadowing represented found noWrites
    · cases calculated
      exact keeps.applyBelow represented found

/-- Where nothing is to be put, the server's data does not matter. -/
theorem afterServerOverwrite_none (keeps : Keeps tree.visibleWrites w) {treePath childPath : List K} {eventSnap serverSnap : Option (FNode K V)}
    (calculated : calculateEventCacheAfterServerOverwriteAtPath tree treePath childPath eventSnap serverSnap = some none)
    (given : serverSnap.isSome = true) (t t' : Tree K V) (l : List K × V) :
    l ∈ ((t.overlay w).sub (treePath ++ childPath)).leaves ↔ l ∈ ((t'.overlay w).sub (treePath ++ childPath)).leaves := by
  obtain ⟨snap, rfl⟩ := Option.isSome_iff_exists.mp given
  cases found : tree.visibleWrites.completeNodeAtPath (treePath ++ childPath) with
  | none =>
    simp only [calculateEventCacheAfterServerOverwriteAtPath, FCompoundWrite.hasCompleteWriteAtPath, found, Option.isSome_none,
      Option.isSome_some, Bool.or_true, if_true, Bool.false_eq_true, if_false, Option.map_some] at calculated
    split at calculated <;> cases calculated
  | some shadowingNode =>
    obtain ⟨q, value⟩ := l
    rw [(keeps.completeNodeAtPath found t).mem, (keeps.completeNodeAtPath found t').mem]

/-! ## One complete child -/

theorem completeChild_some (keeps : Keeps tree.visibleWrites w) (represented : Represents server t) {treePath : List K} {childKey : K}
    {cache : FCacheNode K V} (caches : Caches cache (server.getChild treePath)) {node : FNode K V}
    (calculated : calculateCompleteChildAtPath tree treePath childKey cache = some node) :
    Represents node ((t.overlay w).sub (treePath ++ [childKey])) := by
  unfold calculateCompleteChildAtPath at calculated
  cases found : tree.visibleWrites.completeNodeAtPath (treePath ++ [childKey]) with
  | some shadowingNode =>
    simp only [found] at calculated
    cases calculated
    exact keeps.completeNodeAtPath found t
  | none =>
    simp only [found] at calculated
    split at calculated
    · rename_i complete
      cases calculated
      have child : cache.node.getImmediateChild childKey = server.getChild (treePath ++ [childKey]) := by
        rw [caches childKey complete, FNode.getChild_append, FNode.getChild_cons]
        rfl
      rw [child]
      exact keeps.applyBelow represented found
    · cases calculated

theorem completeChild_none {treePath : List K} {childKey : K} {cache : FCacheNode K V}
    (calculated : calculateCompleteChildAtPath tree treePath childKey cache = none) : cache.isCompleteForChild childKey = false := by
  unfold calculateCompleteChildAtPath at calculated
  dsimp only at calculated
  split at calculated
  · cases calculated
  · split at calculated
    · cases calculated
    · rename_i incomplete
      exact Bool.eq_false_iff.mpr incomplete

/-! ## The complete children -/

/-- Children that are set one after the other. -/
theorem setChildren {f : K → FNode K V} {children : List (Sigma fun _ : K => FNode K V)} (nodes : ∀ c ∈ children, c.2 = f c.1 ∧ c.2.Valid) {base : FNode K V} (valid : base.Valid) :
    (children.foldl (fun node c => node.updateImmediateChild c.1 c.2) base).Valid ∧
    ∀ k, (children.foldl (fun node c => node.updateImmediateChild c.1 c.2) base).getImmediateChild k =
      if k ∈ children.keys then f k else base.getImmediateChild k := by
  induction children generalizing base with
  | nil => simp [valid]
  | cons c rest ih =>
    obtain ⟨⟨node, validNode⟩, nodesRest⟩ := List.forall_mem_cons.mp nodes
    obtain ⟨stays, read⟩ := ih nodesRest (valid.updateImmediateChild c.1 validNode)
    refine ⟨stays, fun k => ?_⟩
    rw [List.foldl_cons, read, FNode.getImmediateChild_updateImmediateChild valid]
    simp only [List.keys_cons, List.mem_cons]
    by_cases here : k = c.1
    · subst here
      rw [Function.update_self, node]
      simp
    · rw [Function.update_of_ne here]
      simp [here]

theorem enumerateChildren_eq {node : FNode K V} (valid : node.Valid) {c : Sigma fun _ : K => FNode K V} (member : c ∈ node.enumerateChildren) :
    c.2 = node.getImmediateChild c.1 ∧ c.2.Valid := by
  cases valid with
  | leaf value => cases member
  | children distinct filled valid =>
    refine ⟨?_, valid c member⟩
    rw [FNode.getImmediateChild, List.mem_dlookup distinct member]
    rfl

theorem mem_keys_enumerateChildren {node : FNode K V} (valid : node.Valid) {k : K} :
    k ∈ node.enumerateChildren.keys ↔ (node.getImmediateChild k).isEmpty = false := by
  cases valid with
  | leaf value => simp [FNode.enumerateChildren, FNode.getImmediateChild, FNode.isEmpty, FNode.emptyNode]
  | children distinct filled valid => exact (FNode.Valid.children distinct filled valid).mem_keys

/-- A child that is overwritten as a whole is what the path to it alone has. -/
theorem mem_completeChildren {merge : FCompoundWrite K V} (valid : merge.writeTree.Valid) (notRoot : merge.completeNodeAtPath [] = none)
    {c : Sigma fun _ : K => FNode K V} : c ∈ merge.completeChildren ↔ merge.completeNodeAtPath [c.1] = some c.2 := by
  obtain ⟨k, node⟩ := c
  obtain ⟨tree⟩ := merge
  cases valid with
  | value value => cases notRoot
  | children distinct filled valid =>
    rename_i children
    have atChild : (⟨.node none children⟩ : FCompoundWrite K V).completeNodeAtPath [k] =
        ((FImmutableTree.node none children).child k).value := by
      unfold FCompoundWrite.completeNodeAtPath
      rw [FImmutableTree.findRootMostValueAndPath]
      cases (FImmutableTree.node none children).child k with
      | node value grandchildren => cases value <;> rfl
    rw [atChild]
    simp only [FCompoundWrite.completeChildren, List.mem_filterMap, Option.map_eq_some_iff]
    constructor
    · rintro ⟨c, member, value, isValue, same⟩
      cases same
      rw [FImmutableTree.child, List.mem_dlookup distinct member]
      exact isValue
    · intro isValue
      cases found : children.dlookup k with
      | none =>
        rw [FImmutableTree.child, found] at isValue
        cases isValue
      | some tree =>
        rw [FImmutableTree.child, found] at isValue
        exact ⟨⟨k, tree⟩, List.of_mem_dlookup found, node, isValue, rfl⟩

/-- What the part of the visible writes at a path makes of a child that is known there. -/
theorem known_child (keeps : Keeps tree.visibleWrites w) (represented : Represents server t) {treePath : List K}
    {cache : FCacheNode K V} (caches : Caches cache (server.getChild treePath)) (missing : tree.visibleWrites.completeNodeAtPath treePath = none)
    {k : K} (known : (cache.node.getImmediateChild k).isEmpty = false ∨ tree.visibleWrites.hasCompleteWriteAtPath (treePath ++ [k]) = true) :
    Represents (((tree.visibleWrites.childCompoundWriteAtPath treePath).childCompoundWriteAtPath [k]).applyToNode
      (cache.node.getImmediateChild k)) ((t.overlay w).sub (treePath ++ [k])) := by
  obtain ⟨merge, localWhole⟩ := keeps.childCompoundWriteAtPath missing
  have whole : ∀ l, l ∈ (((t.sub treePath).overlay (w.sub treePath)).sub [k]).leaves ↔ l ∈ ((t.overlay w).sub (treePath ++ [k])).leaves := by
    rintro ⟨q, value⟩
    rw [← Tree.sub_sub, Tree.mem_sub, localWhole t, ← Tree.mem_sub]
  cases complete : (tree.visibleWrites.childCompoundWriteAtPath treePath).completeNodeAtPath [k] with
  | some node =>
    rw [FCompoundWrite.applyToNode_complete complete]
    exact (merge.completeNodeAtPath complete _).congr whole
  | none =>
    have filled : (cache.node.getImmediateChild k).isEmpty = false := by
      refine known.resolve_right ?_
      rw [FCompoundWrite.hasCompleteWriteAtPath, FCompoundWrite.completeNodeAtPath_append missing, complete]
      simp
    have child : cache.node.getImmediateChild k = (server.getChild treePath).getChild [k] := by
      rw [caches k (by simp [FCacheNode.isCompleteForChild, filled]), FNode.getChild_cons]
      rfl
    rw [child]
    exact (merge.applyBelow (represented.getChild treePath) complete).congr whole

/-- The children that are known, from the server or because they are overwritten as a whole, and no others. -/
theorem completeEventChildren (keeps : Keeps tree.visibleWrites w) (represented : Represents server t) {treePath : List K}
    {cache : FCacheNode K V} (valid : cache.node.Valid) (caches : Caches cache (server.getChild treePath)) (k : K) :
    let children := calculateCompleteEventChildrenAtPath tree treePath cache.node
    ((cache.node.getImmediateChild k).isEmpty = false ∨ tree.visibleWrites.hasCompleteWriteAtPath (treePath ++ [k]) = true →
      Represents (children.getImmediateChild k) ((t.overlay w).sub (treePath ++ [k]))) ∧
    ((cache.node.getImmediateChild k).isEmpty = true → tree.visibleWrites.hasCompleteWriteAtPath (treePath ++ [k]) = false →
      children.getImmediateChild k = .emptyNode) := by
  intro children
  cases found : tree.visibleWrites.completeNodeAtPath treePath with
  | some topLevelSet =>
    have whole := keeps.completeNodeAtPath found t
    have set := setChildren (fun c member => enumerateChildren_eq whole.valid member) FNode.Valid.empty
    have same : children.getImmediateChild k = topLevelSet.getChild [k] := by
      have made : children = topLevelSet.enumerateChildren.foldl (fun node c => node.updateImmediateChild c.1 c.2) .emptyNode := by
        simp only [children, calculateCompleteEventChildrenAtPath, found]
      rw [made, set.2 k, FNode.getChild_cons]
      split
      · rfl
      · rename_i notThere
        rw [mem_keys_enumerateChildren whole.valid, Bool.not_eq_false] at notThere
        exact (FNode.isEmpty_iff.mp notThere).symm
    constructor
    · intro _
      rw [same, ← Tree.sub_sub]
      exact whole.getChild [k]
    · intro _ incomplete
      rw [FCompoundWrite.hasCompleteWriteAtPath_below found] at incomplete
      cases incomplete
  | none =>
    have merge := (keeps.childCompoundWriteAtPath found).1
    -- the child of a key, wherever it comes from
    let child (k : K) := ((tree.visibleWrites.childCompoundWriteAtPath treePath).childCompoundWriteAtPath [k]).applyToNode
      (cache.node.getImmediateChild k)
    have known : ∀ k, (cache.node.getImmediateChild k).isEmpty = false ∨ tree.visibleWrites.hasCompleteWriteAtPath (treePath ++ [k]) = true →
        Represents (child k) ((t.overlay w).sub (treePath ++ [k])) := fun k => known_child keeps represented caches found
    let served := cache.node.enumerateChildren.map fun c => (⟨c.1, child c.1⟩ : Sigma fun _ : K => FNode K V)
    let overwritten := (tree.visibleWrites.childCompoundWriteAtPath treePath).completeChildren
    have made : children = overwritten.foldl (fun node c => node.updateImmediateChild c.1 c.2)
        (served.foldl (fun node c => node.updateImmediateChild c.1 c.2) FNode.emptyNode) := by
      simp only [children, calculateCompleteEventChildrenAtPath, found, overwritten, served, List.foldl_map]
      refine congrArg (fun layered : FNode K V => List.foldl _ layered _) (List.foldl_ext _ _ _ fun node c member => ?_)
      rw [(enumerateChildren_eq valid member).1]
    have complete : ∀ k node, (⟨k, node⟩ : Sigma fun _ : K => FNode K V) ∈ overwritten ↔
        tree.visibleWrites.completeNodeAtPath (treePath ++ [k]) = some node := by
      intro k node
      have notRoot : (tree.visibleWrites.childCompoundWriteAtPath treePath).completeNodeAtPath [] = none := by
        rw [← FCompoundWrite.completeNodeAtPath_append found, List.append_nil]
        exact found
      rw [mem_completeChildren merge.valid notRoot, FCompoundWrite.completeNodeAtPath_append found]
    have inServed : ∀ k, k ∈ served.keys ↔ (cache.node.getImmediateChild k).isEmpty = false := by
      intro k
      have sameKeys : served.keys = cache.node.enumerateChildren.keys := by
        simp [served, List.keys, Function.comp_def]
      rw [← mem_keys_enumerateChildren valid, sameKeys]
    have inOverwritten : ∀ k, k ∈ overwritten.keys ↔ tree.visibleWrites.hasCompleteWriteAtPath (treePath ++ [k]) = true := by
      intro k
      rw [FCompoundWrite.hasCompleteWriteAtPath, Option.isSome_iff_exists, List.mem_keys]
      exact exists_congr fun node => complete k node
    have servedNodes : ∀ c ∈ served, c.2 = child c.1 ∧ c.2.Valid := by
      intro c member
      obtain ⟨d, inCache, rfl⟩ := List.mem_map.mp member
      exact ⟨rfl, (known d.1 (.inl ((mem_keys_enumerateChildren valid).mp (List.mem_map_of_mem inCache)))).valid⟩
    have overwrittenNodes : ∀ c ∈ overwritten, c.2 = child c.1 ∧ c.2.Valid := by
      rintro ⟨j, node⟩ member
      have overwrites := (complete j node).mp member
      refine ⟨?_, (keeps.completeNodeAtPath overwrites t).valid⟩
      rw [FCompoundWrite.completeNodeAtPath_append found] at overwrites
      exact (FCompoundWrite.applyToNode_complete overwrites _).symm
    have setServed := setChildren servedNodes .empty
    have setOverwritten := setChildren overwrittenNodes setServed.1
    rw [made, setOverwritten.2 k, setServed.2 k]
    simp only [inOverwritten, inServed]
    constructor
    · intro isKnown
      have read : ∀ other : FNode K V, (if tree.visibleWrites.hasCompleteWriteAtPath (treePath ++ [k]) = true then child k
          else if (cache.node.getImmediateChild k).isEmpty = false then child k else other) = child k := by
        intro other
        rcases isKnown with here | here <;> simp [here]
      rw [read]
      exact known k isKnown
    · intro notServed incomplete
      rw [if_neg (by simp [incomplete]), if_neg (by simp [notServed])]
      rfl

end

end SharedList.EventCaches
