import SharedList.Keyed
import SharedList.Observers

/-!
`ObserversHandler` alone at its path. `foo` remembers a handle for every event
type that was ever added, and nothing is taken out of it: an observer that has
been removed counts as there, so adding it again registers nothing.
-/
namespace SharedList.Observers.Handler

/-- One handler, the registry, and what has been called so far. -/
structure State where
  handler : ObserversHandler
  registry : Registry
  /-- `AddObserver` has been called for the type. -/
  added : DataEventType → Bool
  /-- The last call that concerns the type was `AddObserver`. -/
  wanted : DataEventType → Bool

inductive Action where
  | addObserver (eventType : DataEventType)
  | removeObserver (eventType : DataEventType)
  | removeAllObservers
  /-- What other objects do at other paths. -/
  | elsewhereObserve (dbRef : FrbUtils.Reference) (type : DataEventType) (owner : Owner)
  | elsewhereRemoveObserver (dbRef : FrbUtils.Reference) (handle : Nat)
  | elsewhereRemoveAllObservers (dbRef : FrbUtils.Reference)

/-- The object number of the handler. -/
abbrev self : Nat := 0

def start (dbRef : FrbUtils.Reference) (registry : Registry) : State :=
  ⟨⟨dbRef, []⟩, registry, fun _ => false, fun _ => false⟩

def step (s : State) : Action → Option State
  | .addObserver eventType =>
    let (handler, registry) := s.handler.addObserver self eventType s.registry
    some ⟨handler, registry, Function.update s.added eventType true, Function.update s.wanted eventType true⟩
  | .removeObserver eventType =>
    some { s with registry := s.handler.removeObserver eventType s.registry,
                  wanted := Function.update s.wanted eventType false }
  | .removeAllObservers =>
    some { s with registry := s.handler.removeAllObservers s.registry, wanted := fun _ => false }
  | .elsewhereObserve dbRef type owner =>
    if dbRef ≠ s.handler.dbRef then some { s with registry := s.registry.observe dbRef type owner } else none
  | .elsewhereRemoveObserver dbRef handle =>
    if dbRef ≠ s.handler.dbRef then some { s with registry := s.registry.removeObserver dbRef handle } else none
  | .elsewhereRemoveAllObservers dbRef =>
    if dbRef ≠ s.handler.dbRef then some { s with registry := s.registry.removeAllObservers dbRef } else none

/-- The registrations at a path. -/
def atPath (dbRef : FrbUtils.Reference) (registry : Registry) : List Registration :=
  registry.registrations.filter (fun r => r.path = dbRef)

/-- An event type has one registration when it was added last, and none otherwise. -/
def Matches (s : State) : Prop :=
  ∀ type, ((atPath s.handler.dbRef s.registry).map Registration.type).count type = if s.wanted type then 1 else 0

/-- No event type is added that was added before and has been removed since. -/
def NotAgain (s : State) : Action → Prop
  | .addObserver eventType => s.added eventType = true → s.wanted eventType = true
  | _ => True

/-! ## The registry at the handler's path -/

theorem atPath_observe (dbRef : FrbUtils.Reference) (registry : Registry) (type : DataEventType) (owner : Owner) :
    atPath dbRef (registry.observe dbRef type owner) = atPath dbRef registry ++ [⟨dbRef, registry.nextHandle, type, owner⟩] := by
  simp [atPath, Registry.observe]

theorem atPath_removeObserver (dbRef : FrbUtils.Reference) (registry : Registry) (handle : Nat) :
    atPath dbRef (registry.removeObserver dbRef handle) = (atPath dbRef registry).filter (fun r => r.handle ≠ handle) := by
  simp only [atPath, Registry.removeObserver, List.filter_filter]
  refine List.filter_congr fun r _ => ?_
  by_cases here : r.path = dbRef
  · simp [here]
  · simp [here]

theorem atPath_removeAllObservers (dbRef : FrbUtils.Reference) (registry : Registry) :
    atPath dbRef (registry.removeAllObservers dbRef) = [] := by
  simp [atPath, Registry.removeAllObservers]

/-- What happens at another path is not seen. -/
theorem atPath_elsewhere {dbRef other : FrbUtils.Reference} (elsewhere : other ≠ dbRef) (registry : Registry) :
    (∀ type owner, atPath dbRef (registry.observe other type owner) = atPath dbRef registry) ∧
      (∀ handle, atPath dbRef (registry.removeObserver other handle) = atPath dbRef registry) ∧
      atPath dbRef (registry.removeAllObservers other) = atPath dbRef registry := by
  refine ⟨?_, ?_, ?_⟩
  · intro type owner
    simp [atPath, Registry.observe, elsewhere]
  · intro handle
    simp only [atPath, Registry.removeObserver, List.filter_filter]
    refine List.filter_congr fun r _ => ?_
    by_cases here : r.path = dbRef
    · simp [here, Ne.symm elsewhere]
    · simp [here]
  · simp only [atPath, Registry.removeAllObservers, List.filter_filter]
    refine List.filter_congr fun r _ => ?_
    by_cases here : r.path = dbRef
    · simp [here, Ne.symm elsewhere]
    · simp [here]

/-! ## Runs -/

/-- The registration that an entry of `foo` stands for. -/
def registration (dbRef : FrbUtils.Reference) (entry : DataEventType × Nat) : Registration :=
  ⟨dbRef, entry.2, entry.1, .object self⟩

/-- The registrations at the path are those of the wanted entries of `foo`, in order. -/
structure Kept (s : State) : Prop where
  own : atPath s.handler.dbRef s.registry =
    (s.handler.foo.filter (fun entry => s.wanted entry.1)).map (registration s.handler.dbRef)
  types : (s.handler.foo.map Prod.fst).Nodup
  handles : (s.handler.foo.map Prod.snd).Nodup
  used : ∀ entry ∈ s.handler.foo, entry.2 < s.registry.nextHandle
  known : ∀ type, s.added type = true ↔ type ∈ s.handler.foo.map Prod.fst
  once : ∀ type, s.wanted type = true → s.added type = true

theorem Kept.types_eq {s : State} (kept : Kept s) : (atPath s.handler.dbRef s.registry).map Registration.type =
    (s.handler.foo.filter (fun entry => s.wanted entry.1)).map Prod.fst := by
  rw [kept.own, List.map_map]
  rfl

theorem Kept.agrees {s : State} (kept : Kept s) : Matches s := by
  intro type
  have distinct : ((s.handler.foo.filter (fun entry => s.wanted entry.1)).map Prod.fst).Nodup :=
    kept.types.sublist (List.filter_sublist.map Prod.fst)
  rw [kept.types_eq, distinct.count]
  refine if_congr ?_ rfl rfl
  constructor
  · intro member
    obtain ⟨entry, listed, rfl⟩ := List.mem_map.mp member
    exact (List.mem_filter.mp listed).2
  · intro wanted
    obtain ⟨entry, listed, rfl⟩ := List.mem_map.mp ((kept.known type).mp (kept.once type wanted))
    exact List.mem_map.mpr ⟨entry, List.mem_filter.mpr ⟨listed, wanted⟩, rfl⟩

theorem start_kept {dbRef : FrbUtils.Reference} {registry : Registry} (free : atPath dbRef registry = []) :
    Kept (start dbRef registry) where
  own := free
  types := List.nodup_nil
  handles := List.nodup_nil
  used := by simp [start]
  known := by simp [start]
  once := by simp [start]

theorem findHandler_none {handler : ObserversHandler} {type : DataEventType} :
    handler.findHandler type = none ↔ type ∉ handler.foo.map Prod.fst := @Keyed.lookup_eq_none _ _ _ Prod.fst _ _

/-- Whether a type is wanted does not matter for entries of other types. -/
theorem filter_update {foo : List (DataEventType × Nat)} {type : DataEventType} (absent : type ∉ foo.map Prod.fst)
    (wanted : DataEventType → Bool) (value : Bool) :
    foo.filter (fun entry => Function.update wanted type value entry.1) = foo.filter (fun entry => wanted entry.1) := by
  refine List.filter_congr fun entry member => ?_
  have other : entry.1 ≠ type := fun same => absent (List.mem_map.mpr ⟨entry, member, same⟩)
  rw [Function.update_of_ne other]

theorem Kept.addObserver {s t : State} (kept : Kept s) {type : DataEventType} (notAgain : NotAgain s (.addObserver type))
    (stepped : step s (.addObserver type) = some t) : Kept t := by
  simp only [step, ObserversHandler.addObserver, Option.some.injEq] at stepped
  cases found : s.handler.findHandler type with
  | some entry =>
    simp only [found] at stepped
    subst stepped
    have here : type ∈ s.handler.foo.map Prod.fst := by
      by_contra absent
      rw [findHandler_none.mpr absent] at found
      cases found
    have added := (kept.known type).mpr here
    -- The type has been added and not removed since, so nothing is to do.
    have same : Function.update s.wanted type true = s.wanted := Function.update_eq_self_iff.mpr (notAgain added).symm
    have known : Function.update s.added type true = s.added := Function.update_eq_self_iff.mpr added.symm
    rw [same, known]
    exact kept
  | none =>
    simp only [found] at stepped
    subst stepped
    have absent := findHandler_none.mp found
    refine ⟨?_, ?_, ?_, ?_, ?_, ?_⟩
    · simp only [atPath_observe, kept.own, List.filter_append, filter_update absent, List.map_append]
      simp [registration]
    · rw [List.map_append]
      refine kept.types.append (List.nodup_singleton _) ?_
      simpa [List.disjoint_singleton] using absent
    · rw [List.map_append]
      refine kept.handles.append (List.nodup_singleton _) ?_
      intro handle old new
      obtain ⟨entry, member, rfl⟩ := List.mem_map.mp old
      have early := kept.used entry member
      simp at new
      omega
    · intro entry member
      rcases List.mem_append.mp member with old | new
      · exact Nat.lt_succ_of_lt (kept.used entry old)
      · rw [List.mem_singleton.mp new]
        exact Nat.lt_succ_self _
    · intro other
      by_cases same : other = type
      · subst same
        simp
      · simp [same, kept.known other]
    · intro other wanted
      by_cases same : other = type
      · subst same
        simp
      · simp only [Function.update_of_ne same] at wanted ⊢
        exact kept.once other wanted

theorem Kept.removeObserver {s t : State} (kept : Kept s) {type : DataEventType}
    (stepped : step s (.removeObserver type) = some t) : Kept t := by
  simp only [step, ObserversHandler.removeObserver, Option.some.injEq] at stepped
  have once : ∀ other, Function.update s.wanted type false other = true → s.added other = true := by
    intro other wanted
    by_cases same : other = type
    · subst same
      simp at wanted
    · rw [Function.update_of_ne same] at wanted
      exact kept.once other wanted
  cases found : s.handler.findHandler type with
  | none =>
    simp only [found] at stepped
    subst stepped
    refine ⟨?_, kept.types, kept.handles, kept.used, kept.known, once⟩
    rw [filter_update (findHandler_none.mp found)]
    exact kept.own
  | some entry =>
    simp only [found] at stepped
    subst stepped
    refine ⟨?_, kept.types, kept.handles, kept.used, kept.known, once⟩
    have member : entry ∈ s.handler.foo := List.mem_of_find?_eq_some found
    have isType : entry.1 = type := by simpa using List.find?_some found
    rw [atPath_removeObserver, kept.own, List.filter_map, List.filter_filter]
    congr 1
    refine List.filter_congr fun other listed => ?_
    -- Among the entries of `foo` the handle is that of the type.
    have handle_iff : other.2 = entry.2 ↔ other.1 = type := by
      rw [← isType]
      constructor
      · intro same
        rw [List.inj_on_of_nodup_map kept.handles listed member same]
      · intro same
        rw [List.inj_on_of_nodup_map kept.types listed member same]
    by_cases same : other.1 = type
    · simp [registration, same, handle_iff.mpr same]
    · simp [registration, Function.update_of_ne same, mt handle_iff.mp same]

theorem Kept.step {s t : State} {action : Action} (kept : Kept s) (notAgain : NotAgain s action)
    (stepped : Handler.step s action = some t) : Kept t := by
  cases action with
  | addObserver type => exact kept.addObserver notAgain stepped
  | removeObserver type => exact kept.removeObserver stepped
  | removeAllObservers =>
    cases stepped
    refine ⟨?_, kept.types, kept.handles, kept.used, kept.known, by simp⟩
    simp [ObserversHandler.removeAllObservers, atPath_removeAllObservers]
  | elsewhereObserve dbRef type owner =>
    obtain ⟨elsewhere, stepped⟩ := Option.ite_none_right_eq_some.mp stepped
    cases stepped
    refine ⟨?_, kept.types, kept.handles, fun entry member => Nat.lt_succ_of_lt (kept.used entry member), kept.known, kept.once⟩
    exact ((atPath_elsewhere elsewhere s.registry).1 type owner).trans kept.own
  | elsewhereRemoveObserver dbRef handle =>
    obtain ⟨elsewhere, stepped⟩ := Option.ite_none_right_eq_some.mp stepped
    cases stepped
    refine ⟨?_, kept.types, kept.handles, kept.used, kept.known, kept.once⟩
    exact ((atPath_elsewhere elsewhere s.registry).2.1 handle).trans kept.own
  | elsewhereRemoveAllObservers dbRef =>
    obtain ⟨elsewhere, stepped⟩ := Option.ite_none_right_eq_some.mp stepped
    cases stepped
    refine ⟨?_, kept.types, kept.handles, kept.used, kept.known, kept.once⟩
    exact (atPath_elsewhere elsewhere s.registry).2.2.trans kept.own

/-- A type that is added again has no registration. -/
theorem not_matches {s t : State} {action : Action} (kept : Kept s) (again : ¬ NotAgain s action)
    (stepped : step s action = some t) : ¬ Matches t := by
  cases action with
  | addObserver type =>
    simp only [NotAgain, Classical.not_imp, Bool.not_eq_true] at again
    obtain ⟨added, unwanted⟩ := again
    have here := (kept.known type).mp added
    simp only [step, ObserversHandler.addObserver, Option.some.injEq] at stepped
    cases found : s.handler.findHandler type with
    | none => exact absurd here (findHandler_none.mp found)
    | some entry =>
      simp only [found] at stepped
      subst stepped
      intro every
      have one := every type
      simp only [Function.update_self, kept.types_eq] at one
      have there := List.count_pos_iff.mp (show 0 < _ by rw [one]; exact Nat.one_pos)
      obtain ⟨other, listed, rfl⟩ := List.mem_map.mp there
      have wanted := (List.mem_filter.mp listed).2
      rw [unwanted] at wanted
      cases wanted
  | _ => exact absurd trivial again

/-- Whatever is called on a handler that is alone at its path, its registrations are
    those that were added last exactly when no event type is added again after its removal. -/
theorem matches_iff {dbRef : FrbUtils.Reference} {registry : Registry} (free : atPath dbRef registry = [])
    (actions : List Action) :
    Runs.Always step Matches (start dbRef registry) actions ↔ Runs.Along step NotAgain (start dbRef registry) actions :=
  Runs.always_iff_along (fun _ (kept : Kept _) => kept.agrees) (fun _ _ _ kept notAgain stepped => kept.step notAgain stepped)
    (fun _ _ _ kept again stepped => not_matches kept again stepped) (start_kept free) actions

/-- An observer is added, removed and added again. -/
def addedAgainRun : List Action := [.addObserver .childAdded, .removeObserver .childAdded, .addObserver .childAdded]

theorem added_again_not_registered : ¬ ∀ (dbRef : FrbUtils.Reference) (registry : Registry) (actions : List Action),
    atPath dbRef registry = [] → Runs.Always step Matches (start dbRef registry) actions := by
  intro claim
  have always := claim (FrbUtils.userListsDbRef Sample.alice.val) ⟨[], 0⟩ addedAgainRun rfl
  have passed : (Runs.exec step (start (FrbUtils.userListsDbRef Sample.alice.val) ⟨[], 0⟩) addedAgainRun).any
      (fun s => decide (s.wanted .childAdded = true ∧ s.registry.registrations = [])) = true := by decide +kernel
  obtain ⟨s, every, lost⟩ := always.of_any passed
  obtain ⟨wanted, empty⟩ := of_decide_eq_true lost
  have one := every .childAdded
  simp [atPath, empty, wanted] at one

theorem matches_iff_addedAgainRun :
    Runs.Always step Matches (start (FrbUtils.userListsDbRef Sample.alice.val) ⟨[], 0⟩) addedAgainRun ↔
      Runs.Along step NotAgain (start (FrbUtils.userListsDbRef Sample.alice.val) ⟨[], 0⟩) addedAgainRun :=
  matches_iff rfl addedAgainRun

end SharedList.Observers.Handler
