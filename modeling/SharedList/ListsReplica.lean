import SharedList.ListsManager

/-!
`ListsManager` over whole runs. Every input moves the replica of the list keys
as the rules of a replica allow, so no list is held twice, and none whose
removal was handled last, as long as no `childRemoved` is handled while the
list it names is being read; and once one is, the answer to that read shows it.
-/
namespace SharedList.ListsManager

namespace Session

/-- The load in its phases: nothing is held before its keys are known, no read is
    started before the observers are active, and no load read waits after that. -/
structure Loading (s : Session) : Prop where
  silent : s.manager.observerActive = false → s.history = [] ∧ s.manager.addReads = []
  idle : s.manager.observerActive = true → s.manager.loadReads = []
  early : (∀ n, s.manager.load ≠ .loading n) →
    s.manager.ids = [] ∧ s.manager.loadReads = [] ∧ s.manager.observerActive = false
  counted : ∀ n, s.manager.load = .loading n → n = s.manager.loadReads.length
  distinct : s.manager.loadReads.Nodup
  fresh : ∀ id ∈ s.manager.loadReads, id ∉ s.manager.ids

theorem loading_new : Loading new where
  silent := fun _ => ⟨rfl, rfl⟩
  idle := by simp [new, State.new]
  early := fun _ => ⟨rfl, rfl, rfl⟩
  counted := by simp [new, State.new]
  distinct := by simp [new, State.new]
  fresh := by simp [new, State.new]

/-- Events are handled only while the observers are active, and by turns. -/
theorem step_child {s t : Session} {event : ChildEvent Key} (stepped : s.step (.child event) = some t) :
    s.manager.observerActive = true ∧ Possible s.history event ∧
      ∃ manager, handle s.manager (.child event) = some manager ∧ t = ⟨manager, event :: s.history⟩ := by
  simp only [step, Option.ite_none_right_eq_some, Option.map_eq_some_iff] at stepped
  obtain ⟨⟨active, possible⟩, manager, handled, rfl⟩ := stepped
  exact ⟨active, possible, manager, handled, rfl⟩

/-- An input that changes neither the ids nor the reads is no move. -/
theorem stays {s : Session} {manager : State} (loading : Loading s) (sameIds : manager.ids = s.manager.ids)
    (same : State.SameLoading s.manager manager) :
    Loading ⟨manager, s.history⟩ ∧ replica ⟨manager, s.history⟩ = s.replica := by
  obtain ⟨sameLoad, sameReads, sameAdds, sameActive⟩ := same
  refine ⟨⟨?_, ?_, ?_, ?_, ?_, ?_⟩, ?_⟩
  · rw [sameActive, sameAdds]
    exact loading.silent
  · rw [sameActive, sameReads]
    exact loading.idle
  · rw [sameLoad, sameIds, sameReads, sameActive]
    exact loading.early
  · rw [sameLoad, sameReads]
    exact loading.counted
  · rw [sameReads]
    exact loading.distinct
  · rw [sameReads, sameIds]
    exact loading.fresh
  · rw [replica, sameIds, sameAdds, replica]

theorem keysAnswered_loading {s : Session} {manager : State} {listsSnapshot : Snapshot} (loading : Loading s)
    (answered : s.manager.keysAnswered listsSnapshot = some manager) :
    Loading ⟨manager, s.history⟩ ∧ replica ⟨manager, s.history⟩ = s.replica := by
  obtain ⟨awaiting, sameIds, sameAdds, phase⟩ := State.keysAnswered_spec answered
  obtain ⟨noIds, noReads, inactive⟩ := loading.early (by simp [awaiting])
  obtain ⟨noHistory, noAdds⟩ := loading.silent inactive
  refine ⟨?_, by rw [replica, sameIds, sameAdds, replica]⟩
  rcases phase with ⟨load, reads, _⟩ | ⟨load, reads, active⟩
  · have none : manager.loadReads = [] := reads.trans noReads
    refine ⟨fun _ => ⟨noHistory, sameAdds.trans noAdds⟩, fun _ => none, ?_, ?_, ?_, ?_⟩
    · exact fun other => absurd load (other 0)
    · intro n same
      rw [load] at same
      cases same
      simp [none]
    · simp [none]
    · simp [none]
  · refine ⟨fun _ => ⟨noHistory, sameAdds.trans noAdds⟩, ?_, ?_, ?_, ?_, ?_⟩
    · intro nowActive
      rw [active, inactive] at nowActive
      cases nowActive
    · exact fun other => absurd load (other _)
    · intro n same
      rw [load] at same
      cases same
      simp [reads]
    · rw [reads]
      exact List.nodup_dedup _
    · rw [sameIds, noIds]
      simp

theorem loadReadAnswered_loading {s : Session} {manager : State} {listId : Key} {listSnapshot : Snapshot}
    (loading : Loading s) (answered : s.manager.loadReadAnswered listId listSnapshot = some manager) :
    Loading ⟨manager, s.history⟩ ∧ s.replica.step (.load listId) = some (replica ⟨manager, s.history⟩) := by
  obtain ⟨n, load, waiting, newIds, newLoad, newReads, sameAdds, active⟩ := State.loadReadAnswered_spec answered
  have inactive : s.manager.observerActive = false := by
    by_contra active
    rw [loading.idle (by simpa using active)] at waiting
    cases waiting
  obtain ⟨noHistory, noAdds⟩ := loading.silent inactive
  have length : manager.loadReads.length = s.manager.loadReads.length - 1 := by
    rw [newReads, List.length_erase_of_mem waiting]
  have waits := List.length_pos_of_mem waiting
  have counted := loading.counted n load
  constructor
  · refine ⟨fun _ => ⟨noHistory, sameAdds.trans noAdds⟩, ?_, ?_, ?_, ?_, ?_⟩
    · intro nowActive
      rcases active with same | ⟨done, _⟩
      · rw [same, inactive] at nowActive
        cases nowActive
      · exact List.length_eq_zero_iff.mp (show manager.loadReads.length = 0 by omega)
    · exact fun other => absurd newLoad (other _)
    · intro m same
      rw [newLoad] at same
      cases same
      show n - 1 = (manager.loadReads.length : Int)
      omega
    · rw [newReads]
      exact loading.distinct.erase _
    · intro id stillWaiting
      rw [newReads, loading.distinct.mem_erase_iff] at stillWaiting
      rw [newIds, List.mem_append, List.mem_singleton]
      rintro (held | same)
      · exact loading.fresh id stillWaiting.2 held
      · exact stillWaiting.1 same
  · have new : listId ∉ s.replica.held ∧ s.replica.history = [] := ⟨loading.fresh listId waiting, noHistory⟩
    rw [Replica.step, if_pos new]
    simp [Replica.load, replica, newIds, sameAdds]

/-- While the observers are active a change of the ids and of the reads they start
    leaves the load as it is. -/
theorem Loading.observing {s : Session} {manager : State} (loading : Loading s) (active : s.manager.observerActive = true)
    (sameLoad : manager.load = s.manager.load) (sameReads : manager.loadReads = s.manager.loadReads)
    (sameActive : manager.observerActive = s.manager.observerActive) (history : List (ChildEvent Key)) :
    Loading ⟨manager, history⟩ := by
  have noReads := loading.idle active
  refine ⟨?_, fun _ => sameReads.trans noReads, ?_, ?_, ?_, ?_⟩
  · intro inactive
    rw [sameActive, active] at inactive
    cases inactive
  · intro other
    rw [sameLoad] at other
    rw [(loading.early other).2.2] at active
    cases active
  · rw [sameLoad, sameReads]
    exact loading.counted
  · simp [sameReads, noReads]
  · simp [sameReads, noReads]

theorem child_loading {s : Session} {manager : State} {event : ChildEvent Key} (loading : Loading s)
    (active : s.manager.observerActive = true) (possible : Possible s.history event)
    (handled : handle s.manager (.child event) = some manager) :
    Loading ⟨manager, event :: s.history⟩ ∧ s.replica.step (.hear event) = some (replica ⟨manager, event :: s.history⟩) := by
  rw [Replica.step, if_pos (show Possible s.replica.history event from possible)]
  cases event with
  | added listId =>
    cases handled
    obtain ⟨sameIds, newAdds, sameLoad, sameReads, sameActive⟩ := State.listsKeysChildAdded_spec s.manager listId
    refine ⟨loading.observing active sameLoad sameReads sameActive _, ?_⟩
    by_cases held : listId ∈ s.manager.ids
    · simp [Replica.hear, replica, sameIds, newAdds, held]
    · simp [Replica.hear, replica, sameIds, newAdds, held]
  | removed listId =>
    cases handled
    obtain ⟨newIds, sameLoad, sameReads, sameAdds, sameActive⟩ := State.listsKeysChildRemoved_spec s.manager listId
    exact ⟨loading.observing active sameLoad sameReads sameActive _, by simp [Replica.hear, replica, newIds, sameAdds]⟩

theorem addReadAnswered_loading {s : Session} {manager : State} {listId : Key} {listSnapshot : Snapshot}
    (loading : Loading s) (answered : s.manager.addReadAnswered listId listSnapshot = some manager) :
    Loading ⟨manager, s.history⟩ ∧ s.replica.step (.fetch listId) = some (replica ⟨manager, s.history⟩) := by
  obtain ⟨waiting, newIds, newAdds, sameLoad, sameReads, sameActive⟩ := State.addReadAnswered_spec answered
  have active : s.manager.observerActive = true := by
    by_contra inactive
    rw [(loading.silent (by simpa using inactive)).2] at waiting
    cases waiting
  refine ⟨loading.observing active sameLoad sameReads sameActive _, ?_⟩
  rw [Replica.step, if_pos (show listId ∈ s.replica.fetching from waiting)]
  simp [Replica.fetch, replica, newIds, newAdds]

/-- The manager refines the replica: every input is the move it stands for. -/
theorem replica_step {s t : Session} {input : Input} (loading : Loading s) (stepped : s.step input = some t) :
    Loading t ∧ s.replica.step (move input) = some t.replica := by
  cases input with
  | child event =>
    obtain ⟨active, possible, manager, handled, rfl⟩ := step_child stepped
    exact child_loading loading active possible handled
  | loadData =>
    obtain ⟨manager, handled, rfl⟩ := Option.map_eq_some_iff.mp stepped
    simp only [handle, State.loadData, Option.ite_none_right_eq_some, Option.some.injEq] at handled
    obtain ⟨notCalled, rfl⟩ := handled
    obtain ⟨noIds, noReads, inactive⟩ := loading.early (by simp [notCalled])
    refine ⟨⟨loading.silent, loading.idle, fun _ => ⟨noIds, noReads, inactive⟩, ?_, loading.distinct, loading.fresh⟩, rfl⟩
    simp
  | keysAnswered listsSnapshot =>
    obtain ⟨manager, answered, rfl⟩ := Option.map_eq_some_iff.mp stepped
    obtain ⟨after, same⟩ := keysAnswered_loading loading answered
    exact ⟨after, congrArg some same.symm⟩
  | loadReadAnswered listId listSnapshot =>
    obtain ⟨manager, answered, rfl⟩ := Option.map_eq_some_iff.mp stepped
    exact loadReadAnswered_loading loading answered
  | addReadAnswered listId listSnapshot =>
    obtain ⟨manager, answered, rfl⟩ := Option.map_eq_some_iff.mp stepped
    exact addReadAnswered_loading loading answered
  | listChanged id field value =>
    simp only [step, handle, Option.map_some, Option.some.injEq] at stepped
    subst stepped
    obtain ⟨sameIds, sameLoading⟩ := State.listChanged_spec s.manager id field value
    obtain ⟨after, same⟩ := stays loading sameIds sameLoading
    exact ⟨after, congrArg some same.symm⟩
  | delegateGone =>
    simp only [step, handle, Option.map_some, Option.some.injEq] at stepped
    subst stepped
    have sameLoading : State.SameLoading s.manager { s.manager with delegate := false } := ⟨rfl, rfl, rfl, rfl⟩
    have sameIds : State.ids { s.manager with delegate := false } = s.manager.ids := rfl
    obtain ⟨after, same⟩ := stays loading sameIds sameLoading
    exact ⟨after, congrArg some same.symm⟩

/-! ## No list twice -/

/-- The ids in `data` are distinct, and none is there whose removal was handled after its last addition. -/
def NoListTwice (s : Session) : Prop :=
  s.manager.ids.Nodup ∧ ∀ id, standing s.history id = some false → id ∉ s.manager.ids

/-- No removal is handled while the list it names is being read. -/
def NotReading (s : Session) : Input → Prop
  | .child (.removed listId) => listId ∉ s.manager.addReads
  | _ => True

/-- The answer to a read of `ListsKeysChildAdded`. -/
def IsAnswer : Input → Prop
  | .addReadAnswered _ _ => True
  | _ => False

theorem noListTwice_iff {s : Session} : NoListTwice s ↔ s.replica.Clean :=
  ⟨fun once => ⟨once.1, once.2⟩, fun clean => ⟨clean.distinct, clean.gone⟩⟩

theorem unmet_iff {s : Session} {input : Input} : s.replica.Unmet (move input) ↔ NotReading s input := by
  cases input with
  | child event => cases event <;> exact Iff.rfl
  | _ => exact Iff.rfl

/-- A record that `List.Deserialize` reads. -/
def wellFormed : Snapshot := ListObject.serialize "" "" ""

theorem addReadAnswered_possible {s : Session} {listId : Key} (waiting : listId ∈ s.manager.addReads) :
    ∃ t, s.step (.addReadAnswered listId wellFormed) = some t := by
  have read : ListObject.read listId wellFormed = some ⟨listId, "", "", ""⟩ := rfl
  simp [step, handle, State.addReadAnswered, waiting, State.addListWithObserver, read]

/-- Once a list is stray, the answers to the reads show it twice or after its removal. -/
theorem stray_shows {s : Session} (loading : Loading s) {k : Key} (stray : s.replica.Stray k) :
    ∃ rest, (∀ input ∈ rest, IsAnswer input) ∧ ¬ Runs.Always step NoListTwice s rest := by
  by_cases once : NoListTwice s
  · cases reads : s.manager.addReads with
    | nil => exact absurd (noListTwice_iff.mp once) (stray.not_clean reads)
    | cons listId more =>
      have waiting : listId ∈ s.manager.addReads := by simp [reads]
      obtain ⟨t, stepped⟩ := addReadAnswered_possible waiting
      obtain ⟨after, moved⟩ := replica_step loading stepped
      have fewer : t.manager.addReads.length < s.manager.addReads.length := by
        obtain ⟨manager, answered, rfl⟩ := Option.map_eq_some_iff.mp stepped
        rw [(State.addReadAnswered_spec answered).2.2.1, List.length_erase_of_mem waiting]
        exact Nat.sub_lt (List.length_pos_of_mem waiting) Nat.one_pos
      obtain ⟨rest, answers, shown⟩ := stray_shows after (stray.step (noListTwice_iff.mp once) moved)
      refine ⟨.addReadAnswered listId wellFormed :: rest, ?_, fun always => shown (always.2 t stepped)⟩
      exact List.forall_mem_cons.mpr ⟨trivial, answers⟩
  · exact ⟨[], by simp, once⟩
termination_by s.manager.addReads.length

/-- The same after any further inputs. -/
theorem stray_shows_later {s t : Session} (loading : Loading s) {k : Key} (stray : s.replica.Stray k)
    {inputs : List Input} (run : Runs.exec step s inputs = some t) :
    ∃ rest, (∀ input ∈ rest, IsAnswer input) ∧ ¬ Runs.Always step NoListTwice s (inputs ++ rest) := by
  induction inputs generalizing s with
  | nil => exact stray_shows loading stray
  | cons input more ih =>
    by_cases once : NoListTwice s
    · obtain ⟨u, stepped, tail⟩ := Option.bind_eq_some_iff.mp run
      obtain ⟨after, moved⟩ := replica_step loading stepped
      obtain ⟨rest, answers, shown⟩ := ih after (stray.step (noListTwice_iff.mp once) moved) tail
      exact ⟨rest, answers, fun always => shown (always.2 u stepped)⟩
    · exact ⟨[], by simp, fun always => once always.1⟩

/-- A state in which every removal so far met no read. -/
def Good (s : Session) : Prop := Loading s ∧ s.replica.Tracks

theorem good_new : Good new := ⟨loading_new, Replica.Tracks.start⟩

theorem Good.step {s t : Session} {input : Input} (good : Good s) (notReading : NotReading s input)
    (stepped : s.step input = some t) : Good t := by
  obtain ⟨after, moved⟩ := replica_step good.1 stepped
  exact ⟨after, good.2.step (unmet_iff.mpr notReading) moved⟩

theorem Good.iff {s t : Session} (good : Good s) {inputs : List Input} (run : Runs.exec Session.step s inputs = some t) :
    (∀ rest, (∀ input ∈ rest, IsAnswer input) → Runs.Always Session.step NoListTwice s (inputs ++ rest)) ↔
      Runs.Along Session.step NotReading s inputs := by
  induction inputs generalizing s with
  | nil =>
    refine iff_of_true ?_ trivial
    intro rest answers
    have along : Runs.Along Session.step NotReading s rest := by
      clear run good
      induction rest generalizing s with
      | nil => trivial
      | cons input more ih =>
        obtain ⟨first, later⟩ := List.forall_mem_cons.mp answers
        refine fun u _ => ⟨?_, ih later⟩
        cases input with
        | addReadAnswered => trivial
        | _ => cases first
    have always := Runs.always_of_invariant (fun _ _ _ good notReading stepped => Good.step good notReading stepped) good along
    exact always.mono fun _ good => noListTwice_iff.mpr good.2.clean
  | cons input more ih =>
    obtain ⟨u, stepped, tail⟩ := Option.bind_eq_some_iff.mp run
    constructor
    · intro all v toV
      obtain rfl : u = v := Option.some.inj (stepped.symm.trans toV)
      by_cases notReading : NotReading s input
      · refine ⟨notReading, (ih (good.step notReading stepped) tail).mp ?_⟩
        exact fun rest answers => (all rest answers).2 u stepped
      · obtain ⟨after, moved⟩ := replica_step good.1 stepped
        obtain ⟨k, stray⟩ := Replica.Stray.of_step (fun unmet => notReading (unmet_iff.mp unmet)) moved
        obtain ⟨rest, answers, shown⟩ := stray_shows_later after stray tail
        exact absurd ((all rest answers).2 u stepped) shown
    · intro along rest answers
      obtain ⟨notReading, later⟩ := along u stepped
      refine ⟨noListTwice_iff.mpr good.2.clean, ?_⟩
      intro v toV
      obtain rfl : u = v := Option.some.inj (stepped.symm.trans toV)
      exact (ih (good.step notReading stepped) tail).mpr later rest answers

/-- A run of a manager, continued by any answers to its reads, holds no list twice
    and none after its removal exactly when it handles no removal of a list that is being read. -/
theorem no_list_twice_iff {inputs : List Input} {t : Session} (run : Runs.exec step new inputs = some t) :
    (∀ rest, (∀ input ∈ rest, IsAnswer input) → Runs.Always step NoListTwice new (inputs ++ rest)) ↔
      Runs.Along step NotReading new inputs :=
  good_new.iff run

/-- A key is added, removed and added again before its record is first read. -/
def twiceAddedRun : List Input :=
  open Sample in
  [.loadData, .keysAnswered null, .child (.added groceries), .child (.removed groceries), .child (.added groceries),
   .addReadAnswered groceries groceryRecord, .addReadAnswered groceries groceryRecord]

theorem list_held_twice : ¬ ∀ inputs, Runs.Always step NoListTwice new inputs := by
  intro claim
  have passed : (Runs.exec step new twiceAddedRun).any (fun s => decide (¬ s.manager.ids.Nodup)) = true := by
    decide +kernel
  obtain ⟨s, once, twice⟩ := (claim twiceAddedRun).of_any passed
  exact of_decide_eq_true twice once.1

theorem no_list_twice_iff_twiceAddedRun : ∃ t, Runs.exec step new twiceAddedRun = some t ∧
    ((∀ rest, (∀ input ∈ rest, IsAnswer input) → Runs.Always step NoListTwice new (twiceAddedRun ++ rest)) ↔
      Runs.Along step NotReading new twiceAddedRun) := by
  have runs : (Runs.exec step new twiceAddedRun).isSome := by decide +kernel
  obtain ⟨t, run⟩ := Option.isSome_iff_exists.mp runs
  exact ⟨t, run, no_list_twice_iff run⟩

end Session
end SharedList.ListsManager
