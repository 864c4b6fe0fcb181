import SharedList.ListRemoval

/-!
`RemoveList` called several times for one list, by one client or by several. A
client reads the database under its own writes that are still on their way. A
call whose read sees none of the writes erases what the others erase; one that
sees a write finds no users map, and its forced cast stops the app.
-/
namespace SharedList.RepeatedRemoval
open FrbUtils

/-- A call of `RemoveList`, with the client that makes it. -/
structure Call where
  client : Nat
  list : ListObject
deriving DecidableEq

structure State where
  db : Database
  /-- The calls that wait for the answer to their read of the users map. -/
  reading : List Call
  /-- The answers whose blocks have yet to run. -/
  raised : List (Call × Snapshot)
  /-- The writes on their way, each with the client that issued it. -/
  writing : List (Nat × Write)
  /-- The calls that stopped at the forced cast. -/
  stopped : List Call
deriving DecidableEq

inductive Action where
  /-- The read of a call is answered, with what its client sees. -/
  | answered (call : Call)
  /-- The block of the call runs. -/
  | handled (call : Call) (usersSnapshot : Snapshot)
  | applied (client : Nat) (write : Write)
deriving DecidableEq

namespace State

/-- The calls have been made, on objects of the list that may differ in their titles. -/
def start (db : Database) (calls : List Call) : State := ⟨db, calls, [], [], []⟩

/-- The app has not stopped at this client. -/
def Runs (s : State) (client : Nat) : Prop := ∀ call ∈ s.stopped, call.client ≠ client
instance (s : State) (client : Nat) : Decidable (s.Runs client) :=
  inferInstanceAs (Decidable (∀ call ∈ s.stopped, call.client ≠ client))

/-- The database as the client sees it, its own writes included. -/
def view (s : State) (client : Nat) : Database := applyAll s.db (ownWrites s.writing client)

end State

def step (s : State) : Action → Option State
  | .answered call =>
    if call ∈ s.reading ∧ s.Runs call.client then
      let usersSnapshot := (s.view call.client).sub (listUsersDbRef call.list.id.val)
      some { s with reading := s.reading.erase call, raised := s.raised ++ [(call, usersSnapshot)] }
    else none
  | .handled call usersSnapshot =>
    if (call, usersSnapshot) ∈ s.raised ∧ s.Runs call.client then
      let running := { s with raised := s.raised.erase (call, usersSnapshot) }
      match dictionary? usersSnapshot with
      | some usersDict => some { running with writing := s.writing ++ [(call.client, .removeList call.list usersDict.childKeys)] }
      | none => some { running with stopped := s.stopped ++ [call] }
    else none
  | .applied client write =>
    if write ∈ ownWrites s.writing client then
      some { s with db := write.apply s.db, writing := s.writing.erase (client, write) }
    else none

/-- Nothing is under way but at clients whose app has stopped. -/
structure Ended (t : State) : Prop where
  reading : ∀ call ∈ t.reading, ¬ t.Runs call.client
  raised : ∀ answer ∈ t.raised, ¬ t.Runs answer.1.client
  writing : ∀ sent ∈ t.writing, ¬ t.Runs sent.1

/-- Every call has come to its end, none at the cast, and the database is as after one call. -/
def AsOnce (db : Database) (list : ListObject) (t : State) : Prop := t.stopped = [] ∧ removeList db list [] = some t.db

/-- No read is answered after a write has been applied, or after another call's block has run on its client. -/
def ReadsFirst (actions : List Action) : Prop :=
  actions.Pairwise fun earlier later => ∀ call, later = .answered call →
    (∀ client write, earlier ≠ .applied client write) ∧ ∀ other usersSnapshot, earlier = .handled other usersSnapshot → other.client ≠ call.client

/-- The two objects stand for one list, whose items id never changes. -/
def SameList (a b : ListObject) : Prop := a.id = b.id ∧ a.items_id = b.items_id

/-! ## The write -/

theorem removeList_nulls (list : ListObject) (usersDict : List Key) :
    ∀ c ∈ (removeListUpdate list usersDict).changes, c.2.leaves = [] := by
  rw [removeList_changes]
  simp

/-- The title of the object does not matter. -/
theorem apply_congr {a b : ListObject} (same : SameList a b) (usersDict : List Key) (db : Database) :
    (Write.removeList a usersDict).apply db = (Write.removeList b usersDict).apply db := by
  obtain ⟨sameId, sameItems⟩ := same
  simp only [Write.apply, Write.data, removeListUpdate, sameId, sameItems]

theorem apply_twice (list : ListObject) (usersDict : List Key) (db : Database) :
    (Write.removeList list usersDict).apply ((Write.removeList list usersDict).apply db) =
      (Write.removeList list usersDict).apply db := Tree.update_nulls_twice (removeList_nulls list usersDict) db

/-- The write erases the users map, and no such write brings it back. -/
theorem users_gone {list other : ListObject} (sameId : other.id = list.id) (usersDict : List Key) (db : Database) :
    dictionary? (((Write.removeList other usersDict).apply db).sub (listUsersDbRef list.id.val)) = none := by
  have erased : (((Write.removeList other usersDict).apply db).sub (listUsersDbRef list.id.val)).leaves = [] := by
    refine List.eq_nil_iff_forall_not_mem.mpr ?_
    rintro ⟨r, v⟩ leaf
    rw [Tree.mem_sub, Write.apply, updateChildValues, Write.data,
      Tree.leaves_update_nulls (removeList_nulls other usersDict), List.mem_filter] at leaf
    have outside := of_decide_eq_true leaf.2
    rw [removeList_changes, listUsersDbRef_key, sameId] at outside
    exact outside _ List.mem_cons_self ⟨Keys.users :: r, rfl⟩
  rw [dictionary?, if_pos (.inl erased)]

/-! ## A read that sees a write -/

/-- All that is under way is of calls for the list. -/
structure Calls (list : ListObject) (s : State) : Prop where
  reading : ∀ call ∈ s.reading, SameList call.list list
  raised : ∀ answer ∈ s.raised, SameList answer.1.list list
  writing : ∀ sent ∈ s.writing, ∃ other usersDict, SameList other list ∧ sent.2 = .removeList other usersDict

/-- A client from which the users map is hidden, by a write of its own or for everyone. -/
def Blocked (list : ListObject) (client : Nat) (s : State) : Prop :=
  dictionary? (s.db.sub (listUsersDbRef list.id.val)) = none ∨ ownWrites s.writing client ≠ []

/-- A call has stopped, or has an answer at which it will. -/
def Doomed (s : State) : Prop := s.stopped ≠ [] ∨ ∃ answer ∈ s.raised, dictionary? answer.2 = none

variable {list : ListObject} {s t : State} {action : Action} {actions : List Action}

theorem step_answered {call : Call} (stepped : step s (.answered call) = some t) : call ∈ s.reading ∧ s.Runs call.client ∧
    t = { s with reading := s.reading.erase call,
                 raised := s.raised ++ [(call, (s.view call.client).sub (listUsersDbRef call.list.id.val))] } := by
  obtain ⟨⟨waiting, runs⟩, stepped⟩ := Option.ite_none_right_eq_some.mp stepped
  exact ⟨waiting, runs, (Option.some.inj stepped).symm⟩

theorem step_handled {call : Call} {usersSnapshot : Snapshot} (stepped : step s (.handled call usersSnapshot) = some t) :
    (call, usersSnapshot) ∈ s.raised ∧ s.Runs call.client ∧
      ((∃ usersDict, dictionary? usersSnapshot = some usersDict ∧
          t = { s with raised := s.raised.erase (call, usersSnapshot),
                       writing := s.writing ++ [(call.client, .removeList call.list usersDict.childKeys)] }) ∨
        (dictionary? usersSnapshot = none ∧
          t = { s with raised := s.raised.erase (call, usersSnapshot), stopped := s.stopped ++ [call] })) := by
  obtain ⟨⟨waiting, runs⟩, stepped⟩ := Option.ite_none_right_eq_some.mp stepped
  refine ⟨waiting, runs, ?_⟩
  split at stepped
  · rename_i usersDict read
    exact .inl ⟨usersDict, read, (Option.some.inj stepped).symm⟩
  · rename_i unread
    exact .inr ⟨unread, (Option.some.inj stepped).symm⟩

theorem step_applied {client : Nat} {write : Write} (stepped : step s (.applied client write) = some t) :
    (client, write) ∈ s.writing ∧ t = { s with db := write.apply s.db, writing := s.writing.erase (client, write) } := by
  obtain ⟨waiting, stepped⟩ := Option.ite_none_right_eq_some.mp stepped
  exact ⟨mem_ownWrites.mp waiting, (Option.some.inj stepped).symm⟩

theorem Calls.step (calls : Calls list s) (stepped : RepeatedRemoval.step s action = some t) : Calls list t := by
  cases action with
  | answered call =>
    obtain ⟨waiting, _, rfl⟩ := step_answered stepped
    refine ⟨fun other member => calls.reading other (List.mem_of_mem_erase member), ?_, calls.writing⟩
    refine List.forall_mem_append.mpr ⟨calls.raised, ?_⟩
    simpa using calls.reading call waiting
  | handled call usersSnapshot =>
    obtain ⟨waiting, _, ⟨usersDict, _, rfl⟩ | ⟨_, rfl⟩⟩ := step_handled stepped
    · refine ⟨calls.reading, fun answer member => calls.raised answer (List.mem_of_mem_erase member), ?_⟩
      refine List.forall_mem_append.mpr ⟨calls.writing, ?_⟩
      rintro sent member
      rw [List.mem_singleton.mp member]
      exact ⟨call.list, usersDict.childKeys, calls.raised _ waiting, rfl⟩
    · exact ⟨calls.reading, fun answer member => calls.raised answer (List.mem_of_mem_erase member), calls.writing⟩
  | applied client write =>
    obtain ⟨_, rfl⟩ := step_applied stepped
    exact ⟨calls.reading, calls.raised, fun sent member => calls.writing sent (List.mem_of_mem_erase member)⟩

/-- The last write that is applied hides the users map, if there is one. -/
theorem applyAll_gone {db : Database} {writes : List Write}
    (removals : ∀ write ∈ writes, ∃ other usersDict, SameList other list ∧ write = .removeList other usersDict)
    (hidden : dictionary? (db.sub (listUsersDbRef list.id.val)) = none ∨ writes ≠ []) :
    dictionary? ((applyAll db writes).sub (listUsersDbRef list.id.val)) = none := by
  induction writes generalizing db with
  | nil => simpa [applyAll] using hidden
  | cons write rest ih =>
    obtain ⟨⟨other, usersDict, same, rfl⟩, later⟩ := List.forall_mem_cons.mp removals
    exact ih later (.inl (users_gone same.1 usersDict db))

theorem Blocked.view {client : Nat} (blocked : Blocked list client s) (calls : Calls list s) :
    dictionary? ((s.view client).sub (listUsersDbRef list.id.val)) = none :=
  applyAll_gone (fun _ member => calls.writing _ (mem_ownWrites.mp member)) blocked

/-- Once hidden from a client the users map stays hidden. -/
theorem Blocked.step {client : Nat} (blocked : Blocked list client s) (calls : Calls list s)
    (stepped : RepeatedRemoval.step s action = some t) : Blocked list client t := by
  cases action with
  | answered call =>
    obtain ⟨_, _, rfl⟩ := step_answered stepped
    exact blocked
  | handled call usersSnapshot =>
    obtain ⟨_, _, ⟨usersDict, _, rfl⟩ | ⟨_, rfl⟩⟩ := step_handled stepped
    · refine blocked.imp_right fun some => ?_
      simp only [ownWrites, List.filter_append, List.map_append]
      exact List.append_ne_nil_of_left_ne_nil some _
    · exact blocked
  | applied sender write =>
    obtain ⟨waiting, rfl⟩ := step_applied stepped
    obtain ⟨other, usersDict, same, rfl⟩ := calls.writing _ waiting
    exact .inl (users_gone same.1 usersDict s.db)

theorem Doomed.step (doomed : Doomed s) (stepped : RepeatedRemoval.step s action = some t) : Doomed t := by
  cases action with
  | answered call =>
    obtain ⟨_, _, rfl⟩ := step_answered stepped
    exact doomed.imp_right fun ⟨answer, member, fails⟩ => ⟨answer, List.mem_append_left _ member, fails⟩
  | handled call usersSnapshot =>
    obtain ⟨_, _, ⟨usersDict, read, rfl⟩ | ⟨_, rfl⟩⟩ := step_handled stepped
    · refine doomed.imp_right ?_
      rintro ⟨answer, member, fails⟩
      have other : answer ≠ (call, usersSnapshot) := by
        rintro rfl
        rw [read] at fails
        cases fails
      exact ⟨answer, (List.mem_erase_of_ne other).mpr member, fails⟩
    · exact .inl (by simp)
  | applied client write =>
    obtain ⟨_, rfl⟩ := step_applied stepped
    exact doomed

/-- A run that has ended without a call stopped was never to have one. -/
theorem Ended.not_doomed (ended : Ended t) (unstopped : t.stopped = []) : ¬ Doomed t := by
  rintro (stopped | ⟨answer, member, _⟩)
  · exact stopped unstopped
  · exact ended.raised answer member (by simp [State.Runs, unstopped])

theorem not_doomed_of_run (run : Runs.exec step s actions = some t) (fine : ¬ Doomed t) : ¬ Doomed s := fun doomed =>
  fine (Runs.exec_invariant (fun _ _ _ kept stepped => Doomed.step kept stepped) doomed run)

/-- No read of a blocked client is answered any more. -/
theorem Blocked.noAnswers {client : Nat} (blocked : Blocked list client s) (calls : Calls list s)
    (run : Runs.exec RepeatedRemoval.step s actions = some t) (fine : ¬ Doomed t) :
    ∀ call, .answered call ∈ actions → call.client ≠ client := by
  induction actions generalizing s with
  | nil => simp
  | cons action rest ih =>
    obtain ⟨u, stepped, later⟩ := Option.bind_eq_some_iff.mp run
    have after := ih (blocked.step calls stepped) (calls.step stepped) later
    intro call member
    rcases List.mem_cons.mp member with rfl | inRest
    · rintro rfl
      obtain ⟨waiting, _, rfl⟩ := step_answered stepped
      refine not_doomed_of_run later fine (.inr ⟨_, List.mem_append_right _ List.mem_cons_self, ?_⟩)
      rw [(calls.reading call waiting).1]
      exact blocked.view calls
    · exact after call inRest

theorem readsFirst_of_run (calls : Calls list s) (run : Runs.exec step s actions = some t) (fine : ¬ Doomed t) : ReadsFirst actions := by
  induction actions generalizing s with
  | nil => exact .nil
  | cons action rest ih =>
    obtain ⟨u, stepped, later⟩ := Option.bind_eq_some_iff.mp run
    have after := calls.step stepped
    refine .cons ?_ (ih after later)
    rintro _ member call rfl
    constructor
    · rintro client write rfl
      obtain ⟨waiting, rfl⟩ := step_applied stepped
      obtain ⟨other, usersDict, same, rfl⟩ := calls.writing _ waiting
      exact Blocked.noAnswers (.inl (users_gone same.1 usersDict s.db)) after later fine call member rfl
    · rintro other usersSnapshot rfl sameClient
      obtain ⟨_, _, ⟨usersDict, _, rfl⟩ | ⟨_, rfl⟩⟩ := step_handled stepped
      · refine Blocked.noAnswers (.inr ?_) after later fine call member sameClient.symm
        exact List.ne_nil_of_mem (mem_ownWrites.mpr (List.mem_append_right _ List.mem_cons_self))
      · exact not_doomed_of_run later fine (.inl (by simp))

/-! ## All reads before all writes -/

/-- Nothing but the users at the start has been read, and the database is as at the start or as after one call. -/
structure Reading (db : Database) (list : ListObject) (usersDict : Snapshot) (s : State) : Prop where
  calls : Calls list s
  unstopped : s.stopped = []
  raised : ∀ answer ∈ s.raised, dictionary? answer.2 = some usersDict
  writing : ∀ sent ∈ s.writing, ∃ other, sent.2 = .removeList other usersDict.childKeys
  db : (s.db = db ∧ (s.reading ≠ [] ∨ s.raised ≠ [] ∨ s.writing ≠ [])) ∨ s.db = (Write.removeList list usersDict.childKeys).apply db

/-- The reads to come see no write. -/
def Clear (db : Database) (s : State) (actions : List Action) : Prop :=
  ∀ call, .answered call ∈ actions → s.db = db ∧ ownWrites s.writing call.client = []

variable {db : Database} {usersDict : Snapshot}

theorem Reading.step (state : Reading db list usersDict s) (read : dictionary? (db.sub (listUsersDbRef list.id.val)) = some usersDict)
    (clear : Clear db s (action :: actions)) (stepped : RepeatedRemoval.step s action = some t) : Reading db list usersDict t := by
  have after := state.calls.step stepped
  cases action with
  | answered call =>
    obtain ⟨waiting, _, rfl⟩ := step_answered stepped
    obtain ⟨unchanged, noWrites⟩ := clear call List.mem_cons_self
    have sees : dictionary? ((s.view call.client).sub (listUsersDbRef call.list.id.val)) = some usersDict := by
      rw [State.view, noWrites, unchanged, (state.calls.reading call waiting).1]
      exact read
    exact ⟨after, state.unstopped, List.forall_mem_append.mpr ⟨state.raised, by simpa using sees⟩, state.writing,
      state.db.imp_left fun start => ⟨start.1, .inr (.inl (by simp))⟩⟩
  | handled call usersSnapshot =>
    obtain ⟨waiting, _, ⟨_, dictionary, rfl⟩ | ⟨unread, rfl⟩⟩ := step_handled stepped
    · obtain rfl := Option.some.inj ((state.raised _ waiting).symm.trans dictionary)
      exact ⟨after, state.unstopped, fun answer member => state.raised answer (List.mem_of_mem_erase member),
        List.forall_mem_append.mpr ⟨state.writing, by simp⟩, state.db.imp_left fun start => ⟨start.1, .inr (.inr (by simp))⟩⟩
    · rw [state.raised _ waiting] at unread
      cases unread
  | applied client write =>
    obtain ⟨waiting, rfl⟩ := step_applied stepped
    refine ⟨after, state.unstopped, state.raised, fun sent member => state.writing sent (List.mem_of_mem_erase member), .inr ?_⟩
    -- Whichever call it is of, the write is that of the list.
    obtain ⟨other, isRemoval⟩ := state.writing _ waiting
    obtain ⟨caller, _, same, isCall⟩ := state.calls.writing _ waiting
    obtain ⟨rfl, rfl⟩ := Write.removeList.inj (isRemoval.symm.trans isCall)
    show Write.apply write s.db = _
    rw [show write = _ from isRemoval, apply_congr same usersDict.childKeys s.db]
    rcases state.db with ⟨start, _⟩ | once
    · rw [start]
    · rw [once, apply_twice]

theorem Clear.step (clear : Clear db s (action :: actions)) (first : ReadsFirst (action :: actions))
    (stepped : RepeatedRemoval.step s action = some t) : Clear db t actions := by
  intro call member
  obtain ⟨unchanged, noWrites⟩ := clear call (List.mem_cons_of_mem _ member)
  obtain ⟨noneApplied, noneHandled⟩ := (List.pairwise_cons.mp first).1 _ member call rfl
  cases action with
  | answered other =>
    obtain ⟨_, _, rfl⟩ := step_answered stepped
    exact ⟨unchanged, noWrites⟩
  | handled other usersSnapshot =>
    have otherClient := noneHandled other usersSnapshot rfl
    obtain ⟨_, _, ⟨_, _, rfl⟩ | ⟨_, rfl⟩⟩ := step_handled stepped
    · refine ⟨unchanged, ?_⟩
      simp only [ownWrites, List.filter_append, List.map_append] at noWrites ⊢
      rw [noWrites]
      simp [otherClient]
    · exact ⟨unchanged, noWrites⟩
  | applied client write => exact absurd rfl (noneApplied client write)

theorem Reading.run (state : Reading db list usersDict s) (read : dictionary? (db.sub (listUsersDbRef list.id.val)) = some usersDict)
    (first : ReadsFirst actions) (clear : Clear db s actions) (run : Runs.exec RepeatedRemoval.step s actions = some t) :
    Reading db list usersDict t := by
  induction actions generalizing s with
  | nil =>
    cases run
    exact state
  | cons action rest ih =>
    obtain ⟨u, stepped, later⟩ := Option.bind_eq_some_iff.mp run
    exact ih (state.step read clear stepped) (List.pairwise_cons.mp first).2 (clear.step first stepped) later

/-! ## The whole run -/

/-- When all calls of `RemoveList` for a list have ended, none has stopped and the
    database is as after one call exactly when the users map was there at the start
    and every read was answered before a write was applied, and before another call
    had issued one on its client. -/
theorem asOnce_iff {calls : List Call} (several : calls ≠ []) (same : ∀ call ∈ calls, SameList call.list list)
    (run : Runs.exec step (.start db calls) actions = some t) (ended : Ended t) :
    AsOnce db list t ↔ (dictionary? (db.sub (listUsersDbRef list.id.val))).isSome ∧ ReadsFirst actions := by
  have started : Calls list (.start db calls) := ⟨same, by simp [State.start], by simp [State.start]⟩
  constructor
  · rintro ⟨unstopped, once⟩
    refine ⟨?_, readsFirst_of_run started run (ended.not_doomed unstopped)⟩
    obtain ⟨usersDict, read, _⟩ := Option.map_eq_some_iff.mp once
    exact Option.isSome_iff_exists.mpr ⟨usersDict, read⟩
  · rintro ⟨there, first⟩
    obtain ⟨usersDict, read⟩ := Option.isSome_iff_exists.mp there
    have reading : Reading db list usersDict (.start db calls) :=
      ⟨started, rfl, by simp [State.start], by simp [State.start], .inl ⟨rfl, .inl several⟩⟩
    have final := reading.run read first (fun _ _ => ⟨rfl, rfl⟩) run
    have runs : ∀ client, t.Runs client := by simp [State.Runs, final.unstopped]
    refine ⟨final.unstopped, ?_⟩
    rw [removeList, read, Option.map_some]
    rcases final.db with ⟨_, waits | waits | waits⟩ | once
    · obtain ⟨call, member⟩ := List.exists_mem_of_ne_nil _ waits
      exact absurd (runs _) (ended.reading call member)
    · obtain ⟨answer, member⟩ := List.exists_mem_of_ne_nil _ waits
      exact absurd (runs _) (ended.raised answer member)
    · obtain ⟨sent, member⟩ := List.exists_mem_of_ne_nil _ waits
      exact absurd (runs _) (ended.writing sent member)
    · rw [once]
      rfl

/-- A call of Alice's client, and one of another client of hers. -/
def firstCall : Call := ⟨0, Sample.aliceCall.object⟩
def otherCall : Call := ⟨1, Sample.aliceCall.object⟩
def removal : Write := .removeList Sample.aliceCall.object [Sample.alice]

/-- Alice deletes the list twice on one client, whose second read finds its own write on its way. -/
def deletedTwiceRun : List Action :=
  [.answered firstCall, .handled firstCall Sample.aliceUsers, .answered firstCall, .handled firstCall null, .applied 0 removal]

theorem second_removal_stops : ¬ ∀ (db : Database) (list : ListObject) (calls : List Call) (actions : List Action) (t : State),
    2 ≤ calls.length → (∀ call ∈ calls, SameList call.list list) → Runs.exec step (.start db calls) actions = some t →
    Ended t → AsOnce db list t := by
  intro claim
  have passed : (Runs.exec step (.start Sample.listDb [firstCall, firstCall]) deletedTwiceRun).any
      (fun t => decide (t.reading = [] ∧ t.raised = [] ∧ t.writing = [] ∧ t.stopped ≠ [])) = true := by decide +kernel
  obtain ⟨t, run, ends⟩ := (Option.any_eq_true _ _).mp passed
  obtain ⟨read, raised, written, stopped⟩ := of_decide_eq_true ends
  refine stopped (claim Sample.listDb Sample.aliceCall.object _ deletedTwiceRun t ?_ ?_ run ⟨?_, ?_, ?_⟩).1
  · decide
  · simp [SameList, firstCall]
  · simp [read]
  · simp [raised]
  · simp [written]

/-- All three reads are answered before a block runs. -/
def sideBySideRun : List Action :=
  [.answered firstCall, .answered otherCall, .answered firstCall, .handled firstCall Sample.aliceUsers,
   .handled otherCall Sample.aliceUsers, .applied 0 removal, .handled firstCall Sample.aliceUsers, .applied 1 removal, .applied 0 removal]

theorem asOnce_iff_sideBySideRun :
    ∃ t, Runs.exec step (.start Sample.listDb [firstCall, otherCall, firstCall]) sideBySideRun = some t ∧
      AsOnce Sample.listDb Sample.aliceCall.object t := by
  have passed : (Runs.exec step (.start Sample.listDb [firstCall, otherCall, firstCall]) sideBySideRun).any
      (fun t => decide (t.reading = [] ∧ t.raised = [] ∧ t.writing = [])) = true := by decide +kernel
  obtain ⟨t, run, ends⟩ := (Option.any_eq_true _ _).mp passed
  obtain ⟨read, raised, written⟩ := of_decide_eq_true ends
  have same : ∀ call ∈ [firstCall, otherCall, firstCall], SameList call.list Sample.aliceCall.object := by
    simp [SameList, firstCall, otherCall]
  have once := asOnce_iff (List.cons_ne_nil _ _) same run ⟨by simp [read], by simp [raised], by simp [written]⟩
  refine ⟨t, run, once.mpr ⟨by decide +kernel, ?_⟩⟩
  simp [ReadsFirst, sideBySideRun]

end SharedList.RepeatedRemoval
