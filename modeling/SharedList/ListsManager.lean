import SharedList.Observers
import SharedList.Records
import SharedList.Replicas

/-!
`ListsManager`: the lists of the signed-in user, loaded once and kept up to
date by two observers of the user's list keys. Each handler is a function of
the manager's state; `none` is a cast that fails, or an answer that no read
waits for. The manager is a replica of the keys: `data` holds them, and a read
started by `ListsKeysChildAdded` fetches one.
-/
namespace SharedList.ListsManager

/-- The calls of `ListsManagerDelegate`. -/
inductive DelegateCall where
  | dataLoaded | newListAdded | listRemoved | listUpdated
deriving DecidableEq

/-- A call that leaves the manager: of its delegate, or `AddObserver` of its `ObserversHandler`. -/
inductive Call where
  | delegate (call : DelegateCall)
  | addObserver (eventType : Observers.DataEventType)
deriving DecidableEq

def Call.delegate? : Call → Option DelegateCall
  | .delegate call => some call
  | .addObserver _ => none

/-- How far the one call of `LoadData` has come; `listsCounter` is the variable its closures share. -/
inductive Load where
  | notCalled
  | awaitingKeys
  | loading (listsCounter : Int)
deriving DecidableEq

structure State where
  /-- The weak reference still leads to a delegate. -/
  delegate : Bool
  observerActive : Bool
  data : List ListObject
  /-- Entries no longer in `data`. Entry and `ChangedObserver` hold each other, so
      the registration stays and still reports changes. -/
  dropped : List ListObject
  load : Load
  /-- The list reads of `LoadData` that wait for their answers. -/
  loadReads : List Key
  /-- Those of `ListsKeysChildAdded`. -/
  addReads : List Key
  /-- All calls made so far, in order. -/
  made : List Call
deriving DecidableEq

namespace State

/-- A manager as `init` leaves it, with its delegate set. -/
def new : State := ⟨true, false, [], [], .notCalled, [], [], []⟩

def ids (s : State) : List Key := s.data.map ListObject.id

/-- The calls of the delegate. -/
def calls (s : State) : List DelegateCall := s.made.filterMap Call.delegate?

/-- `if let del = self.delegate { del.<call>() }`. -/
def tell (s : State) (call : DelegateCall) : State := if s.delegate then { s with made := s.made ++ [.delegate call] } else s

/-- `AddObserver` for the two events of the list keys. -/
def registrations : List Call := [.addObserver .childAdded, .addObserver .childRemoved]

def activateObservers (s : State) : State :=
  if s.observerActive = false then { s with made := s.made ++ registrations, observerActive := true } else s

def findListIndex (s : State) (id : Key) : Option Nat := s.data.findIdx? (fun list => list.id = id)

def addListWithObserver (s : State) (id : Key) (listSnapshot : Snapshot) : Option State := do
  let newList ← ListObject.read id listSnapshot
  return { s with data := s.data ++ [newList] }

def loadData (s : State) : Option State := if s.load = .notCalled then some { s with load := .awaitingKeys } else none

/-- The answer to the read of the user's list keys. -/
def keysAnswered (s : State) (listsSnapshot : Snapshot) : Option State :=
  if s.load = .awaitingKeys then
    if listsSnapshot.leaves = [] then
      let answered := { s with load := .loading 0 }
      some (if s.delegate then activateObservers (answered.tell .dataLoaded) else answered)
    else do
      let listsIds ← dictionary? listsSnapshot
      return { s with load := .loading listsIds.childKeys.length, loadReads := listsIds.childKeys }
  else none

/-- The answer to a list read of `LoadData`. -/
def loadReadAnswered (s : State) (listId : Key) (listSnapshot : Snapshot) : Option State :=
  match s.load with
  | .loading listsCounter =>
    if listId ∈ s.loadReads then do
      let added ← { s with loadReads := s.loadReads.erase listId }.addListWithObserver listId listSnapshot
      let counted := { added with load := .loading (listsCounter - 1) }
      return if counted.delegate then
          if listsCounter - 1 = 0 then activateObservers (counted.tell .dataLoaded) else counted.tell .newListAdded
        else counted
    else none
  | _ => none

def listsKeysChildAdded (s : State) (listId : Key) : State :=
  if (s.findListIndex listId).isSome then s else { s with addReads := s.addReads ++ [listId] }

/-- The answer to the list read of `ListsKeysChildAdded`. -/
def addReadAnswered (s : State) (listId : Key) (listSnapshot : Snapshot) : Option State :=
  if listId ∈ s.addReads then do
    let added ← { s with addReads := s.addReads.erase listId }.addListWithObserver listId listSnapshot
    return added.tell .newListAdded
  else none

def listsKeysChildRemoved (s : State) (listId : Key) : State :=
  match s.findListIndex listId with
  | some listIndex =>
    { s with data := s.data.eraseIdx listIndex, dropped := s.dropped ++ s.data[listIndex]?.toList }.tell .listRemoved
  | none => s

/-- `Updated` of one entry, for a change of the record `lists/<id>`. -/
def updated (id field : Key) (value : Option Value) (list : ListObject) : ListObject :=
  if list.id = id then list.update [(field, value)] else list

/-- A change of `lists/<id>/<field>` reaches every entry that was made for the id. -/
def listChanged (s : State) (id field : Key) (value : Option Value) : State :=
  let entries := { s with data := s.data.map (updated id field value), dropped := s.dropped.map (updated id field value) }
  ((s.data ++ s.dropped).filter (fun list => list.id = id)).foldl (fun s _ => s.tell .listUpdated) entries

end State

inductive Input where
  | loadData
  | keysAnswered (listsSnapshot : Snapshot)
  | loadReadAnswered (listId : Key) (listSnapshot : Snapshot)
  /-- An event of the observers of the list keys. -/
  | child (event : ChildEvent Key)
  | addReadAnswered (listId : Key) (listSnapshot : Snapshot)
  | listChanged (id field : Key) (value : Option Value)
  | delegateGone

def handle (s : State) : Input → Option State
  | .loadData => s.loadData
  | .keysAnswered listsSnapshot => s.keysAnswered listsSnapshot
  | .loadReadAnswered listId listSnapshot => s.loadReadAnswered listId listSnapshot
  | .child (.added listId) => some (s.listsKeysChildAdded listId)
  | .child (.removed listId) => some (s.listsKeysChildRemoved listId)
  | .addReadAnswered listId listSnapshot => s.addReadAnswered listId listSnapshot
  | .listChanged id field value => some (s.listChanged id field value)
  | .delegateGone => some { s with delegate := false }

/-- A manager and the events it has handled, newest first. -/
structure Session where
  manager : State
  history : List (ChildEvent Key)

namespace Session

def new : Session := ⟨State.new, []⟩

/-- One input; events come once the observers are active, and for each key an
    addition and a removal in turn. -/
def step (s : Session) : Input → Option Session
  | .child event =>
    if s.manager.observerActive ∧ Possible s.history event then
      (handle s.manager (.child event)).map (fun manager => ⟨manager, event :: s.history⟩)
    else none
  | input => (handle s.manager input).map (fun manager => ⟨manager, s.history⟩)

def replica (s : Session) : Replica Key := ⟨s.manager.ids, s.manager.addReads, s.history⟩

/-- What an input does to the replica. -/
def move : Input → Replica.Move Key
  | .loadReadAnswered listId _ => .load listId
  | .child event => .hear event
  | .addReadAnswered listId _ => .fetch listId
  | _ => .stay

end Session

/-! ## What the handlers do -/

namespace State

@[simp] theorem tell_data (s : State) (call : DelegateCall) : (s.tell call).data = s.data := by unfold tell; split <;> rfl
@[simp] theorem tell_load (s : State) (call : DelegateCall) : (s.tell call).load = s.load := by unfold tell; split <;> rfl
@[simp] theorem tell_loadReads (s : State) (call : DelegateCall) : (s.tell call).loadReads = s.loadReads := by
  unfold tell; split <;> rfl
@[simp] theorem tell_addReads (s : State) (call : DelegateCall) : (s.tell call).addReads = s.addReads := by
  unfold tell; split <;> rfl
@[simp] theorem tell_observerActive (s : State) (call : DelegateCall) :
    (s.tell call).observerActive = s.observerActive := by unfold tell; split <;> rfl

@[simp] theorem activateObservers_data (s : State) : s.activateObservers.data = s.data := by
  unfold activateObservers; split <;> rfl
@[simp] theorem activateObservers_load (s : State) : s.activateObservers.load = s.load := by
  unfold activateObservers; split <;> rfl
@[simp] theorem activateObservers_loadReads (s : State) : s.activateObservers.loadReads = s.loadReads := by
  unfold activateObservers; split <;> rfl
@[simp] theorem activateObservers_addReads (s : State) : s.activateObservers.addReads = s.addReads := by
  unfold activateObservers; split <;> rfl
@[simp] theorem activateObservers_observerActive (s : State) : s.activateObservers.observerActive = true := by
  unfold activateObservers; cases active : s.observerActive <;> simp [active]

theorem findListIndex_isSome {s : State} {id : Key} : (s.findListIndex id).isSome ↔ id ∈ s.ids := by
  simp [findListIndex, ids, List.findIdx?_isSome]

/-- What stays the same besides the ids of `data`. -/
def SameLoading (s t : State) : Prop :=
  t.load = s.load ∧ t.loadReads = s.loadReads ∧ t.addReads = s.addReads ∧ t.observerActive = s.observerActive

theorem addListWithObserver_spec {s t : State} {id : Key} {listSnapshot : Snapshot}
    (added : s.addListWithObserver id listSnapshot = some t) : t.ids = s.ids ++ [id] ∧ SameLoading s t := by
  simp only [addListWithObserver, Option.bind_eq_bind, Option.pure_def, Option.bind_eq_some_iff, Option.some.injEq] at added
  obtain ⟨list, read, rfl⟩ := added
  have listId := (ListObject.deserialize_eq_some.mp (ListObject.read_eq_some.mp read)).1
  exact ⟨by simp [ids, listId], rfl, rfl, rfl, rfl⟩

theorem keysAnswered_spec {s t : State} {listsSnapshot : Snapshot} (answered : s.keysAnswered listsSnapshot = some t) :
    s.load = .awaitingKeys ∧ t.ids = s.ids ∧ t.addReads = s.addReads ∧
      ((t.load = .loading 0 ∧ t.loadReads = s.loadReads ∧ (t.observerActive = s.observerActive ∨ t.observerActive = true)) ∨
        (t.load = .loading listsSnapshot.childKeys.length ∧ t.loadReads = listsSnapshot.childKeys ∧
          t.observerActive = s.observerActive)) := by
  unfold keysAnswered at answered
  split at answered
  · rename_i awaiting
    refine ⟨awaiting, ?_⟩
    split at answered
    · cases answered
      split
      · simp [ids]
      · simp [ids]
    · simp only [Option.bind_eq_bind, Option.pure_def, Option.bind_eq_some_iff, Option.some.injEq] at answered
      obtain ⟨listsIds, dictionary, rfl⟩ := answered
      obtain ⟨rfl, _⟩ := dictionary?_eq_some dictionary
      exact ⟨rfl, rfl, .inr ⟨rfl, rfl, rfl⟩⟩
  · cases answered

theorem loadReadAnswered_spec {s t : State} {listId : Key} {listSnapshot : Snapshot}
    (answered : s.loadReadAnswered listId listSnapshot = some t) :
    ∃ listsCounter, s.load = .loading listsCounter ∧ listId ∈ s.loadReads ∧ t.ids = s.ids ++ [listId] ∧
      t.load = .loading (listsCounter - 1) ∧ t.loadReads = s.loadReads.erase listId ∧ t.addReads = s.addReads ∧
      (t.observerActive = s.observerActive ∨ (listsCounter - 1 = 0 ∧ t.observerActive = true)) := by
  unfold loadReadAnswered at answered
  split at answered
  · rename_i listsCounter loading
    simp only [Option.ite_none_right_eq_some, Option.bind_eq_bind, Option.pure_def, Option.bind_eq_some_iff,
      Option.some.injEq] at answered
    obtain ⟨waiting, added, appended, rfl⟩ := answered
    obtain ⟨newIds, _, sameReads, sameAdds, sameActive⟩ := addListWithObserver_spec appended
    refine ⟨listsCounter, loading, waiting, ?_⟩
    unfold ids at newIds ⊢
    split
    · split
      · rename_i done
        simp [newIds, sameReads, sameAdds, done]
      · simp [newIds, sameReads, sameAdds, sameActive]
    · simp [newIds, sameReads, sameAdds, sameActive]
  · cases answered

theorem listsKeysChildAdded_spec (s : State) (listId : Key) :
    (s.listsKeysChildAdded listId).ids = s.ids ∧
      (s.listsKeysChildAdded listId).addReads = (if listId ∈ s.ids then s.addReads else s.addReads ++ [listId]) ∧
      (s.listsKeysChildAdded listId).load = s.load ∧ (s.listsKeysChildAdded listId).loadReads = s.loadReads ∧
      (s.listsKeysChildAdded listId).observerActive = s.observerActive := by
  unfold listsKeysChildAdded
  by_cases held : listId ∈ s.ids
  · rw [if_pos (findListIndex_isSome.mpr held), if_pos held]
    exact ⟨rfl, rfl, rfl, rfl, rfl⟩
  · rw [if_neg (fun found => held (findListIndex_isSome.mp found)), if_neg held]
    exact ⟨rfl, rfl, rfl, rfl, rfl⟩

theorem addReadAnswered_spec {s t : State} {listId : Key} {listSnapshot : Snapshot}
    (answered : s.addReadAnswered listId listSnapshot = some t) :
    listId ∈ s.addReads ∧ t.ids = s.ids ++ [listId] ∧ t.addReads = s.addReads.erase listId ∧
      t.load = s.load ∧ t.loadReads = s.loadReads ∧ t.observerActive = s.observerActive := by
  simp only [addReadAnswered, Option.ite_none_right_eq_some, Option.bind_eq_bind, Option.pure_def,
    Option.bind_eq_some_iff, Option.some.injEq] at answered
  obtain ⟨waiting, added, appended, rfl⟩ := answered
  obtain ⟨newIds, sameLoad, sameReads, sameAdds, sameActive⟩ := addListWithObserver_spec appended
  refine ⟨waiting, ?_⟩
  unfold ids at newIds ⊢
  simp [newIds, sameLoad, sameReads, sameAdds, sameActive]

theorem listsKeysChildRemoved_spec (s : State) (listId : Key) :
    (s.listsKeysChildRemoved listId).ids = s.ids.erase listId ∧ SameLoading s (s.listsKeysChildRemoved listId) := by
  have erased : s.ids.erase listId = (s.data.eraseP (fun list => list.id = listId)).map ListObject.id := by
    rw [ids, List.erase_eq_eraseP', List.eraseP_map]
    rfl
  unfold listsKeysChildRemoved
  rw [erased, List.eraseP_eq_eraseIdx]
  unfold findListIndex
  split
  · rename_i listIndex found
    simp [SameLoading, ids, found]
  · rename_i missing
    simp [SameLoading, ids, missing]

theorem map_updated_id (id field : Key) (value : Option Value) (entries : List ListObject) :
    (entries.map (updated id field value)).map ListObject.id = entries.map ListObject.id := by
  rw [List.map_map]
  refine List.map_congr_left fun list _ => ?_
  simp only [Function.comp_apply, updated]
  split
  · exact ListObject.update_id ..
  · rfl

theorem listChanged_spec (s : State) (id field : Key) (value : Option Value) :
    (s.listChanged id field value).ids = s.ids ∧ SameLoading s (s.listChanged id field value) := by
  have tells : ∀ (entries : List ListObject) (s : State),
      (entries.foldl (fun s _ => s.tell .listUpdated) s).ids = s.ids ∧
        SameLoading s (entries.foldl (fun s _ => s.tell .listUpdated) s) := by
    intro entries
    induction entries with
    | nil => exact fun s => ⟨rfl, rfl, rfl, rfl, rfl⟩
    | cons _ rest ih =>
      intro s
      obtain ⟨sameIds, sameLoading⟩ := ih (s.tell .listUpdated)
      refine ⟨sameIds.trans (by simp [ids]), ?_⟩
      simpa [SameLoading] using sameLoading
  obtain ⟨sameIds, sameLoading⟩ := tells ((s.data ++ s.dropped).filter (fun list => list.id = id))
    { s with data := s.data.map (updated id field value), dropped := s.dropped.map (updated id field value) }
  exact ⟨sameIds.trans (map_updated_id id field value s.data), sameLoading⟩

end State

/-- The observers stay active. -/
theorem handle_observerActive {s t : State} {input : Input} (handled : handle s input = some t)
    (active : s.observerActive = true) : t.observerActive = true := by
  cases input with
  | loadData =>
    obtain ⟨_, rfl⟩ := Option.ite_none_right_eq_some.mp handled |>.imp_right Option.some.inj
    exact active
  | keysAnswered listsSnapshot =>
    obtain ⟨_, _, _, ⟨_, _, same | now⟩ | ⟨_, _, same⟩⟩ := State.keysAnswered_spec handled
    · exact same.trans active
    · exact now
    · exact same.trans active
  | loadReadAnswered listId listSnapshot =>
    obtain ⟨_, _, _, _, _, _, _, same | ⟨_, now⟩⟩ := State.loadReadAnswered_spec handled
    · exact same.trans active
    · exact now
  | child event =>
    cases event with
    | added listId =>
      cases handled
      exact (State.listsKeysChildAdded_spec s listId).2.2.2.2.trans active
    | removed listId =>
      cases handled
      exact (State.listsKeysChildRemoved_spec s listId).2.2.2.2.trans active
  | addReadAnswered listId listSnapshot => exact (State.addReadAnswered_spec handled).2.2.2.2.2.trans active
  | listChanged id field value =>
    cases handled
    exact (State.listChanged_spec s id field value).2.2.2.2.trans active
  | delegateGone =>
    cases handled
    exact active

end SharedList.ListsManager
