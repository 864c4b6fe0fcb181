import SharedList.ItemRecords
import SharedList.SingleListManager

/-!
A list that is open on one client while others, the one that removes it among
them, go on writing. A callback that reaches a failing cast stops the app. Each
entry's names are read from the list's users map, and the answer may have been
taken after the removal.
-/
namespace SharedList.SingleListManager
open FrbUtils

/-- A child of the item table, as `LoadData` and `ItemsChildAdded` decode it. -/
def readItem (itemsId : String) (itemId : Key) (itemSnapshot : Snapshot) : Option Item :=
  (dictionary? itemSnapshot).bind (Item.deserialize itemsId itemId)

/-- `LoadData` can decode the table: nothing is there, or a record at each key. -/
def Readable (itemsId : String) (itemsTableSnapshot : Snapshot) : Prop :=
  itemsTableSnapshot.leaves = [] ∨ ∃ data, dictionary? itemsTableSnapshot = some data ∧
    ∀ itemId ∈ data.childKeys, (readItem itemsId itemId (data.sub [itemId])).isSome

namespace State

/-- The items that callbacks may still name. -/
def refs (s : State) : List Nat := (s.data ++ s.dropped).map ItemWithObserver.ref

/-- No item is forgotten, and every new read of the names is for an item. -/
structure Grows (s t : State) : Prop where
  list : t.list = s.list
  refs : ∀ ref ∈ s.refs, ref ∈ t.refs
  reads : ∀ read ∈ t.nameReads, read ∈ s.nameReads ∨ read.ref ∈ t.refs

theorem object_isSome {s : State} {ref : Nat} : (s.object ref).isSome ↔ ref ∈ s.refs := by
  simp [object, refs, List.find?_isSome]

theorem Grows.refl (s : State) : Grows s s := ⟨rfl, fun _ member => member, fun _ waiting => .inl waiting⟩

theorem Grows.trans {s t u : State} (first : Grows s t) (second : Grows t u) : Grows s u := by
  refine ⟨second.list.trans first.list, fun ref member => second.refs ref (first.refs ref member), ?_⟩
  intro read waiting
  rcases second.reads read waiting with old | new
  · exact (first.reads read old).imp_right (second.refs read.ref)
  · exact .inr new

theorem SameItems.grows {s t : State} (same : SameItems s t) : Grows s t := by
  obtain ⟨list, data, dropped, _, _, nameReads⟩ := same
  refine ⟨list, ?_, ?_⟩
  · intro ref member
    rwa [State.refs, data, dropped]
  · intro read waiting
    rw [nameReads] at waiting
    exact .inl waiting

theorem addLoadedItem_grows {s t : State} {id : Key} {data : Snapshot} {lastItem : Bool}
    (added : s.addLoadedItem id data lastItem = some t) : Grows s t := by
  obtain ⟨newItem, _, rfl⟩ := addLoadedItem_eq_some.mp added
  refine ⟨rfl, ?_, ?_⟩
  · intro ref member
    simp only [refs, List.map_append, List.mem_append] at member ⊢
    exact member.imp_left .inl
  · intro read waiting
    rcases List.mem_append.mp waiting with old | new
    · exact .inl old
    · rw [List.mem_singleton.mp new]
      exact .inr (by simp [refs])

/-- All of the keys decode, or the loop stops the app. -/
theorem addLoadedItems_isSome {data : Snapshot} {itemsIds : List Key} {s : State} :
    (addLoadedItems data s itemsIds).isSome ↔
      ∀ itemId ∈ itemsIds, (readItem s.list.items_id itemId (data.sub [itemId])).isSome := by
  induction itemsIds generalizing s with
  | nil => simp [addLoadedItems]
  | cons itemId rest ih =>
    rw [List.forall_mem_cons]
    simp only [addLoadedItems, readItem, Option.bind_eq_bind]
    cases dictionary : dictionary? (data.sub [itemId]) with
    | none => simp
    | some itemData =>
      cases decoded : Item.deserialize s.list.items_id itemId itemData with
      | none => simp [addLoadedItem, decoded]
      | some newItem =>
        simp only [addLoadedItem, decoded, Option.bind_some, Option.bind_eq_bind, Option.pure_def, ih,
          Option.isSome_some, true_and]
        rfl

theorem modify_refs (s : State) (ref : Nat) (change : Item → Item) : (s.modify ref change).refs = s.refs := by
  simp only [refs, modify, ← List.map_append, List.map_map]
  refine List.map_congr_left fun entry _ => ?_
  simp only [Function.comp_apply]
  split <;> rfl

theorem itemsAnswered_grows {s t : State} {itemsTableSnapshot : Snapshot} {itemsIds : List Key}
    (answered : s.itemsAnswered itemsTableSnapshot itemsIds = some t) : Grows s t := by
  have loading : Grows s { s with load := .answered } := ⟨rfl, fun _ member => member, fun _ waiting => .inl waiting⟩
  exact itemsAnswered_keep (fun grows same => grows.trans same.grows) (fun grows added => grows.trans (addLoadedItem_grows added))
    loading answered

theorem namesAnswered_grows {s t : State} {read : NameRead} {usersSnapshot : Snapshot}
    (answered : s.namesAnswered read usersSnapshot = some t) : Grows s t := by
  obtain ⟨_, _, _, _, _, authorName, _, checkedByName, _, rfl⟩ := namesAnswered_eq_some.mp answered
  have sameRefs := modify_refs { s with nameReads := s.nameReads.erase read } read.ref (setNames authorName checkedByName)
  have completed := complete_sameItems
    ({ s with nameReads := s.nameReads.erase read }.modify read.ref (setNames authorName checkedByName)) read.completion
  refine Grows.trans ?_ completed.1.grows
  refine ⟨rfl, ?_, ?_⟩
  · intro ref member
    exact sameRefs.symm ▸ member
  · exact fun other waiting => .inl (List.mem_of_mem_erase waiting)

theorem itemUpdated_grows {s t : State} {ref : Nat} {field : Key} {value : Option Value}
    (updated : s.itemUpdated ref field value = some t) : Grows s t := by
  obtain ⟨entry, found, rfl⟩ := itemUpdated_eq_some.mp updated
  have sameRefs := modify_refs s entry.ref (fun item => item.update [(field, value)])
  refine ⟨rfl, ?_, ?_⟩
  · intro other member
    exact sameRefs.symm ▸ member
  · intro read waiting
    rcases List.mem_append.mp waiting with old | new
    · exact .inl old
    · rw [List.mem_singleton.mp new]
      refine .inr (sameRefs.symm ▸ ?_)
      exact List.mem_map.mpr ⟨entry, List.mem_of_find?_eq_some found, rfl⟩

theorem itemsChildRemoved_grows (s : State) (itemId : Key) : Grows s (s.itemsChildRemoved itemId) := by
  unfold itemsChildRemoved
  split
  · rename_i itemIndex found
    obtain ⟨inside, _⟩ := List.findIdx?_eq_some_iff_getElem.mp found
    have told := tell_sameItems { s with data := s.data.eraseIdx itemIndex,
                                         dropped := s.dropped ++ s.data[itemIndex]?.toList } .itemRemoved
    refine Grows.trans ?_ told.1.grows
    refine ⟨rfl, ?_, fun _ waiting => .inl waiting⟩
    -- The entry at the index moves to the end of `dropped`.
    have entries : (s.data[itemIndex] :: s.data.eraseIdx itemIndex).Perm s.data := List.getElem_cons_eraseIdx_perm inside
    intro ref member
    obtain ⟨entry, listed, rfl⟩ := List.mem_map.mp member
    refine List.mem_map.mpr ⟨entry, ?_, rfl⟩
    rw [List.mem_append] at listed
    rw [List.getElem?_eq_getElem inside, Option.toList_some]
    simp only [List.mem_append, List.mem_singleton]
    rcases listed with held | gone
    · rcases List.mem_cons.mp (entries.mem_iff.mpr held) with rfl | stays
      · exact .inr (.inr rfl)
      · exact .inl stays
    · exact .inr (.inl gone)
  · exact .refl s

end State

theorem handle_grows {s t : State} {input : Input} (handled : handle s input = some t) : State.Grows s t := by
  cases input with
  | loadData =>
    obtain ⟨_, rfl⟩ := Option.ite_none_right_eq_some.mp handled |>.imp_right Option.some.inj
    exact ⟨rfl, fun _ member => member, fun _ waiting => .inl waiting⟩
  | itemsAnswered => exact State.itemsAnswered_grows handled
  | namesAnswered => exact State.namesAnswered_grows handled
  | itemsChildAdded itemId itemSnapshot =>
    rcases State.itemsChildAdded_cases handled with ⟨_, rfl⟩ | ⟨_, itemDict, _, added⟩
    · exact .refl _
    · exact State.addLoadedItem_grows added
  | itemsChildRemoved itemId =>
    cases handled
    exact State.itemsChildRemoved_grows s itemId
  | itemUpdated => exact State.itemUpdated_grows handled
  | delegateGone =>
    cases handled
    exact ⟨rfl, fun _ member => member, fun _ waiting => .inl waiting⟩

/-! ## Runs -/

/-- A manager for a list, among the clients. -/
structure OpenList where
  world : World
  manager : State
  /-- What the server has answered to `LoadData`. -/
  itemsTaken : Option Snapshot
  /-- What the server has answered to the reads of `LoadUserNames`. -/
  namesTaken : List (NameRead × Snapshot)
  /-- The events of the observers that are not handled yet. -/
  raised : List Input
  crashed : Bool

namespace OpenList

def start (world : World) (list : ListObject) : OpenList := ⟨world, State.new list, none, [], [], false⟩

/-- The node that the manager reads and observes. -/
def table (s : OpenList) : Snapshot := s.world.db.sub (child (itemsDbRef s.manager.list.items_id) Keys.items.val)

inductive Action where
  | client (action : SharedList.Action)
  | itemsRead
  | namesRead (read : NameRead)
  | raise (event : Input)
  | callback (input : Input)

/-- The events that the database can raise now: for registered observers, with the
    record that is there. -/
def Raises (s : OpenList) : Input → Prop
  | .itemsChildAdded itemId itemSnapshot =>
    s.manager.observerActive = true ∧ s.table.Present [itemId] ∧ itemSnapshot = s.table.sub [itemId]
  | .itemsChildRemoved itemId => s.manager.observerActive = true ∧ ¬ s.table.Present [itemId]
  | .itemUpdated ref _ _ => ref ∈ s.manager.refs
  | _ => False

/-- The callbacks that can run now. -/
def Due (s : OpenList) : Input → Prop
  | .loadData => s.manager.list ∈ s.world.loaded ∧ s.manager.load = .notCalled
  | .itemsAnswered itemsTableSnapshot itemsIds => s.itemsTaken = some itemsTableSnapshot ∧
      s.manager.load = .awaitingItems ∧ itemsIds.Perm itemsTableSnapshot.childKeys
  | .namesAnswered read usersSnapshot => (read, usersSnapshot) ∈ s.namesTaken ∧ read ∈ s.manager.nameReads
  | .delegateGone => True
  | event => event ∈ s.raised

instance (s : OpenList) : DecidablePred s.Raises := by
  intro event
  cases event <;> simp only [Raises] <;> infer_instance
instance (s : OpenList) : DecidablePred s.Due := by
  intro input
  cases input <;> simp only [Due] <;> infer_instance

/-- What a callback uses up. -/
def consume (s : OpenList) : Input → OpenList
  | .namesAnswered read usersSnapshot => { s with namesTaken := s.namesTaken.erase (read, usersSnapshot) }
  | input => { s with raised := s.raised.erase input }

def step (s : OpenList) (action : Action) : Option OpenList :=
  if s.crashed then none
  else match action with
  | .client action => (SharedList.step s.world action).map (fun world => { s with world := world })
  | .itemsRead =>
    if s.manager.load = .awaitingItems ∧ s.itemsTaken = none then some { s with itemsTaken := some s.table } else none
  | .namesRead read =>
    if read ∈ s.manager.nameReads then
      some { s with namesTaken := s.namesTaken ++ [(read, s.world.db.sub (listUsersDbRef s.manager.list.id.val))] }
    else none
  | .raise event => if s.Raises event then some { s with raised := s.raised ++ [event] } else none
  | .callback input =>
    if s.Due input then
      match handle s.manager input with
      | some manager => some { s.consume input with manager := manager }
      | none => some { s with crashed := true }
    else none

/-- The answer to a read of `LoadUserNames` was taken while the users map was there as a
    dictionary, and the records that a callback decodes are complete. -/
def Finds (s : OpenList) : Action → Prop
  | .callback (.namesAnswered _ usersSnapshot) => (dictionary? usersSnapshot).isSome
  | .callback (.itemsAnswered itemsTableSnapshot _) => Readable s.manager.list.items_id itemsTableSnapshot
  | .callback (.itemsChildAdded itemId itemSnapshot) =>
    itemId ∈ s.manager.ids ∨ (readItem s.manager.list.items_id itemId itemSnapshot).isSome
  | _ => True

/-- What holds while the app runs. -/
structure Running (s : OpenList) : Prop where
  running : s.crashed = false
  sound : Sound s.world
  reads : ∀ read ∈ s.manager.nameReads, read.ref ∈ s.manager.refs
  updates : ∀ ref field value, .itemUpdated ref field value ∈ s.raised → ref ∈ s.manager.refs
  /-- A users map holds strings. -/
  names : ∀ taken ∈ s.namesTaken, ∀ k ∈ taken.2.childKeys, (stringAt taken.2 k).isSome

theorem nameFor_isSome {usersData : Snapshot} (strings : ∀ k ∈ usersData.childKeys, (stringAt usersData k).isSome)
    (id : String) : (nameFor usersData id).isSome := by
  unfold nameFor
  split
  · rename_i k found
    rw [Option.isSome_map]
    exact strings k (List.mem_of_find?_eq_some found)
  · rfl

/-- The users map of a list holds strings, in every state of the clients. -/
theorem users_strings {w : World} (sound : Sound w) (L k : Key)
    (listed : k ∈ (w.db.sub (listUsersDbRef L.val)).childKeys) : (stringAt (w.db.sub (listUsersDbRef L.val)) k).isSome := by
  rw [Tree.mem_childKeys, Tree.present_sub, listUsersDbRef_key, Tree.present_iff] at listed
  obtain ⟨r, v, leaf⟩ := listed
  obtain ⟨call, _, rfl, inRecord⟩ := sound.stored _ _ _ leaf
  simp [serializedList_leaves] at inRecord
  obtain ⟨name, _, ⟨rfl, rfl⟩, rfl⟩ := inRecord
  have found := (@stringAt_eq_some (w.db.sub (listUsersDbRef call.newListKey.val)) call.userId name).mpr
    (Tree.mem_sub.mpr (by rw [listUsersDbRef_key]; exact leaf))
  rw [found]
  rfl

/-- A callback succeeds exactly when it finds what it decodes. -/
theorem handle_isSome {s : OpenList} (running : Running s) {input : Input} (due : s.Due input) :
    (handle s.manager input).isSome ↔ s.Finds (.callback input) := by
  cases input with
  | loadData => simp [handle, State.loadData, due.2, Finds]
  | itemsAnswered itemsTableSnapshot itemsIds =>
    obtain ⟨_, awaiting, order⟩ := due
    simp only [handle, State.itemsAnswered, awaiting, order, and_self, if_true, Finds, Readable]
    by_cases empty : itemsTableSnapshot.leaves = []
    · simp [empty]
    · rw [if_neg empty]
      cases dictionary : dictionary? itemsTableSnapshot with
      | none => simp [empty]
      | some data =>
        obtain ⟨rfl, _⟩ := dictionary?_eq_some dictionary
        simp only [Option.bind_eq_bind, Option.bind_some, State.addLoadedItems_isSome, empty, false_or,
          Option.some.injEq, exists_eq_left']
        exact forall_congr' fun itemId => by rw [order.mem_iff]
  | namesAnswered read usersSnapshot =>
    obtain ⟨taken, waiting⟩ := due
    obtain ⟨entry, found⟩ := Option.isSome_iff_exists.mp (State.object_isSome.mpr (running.reads read waiting))
    simp only [handle, State.namesAnswered, if_pos waiting, Finds, Option.bind_eq_bind, Option.pure_def]
    cases dictionary : dictionary? usersSnapshot with
    | none => simp
    | some usersData =>
      obtain ⟨rfl, _⟩ := dictionary?_eq_some dictionary
      have strings := running.names _ taken
      obtain ⟨author, atAuthor⟩ := Option.isSome_iff_exists.mp (nameFor_isSome strings entry.item.authorId)
      obtain ⟨checker, atChecker⟩ := Option.isSome_iff_exists.mp (nameFor_isSome strings entry.item.checkedById)
      simp [found, atAuthor, atChecker]
  | itemsChildAdded itemId itemSnapshot =>
    simp only [handle, State.itemsChildAdded, Finds, State.findItemIndex_isSome, readItem]
    by_cases held : itemId ∈ s.manager.ids
    · simp [held]
    · simp only [held, false_or, Option.bind_eq_bind]
      cases dictionary : dictionary? itemSnapshot with
      | none => simp
      | some itemDict =>
        cases decoded : Item.deserialize s.manager.list.items_id itemId itemDict with
        | none => simp [State.addLoadedItem, decoded]
        | some newItem => simp [State.addLoadedItem, decoded]
  | itemsChildRemoved itemId => simp [handle, Finds]
  | itemUpdated ref field value =>
    obtain ⟨entry, found⟩ := Option.isSome_iff_exists.mp (State.object_isSome.mpr (running.updates ref field value due))
    simp [handle, State.itemUpdated, found, Finds]
  | delegateGone => simp [handle, Finds]

theorem consume_frame (s : OpenList) (input : Input) : (s.consume input).world = s.world ∧
    (s.consume input).crashed = s.crashed ∧ (∀ event ∈ (s.consume input).raised, event ∈ s.raised) ∧
    ∀ taken ∈ (s.consume input).namesTaken, taken ∈ s.namesTaken := by
  cases input with
  | namesAnswered => exact ⟨rfl, rfl, fun _ member => member, fun _ member => List.mem_of_mem_erase member⟩
  | _ => exact ⟨rfl, rfl, fun _ member => List.mem_of_mem_erase member, fun _ member => member⟩

/-- One step leaves the app running exactly when it finds what it decodes. -/
theorem Running.step_iff {s t : OpenList} (running : Running s) {action : Action} (stepped : step s action = some t) :
    (s.Finds action → Running t) ∧ (¬ s.Finds action → t.crashed = true) := by
  unfold step at stepped
  rw [if_neg (by simp [running.running])] at stepped
  cases action with
  | client action =>
    obtain ⟨world, worldStepped, rfl⟩ := Option.map_eq_some_iff.mp stepped
    exact ⟨fun _ => { running with sound := running.sound.step worldStepped }, fun missing => absurd trivial missing⟩
  | itemsRead =>
    obtain ⟨_, rfl⟩ := Option.ite_none_right_eq_some.mp stepped |>.imp_right Option.some.inj
    exact ⟨fun _ => { running with }, fun missing => absurd trivial missing⟩
  | namesRead read =>
    obtain ⟨_, rfl⟩ := Option.ite_none_right_eq_some.mp stepped |>.imp_right Option.some.inj
    refine ⟨fun _ => { running with names := ?_ }, fun missing => absurd trivial missing⟩
    intro taken member
    rcases List.mem_append.mp member with old | new
    · exact running.names taken old
    · rw [List.mem_singleton.mp new]
      exact users_strings running.sound s.manager.list.id
  | raise event =>
    obtain ⟨raises, rfl⟩ := Option.ite_none_right_eq_some.mp stepped |>.imp_right Option.some.inj
    refine ⟨fun _ => { running with updates := ?_ }, fun missing => absurd trivial missing⟩
    intro ref field value member
    rcases List.mem_append.mp member with old | new
    · exact running.updates ref field value old
    · rw [← List.mem_singleton.mp new] at raises
      exact raises
  | callback input =>
    simp only [Option.ite_none_right_eq_some] at stepped
    obtain ⟨due, stepped⟩ := stepped
    have finds_iff := handle_isSome running due
    cases handled : handle s.manager input with
    | none =>
      simp only [handled, Option.some.injEq] at stepped
      subst stepped
      rw [handled] at finds_iff
      exact ⟨fun finds => by simpa using finds_iff.mpr finds, fun _ => rfl⟩
    | some manager =>
      simp only [handled, Option.some.injEq] at stepped
      subst stepped
      rw [handled] at finds_iff
      refine ⟨fun _ => ?_, fun missing => absurd (finds_iff.mp rfl) missing⟩
      have grows := handle_grows handled
      obtain ⟨sameWorld, sameCrashed, fewerRaised, fewerTaken⟩ := consume_frame s input
      refine ⟨sameCrashed.trans running.running, sameWorld ▸ running.sound, ?_, ?_, ?_⟩
      · intro read waiting
        exact (grows.reads read waiting).elim (fun old => grows.refs _ (running.reads read old)) id
      · exact fun ref field value member => grows.refs _ (running.updates ref field value (fewerRaised _ member))
      · exact fun taken member => running.names taken (fewerTaken taken member)

theorem start_running {world : World} (initial : Initial world) (list : ListObject) : Running (start world list) :=
  ⟨rfl, Sound.start initial, by simp [start, State.new], by simp [start], by simp [start]⟩

/-- A run among any clients never stops the app exactly when every answer to
    `LoadUserNames` was taken while the users map was there and every record that is decoded is complete. -/
theorem survives_iff {world : World} (initial : Initial world) (list : ListObject) (actions : List Action) :
    Runs.Always step (fun s => s.crashed = false) (start world list) actions ↔
      Runs.Along step Finds (start world list) actions := by
  refine Runs.always_iff_along (fun _ running => running.running) ?_ ?_ (start_running initial list) actions
  · exact fun _ _ _ running finds stepped => (running.step_iff stepped).1 finds
  · intro s action t running missing stepped survived
    rw [(running.step_iff stepped).2 missing] at survived
    cases survived

/-- Bob has opened Alice's list and read its one item; Alice removes the list before
    the server answers Bob's read of the user names. -/
def removedRun : List Action :=
  open Sample in
  ([.addNewList aliceCall, .applied (.addNewList aliceCall) (some alice), .loadList groceries,
    .addNewItem aliceCall.object "Milk" alice milk,
    .applied (.addNewItem aliceCall.object milk "Milk" alice) (some alice)] : List SharedList.Action).map .client ++
  [.callback .loadData, .itemsRead, .callback (.itemsAnswered (Tree.empty.put [milk] milkRecord) [milk])] ++
  ([.removeList aliceCall.object, .removeListUsers aliceCall.object,
    .applied (.removeList aliceCall.object [alice]) (some alice)] : List SharedList.Action).map .client ++
  [.namesRead ⟨0, .addLoadedItem true⟩, .callback (.namesAnswered ⟨0, .addLoadedItem true⟩ null)]

theorem removal_stops_app : ¬ ∀ world list actions, Initial world →
    Runs.Always step (fun s => s.crashed = false) (start world list) actions := by
  intro claim
  have always := claim (World.registered Sample.alice "alice@mail") Sample.aliceCall.object removedRun (initial_registered ..)
  have passed : (Runs.exec step (start (World.registered Sample.alice "alice@mail") Sample.aliceCall.object) removedRun).any
      (fun s => s.crashed) = true := by decide +kernel
  obtain ⟨s, survived, stopped⟩ := always.of_any passed
  rw [survived] at stopped
  cases stopped

theorem survives_iff_removedRun :
    Runs.Always step (fun s => s.crashed = false)
        (start (World.registered Sample.alice "alice@mail") Sample.aliceCall.object) removedRun ↔
      Runs.Along step Finds (start (World.registered Sample.alice "alice@mail") Sample.aliceCall.object) removedRun :=
  survives_iff (initial_registered Sample.alice "alice@mail") Sample.aliceCall.object removedRun

end OpenList
end SharedList.SingleListManager
