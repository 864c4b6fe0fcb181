import SharedList.SingleListManager

/-!
`SingleListManager` and its item table, which other clients change at any time.
Items are held as soon as they are known, so no removal can miss one; but the
observers are registered only when the names of the last item have been read,
long after the table was.
-/
namespace SharedList.SingleListManager

/-- The manager as a follower of `items/<I>/items`. -/
def follower : Follower State Input Key where
  handle := handle
  awaits := fun s => s.load = .awaitingItems
  observes := State.observerActive
  held := State.ids
  fetching := fun _ => []
  idle := fun s => s.nameReads = []
  keys? := fun
    | .itemsAnswered itemsTableSnapshot _ => some itemsTableSnapshot.childKeys.toFinset
    | _ => none
  event? := fun
    | .itemsChildAdded itemId _ => some (.added itemId)
    | .itemsChildRemoved itemId => some (.removed itemId)
    | _ => none

/-- Nothing is held before the table is known, and no event comes before the observers are active. -/
structure Phased (s : State) (history : List (ChildEvent Key)) : Prop where
  silent : s.observerActive = false → history = []
  early : s.load ≠ .answered → s.data = [] ∧ s.dropped = [] ∧ s.nameReads = [] ∧ s.observerActive = false

namespace State

theorem addLoadedItem_ids {s t : State} {id : Key} {data : Snapshot} {lastItem : Bool}
    (added : s.addLoadedItem id data lastItem = some t) :
    t.ids = s.ids ++ [id] ∧ t.load = s.load ∧ t.observerActive = s.observerActive := by
  obtain ⟨newItem, decoded, rfl⟩ := addLoadedItem_eq_some.mp added
  exact ⟨by simp [ids, Item.deserialize_id decoded], rfl, rfl⟩

theorem addLoadedItems_ids {data : Snapshot} {itemsIds : List Key} {s t : State}
    (added : addLoadedItems data s itemsIds = some t) :
    t.ids = s.ids ++ itemsIds ∧ t.load = s.load ∧ t.observerActive = s.observerActive := by
  induction itemsIds generalizing s with
  | nil =>
    cases added
    exact ⟨(List.append_nil _).symm, rfl, rfl⟩
  | cons itemId rest ih =>
    obtain ⟨itemData, _, u, first, later⟩ := addLoadedItems_cons.mp added
    obtain ⟨firstIds, firstLoad, firstActive⟩ := addLoadedItem_ids first
    obtain ⟨laterIds, laterLoad, laterActive⟩ := ih later
    refine ⟨?_, laterLoad.trans firstLoad, laterActive.trans firstActive⟩
    rw [laterIds, firstIds, List.append_assoc]
    rfl

theorem itemsAnswered_ids {s t : State} {itemsTableSnapshot : Snapshot} {itemsIds : List Key}
    (answered : s.itemsAnswered itemsTableSnapshot itemsIds = some t) : s.load = .awaitingItems ∧ t.load = .answered ∧
      itemsIds.Nodup ∧ (t.ids = s.ids ∨ t.ids = s.ids ++ itemsIds) := by
  obtain ⟨⟨awaits, order⟩, outcome⟩ := itemsAnswered_cases answered
  have distinct : itemsIds.Nodup := order.nodup_iff.mpr (List.nodup_dedup _)
  rcases outcome with ⟨_, rfl⟩ | ⟨_, data, _, added⟩
  · split
    · obtain ⟨_, data, _, _, load, _⟩ := (loaded_sameItems { s with load := .answered } .dataLoaded).1
      exact ⟨awaits, load, distinct, .inl (by rw [ids, data]; rfl)⟩
    · exact ⟨awaits, rfl, distinct, .inl rfl⟩
  · obtain ⟨newIds, load, _⟩ := addLoadedItems_ids added
    exact ⟨awaits, load, distinct, .inr newIds⟩

theorem namesAnswered_ids {s t : State} {read : NameRead} {usersSnapshot : Snapshot}
    (answered : s.namesAnswered read usersSnapshot = some t) : s.nameReads ≠ [] ∧ t.ids = s.ids ∧ t.load = s.load ∧
      (t.observerActive = s.observerActive ∨ t.observerActive = true) := by
  obtain ⟨waiting, usersData, _, entry, _, authorName, _, checkedByName, _, rfl⟩ := namesAnswered_eq_some.mp answered
  obtain ⟨⟨_, data, _, _, load, _⟩, active⟩ := complete_sameItems
    (modify { s with nameReads := s.nameReads.erase read } read.ref (setNames authorName checkedByName)) read.completion
  have sameIds := @modify_ids { s with nameReads := s.nameReads.erase read } read.ref
    (setNames authorName checkedByName) (fun item => (setNames_spec authorName checkedByName item).1)
  refine ⟨List.ne_nil_of_mem waiting, ?_, load, active⟩
  rw [ids, data]
  exact sameIds

theorem itemUpdated_ids {s t : State} {ref : Nat} {field : Key} {value : Option Value}
    (updated : s.itemUpdated ref field value = some t) :
    s.data ++ s.dropped ≠ [] ∧ t.ids = s.ids ∧ t.load = s.load ∧ t.observerActive = s.observerActive := by
  obtain ⟨entry, found, rfl⟩ := itemUpdated_eq_some.mp updated
  have sameIds := @modify_ids s entry.ref (fun item => item.update [(field, value)]) (fun item => (item.update_same _).1)
  exact ⟨List.ne_nil_of_mem (List.mem_of_find?_eq_some found), sameIds, rfl, rfl⟩

end State

theorem follower_event {input : Input} {event : ChildEvent Key} (same : follower.event? input = some event) :
    (∃ itemId itemSnapshot, input = .itemsChildAdded itemId itemSnapshot ∧ event = .added itemId) ∨
      ∃ itemId, input = .itemsChildRemoved itemId ∧ event = .removed itemId := by
  cases input with
  | itemsChildAdded itemId itemSnapshot => exact .inl ⟨itemId, itemSnapshot, rfl, (Option.some.inj same).symm⟩
  | itemsChildRemoved itemId => exact .inr ⟨itemId, rfl, (Option.some.inj same).symm⟩
  | _ => cases same

theorem Phased.event {s t : State} {history : List (ChildEvent Key)} (event : ChildEvent Key) (phased : Phased s history)
    (active : s.observerActive = true) (sameLoad : t.load = s.load) (stays : t.observerActive = s.observerActive) :
    Phased t (event :: history) := by
  have isActive := stays.trans active
  refine ⟨fun inactive => ?_, fun early => ?_⟩
  · rw [isActive] at inactive
    cases inactive
  · rw [sameLoad] at early
    rw [(phased.early early).2.2.2] at active
    cases active

/-- An input that leaves the ids alone is no move of the replica. -/
theorem still {s t : State} {history : List (ChildEvent Key)} (phased : Phased t history) (sameIds : t.ids = s.ids)
    (active : s.observerActive = true → t.observerActive = true) : follower.QuietMove Phased s t history := by
  have same : follower.replica t history = follower.replica s history := by
    simp only [Follower.replica, follower, sameIds]
  exact ⟨phased, fun tracks => same ▸ tracks, active, fun _ => .inl same⟩

/-- The answer to the read of the table, before any event: the items are held, each once. -/
theorem itemsAnswered_quiet {s t : State} {history : List (ChildEvent Key)} (phased : Phased s history)
    {itemsTableSnapshot : Snapshot} {itemsIds : List Key}
    (answered : s.itemsAnswered itemsTableSnapshot itemsIds = some t) : follower.QuietMove Phased s t history := by
  obtain ⟨awaiting, load, distinct, newIds⟩ := State.itemsAnswered_ids answered
  obtain ⟨noData, _, _, inactive⟩ := phased.early (by simp [awaiting])
  have noHistory := phased.silent inactive
  have noIds : s.ids = [] := by rw [State.ids, noData, List.map_nil]
  have never : s.observerActive ≠ true := by simp [inactive]
  refine ⟨⟨fun _ => noHistory, fun early => absurd load early⟩, fun _ => ?_, fun active => absurd active never,
    fun active => absurd active never⟩
  rw [noHistory]
  refine Replica.Tracks.of_silent (show t.ids.Nodup from ?_)
  rcases newIds with none | all
  · rw [none, noIds]
    exact .nil
  · rwa [all, noIds]

theorem refines : follower.Refines Phased where
  heard := by
    intro s t input history event phased active same possible handled
    rcases follower_event same with ⟨itemId, itemSnapshot, rfl, rfl⟩ | ⟨itemId, rfl, rfl⟩
    · rcases State.itemsChildAdded_cases handled with ⟨held, rfl⟩ | ⟨held, itemDict, _, added⟩
      · refine ⟨phased.event _ active rfl rfl, active, .inl ?_⟩
        simp [Follower.replica, follower, Replica.hear, held]
      · obtain ⟨newIds, sameLoad, sameActive⟩ := State.addLoadedItem_ids added
        refine ⟨phased.event _ active sameLoad sameActive, sameActive.trans active, .inr ⟨itemId, ?_, ?_⟩⟩
        · simp [Follower.replica, follower, Replica.hear, held]
        · simp [Follower.replica, follower, Replica.hear, Replica.fetch, held, newIds]
    · cases handled
      obtain ⟨sameLoad, sameActive⟩ := State.itemsChildRemoved_frame s itemId
      refine ⟨phased.event _ active sameLoad sameActive, sameActive.trans active, .inl ?_⟩
      simp [Follower.replica, follower, Replica.hear, State.itemsChildRemoved_ids]
  quiet := by
    intro s t input history phased noEvent handled
    cases input with
    | itemsChildAdded | itemsChildRemoved => cases noEvent
    | loadData =>
      obtain ⟨notCalled, rfl⟩ := Option.ite_none_right_eq_some.mp handled |>.imp_right Option.some.inj
      obtain ⟨noData, noDropped, noReads, inactive⟩ := phased.early (by simp [notCalled])
      exact still ⟨phased.silent, fun _ => ⟨noData, noDropped, noReads, inactive⟩⟩ rfl (fun active => active)
    | itemsAnswered itemsTableSnapshot itemsIds => exact itemsAnswered_quiet phased handled
    | namesAnswered read usersSnapshot =>
      obtain ⟨someRead, sameIds, sameLoad, active⟩ := State.namesAnswered_ids handled
      have answered : t.load = .answered := by
        by_contra early
        exact someRead (phased.early (sameLoad ▸ early)).2.2.1
      refine still ⟨fun silent => ?_, fun early => absurd answered early⟩ sameIds (fun isActive => ?_)
      · rcases active with unchanged | now
        · exact phased.silent (unchanged.symm.trans silent)
        · rw [now] at silent
          cases silent
      · rcases active with unchanged | now
        · exact unchanged.trans isActive
        · exact now
    | itemUpdated ref field value =>
      obtain ⟨someItem, sameIds, sameLoad, sameActive⟩ := State.itemUpdated_ids handled
      have answered : t.load = .answered := by
        by_contra early
        obtain ⟨noData, noDropped, _⟩ := phased.early (sameLoad ▸ early)
        exact someItem (by rw [noData, noDropped]; rfl)
      refine still ⟨fun silent => ?_, fun early => absurd answered early⟩ sameIds (fun isActive => sameActive.trans isActive)
      exact phased.silent (sameActive.symm.trans silent)
    | delegateGone =>
      cases handled
      exact still ⟨phased.silent, phased.early⟩ rfl (fun active => active)

/-- A manager whose items are still in the table when its observers are
    registered agrees with the table whenever it has loaded and nothing is outstanding. -/
theorem items_agree_when_settled (list : ListObject) (keys : Finset Key) {events : List (Follower.Event Input Key)}
    (stays : Runs.Along follower.step follower.StaysInStep (.start (State.new list) keys) events) :
    Runs.Always follower.step follower.AgreesWhenSettled (.start (State.new list) keys) events :=
  refines.agrees_always keys ⟨fun _ => rfl, fun _ => ⟨rfl, rfl, rfl, rfl⟩⟩ rfl rfl stays

/-- Another client removes the only item while the user names are being read. -/
def removedWhileLoadingRun : List (Follower.Event Input Key) :=
  open Sample in
  [.input .loadData, .readKeys, .input (.itemsAnswered (Tree.empty.put [milk] milkRecord) [milk]), .remove milk,
   .input (.namesAnswered ⟨0, .addLoadedItem true⟩ aliceUsers), .listen []]

theorem removed_item_still_shown : ¬ ∀ list keys events,
    Runs.Always follower.step follower.AgreesWhenSettled (.start (State.new list) keys) events := by
  intro claim
  have passed : (Runs.exec follower.step (.start (State.new Sample.groceryList) {Sample.milk}) removedWhileLoadingRun).any
      (fun w => decide (follower.Settled w ∧ Sample.milk ∈ w.state.ids ∧ Sample.milk ∉ w.table.keys)) = true := by
    decide +kernel
  obtain ⟨w, agrees, shown⟩ := (claim Sample.groceryList {Sample.milk} removedWhileLoadingRun).of_any passed
  obtain ⟨settled, held, removed⟩ := of_decide_eq_true shown
  exact removed ((agrees settled Sample.milk).mp held)

/-- One item is loaded, and its `childAdded` repeats it; another client adds an item after the load and removes
    the first. -/
def addedLaterRun : List (Follower.Event Input Key) :=
  open Sample in
  [.input .loadData, .readKeys, .input (.itemsAnswered (Tree.empty.put [milk] milkRecord) [milk]),
   .input (.namesAnswered ⟨0, .addLoadedItem true⟩ aliceUsers), .listen [milk], .input (.itemsChildAdded milk milkRecord),
   .add hardware, .input (.itemsChildAdded hardware milkRecord), .input (.namesAnswered ⟨1, .addLoadedItem false⟩ aliceUsers),
   .remove milk, .input (.itemsChildRemoved milk)]

theorem items_agree_when_settled_addedLaterRun :
    (Runs.exec follower.step (.start (State.new Sample.groceryList) {Sample.milk}) addedLaterRun).isSome = true ∧
      Runs.Always follower.step follower.AgreesWhenSettled (.start (State.new Sample.groceryList) {Sample.milk}) addedLaterRun :=
  ⟨by decide +kernel, items_agree_when_settled Sample.groceryList {Sample.milk} (by decide +kernel)⟩

end SharedList.SingleListManager
