import SharedList.ListsReplica
import SharedList.Followers

/-!
`ListsManager` and the list keys of its user, which other devices change at any
time: before the keys are read, between that read and the list reads, and
before and after the registration of the observers takes effect.
-/
namespace SharedList.ListsManager

/-- The manager as a follower of `users/<u>/lists`. -/
def follower : Follower State Input Key where
  handle := handle
  awaits := fun s => s.load = .awaitingKeys
  observes := State.observerActive
  held := State.ids
  fetching := State.addReads
  idle := fun s => s.loadReads = []
  keys? := fun
    | .keysAnswered listsSnapshot => some listsSnapshot.childKeys.toFinset
    | _ => none
  event? := fun
    | .child event => some event
    | _ => none

theorem follower_event {input : Input} {event : ChildEvent Key} (same : follower.event? input = some event) :
    input = .child event := by
  cases input with
  | child other => rw [Option.some.inj same]
  | _ => cases same

theorem refines : follower.Refines (fun s history => Session.Loading ⟨s, history⟩) where
  heard := by
    intro s t input history event loading active same possible handled
    obtain rfl := follower_event same
    have stepped : Session.step ⟨s, history⟩ (.child event) = some ⟨t, event :: history⟩ := by
      simp only [Session.step]
      rw [if_pos ⟨active, possible⟩, show handle s (.child event) = some t from handled]
      rfl
    obtain ⟨after, moved⟩ := Session.replica_step loading stepped
    rw [Session.move, Replica.step, if_pos (show Possible (Session.replica ⟨s, history⟩).history event from possible)] at moved
    exact ⟨after, handle_observerActive handled active, .inl (Option.some.inj moved).symm⟩
  quiet := by
    intro s t input history loading noEvent handled
    change handle s input = some t at handled
    have stepped : Session.step ⟨s, history⟩ input = some ⟨t, history⟩ := by
      cases input with
      | child event => cases noEvent
      | _ => simp only [Session.step, handled, Option.map_some]
    obtain ⟨after, moved⟩ := Session.replica_step loading stepped
    refine ⟨after, fun tracks => ?_, handle_observerActive handled, fun active => ?_⟩
    · refine Replica.Tracks.step tracks ?_ moved
      cases input with
      | child event => cases noEvent
      | _ => trivial
    · cases input with
      | child event => cases noEvent
      | loadReadAnswered listId listSnapshot =>
        obtain ⟨_, _, waiting, _⟩ := State.loadReadAnswered_spec handled
        rw [show s.loadReads = [] from loading.idle active] at waiting
        cases waiting
      | addReadAnswered listId listSnapshot =>
        obtain ⟨waiting, _⟩ := State.addReadAnswered_spec handled
        rw [Session.move, Replica.step, if_pos (show listId ∈ (Session.replica ⟨s, history⟩).fetching from waiting)] at moved
        exact .inr ⟨listId, waiting, (Option.some.inj moved).symm⟩
      | _ => exact .inl (Option.some.inj moved).symm

/-- A manager whose lists are still keys when its observers are registered, and
    which handles no removal of a list that is being read, agrees with the keys
    whenever it has loaded and nothing is outstanding. -/
theorem lists_agree_when_settled (keys : Finset Key) {events : List (Follower.Event Input Key)}
    (stays : Runs.Along follower.step follower.StaysInStep (.start State.new keys) events) :
    Runs.Always follower.step follower.AgreesWhenSettled (.start State.new keys) events :=
  refines.agrees_always keys Session.loading_new rfl rfl stays

/-- Another device removes the only key while the record of its list is being read. -/
def removedWhileLoadingRun : List (Follower.Event Input Key) :=
  open Sample in
  [.input .loadData, .readKeys, .input (.keysAnswered (Tree.empty.put [groceries] (bool true))), .remove groceries,
   .input (.loadReadAnswered groceries groceryRecord), .listen []]

theorem removed_list_still_shown :
    ¬ ∀ keys events, Runs.Always follower.step follower.AgreesWhenSettled (.start State.new keys) events := by
  intro claim
  have passed : (Runs.exec follower.step (.start State.new {Sample.groceries}) removedWhileLoadingRun).any (fun w =>
      decide (follower.Settled w ∧ Sample.groceries ∈ w.state.ids ∧ Sample.groceries ∉ w.table.keys)) = true := by
    decide +kernel
  obtain ⟨w, agrees, shown⟩ := (claim {Sample.groceries} removedWhileLoadingRun).of_any passed
  obtain ⟨settled, held, removed⟩ := of_decide_eq_true shown
  exact removed ((agrees settled Sample.groceries).mp held)

/-- One list is loaded, and its `childAdded` repeats it; another device adds a key that the manager hears of, reads and
    holds, and removes the first list. -/
def addedLaterRun : List (Follower.Event Input Key) :=
  open Sample in
  [.input .loadData, .readKeys, .input (.keysAnswered (Tree.empty.put [groceries] (bool true))),
   .input (.loadReadAnswered groceries groceryRecord), .listen [groceries], .input (.child (.added groceries)), .add hardware,
   .input (.child (.added hardware)),
   .input (.addReadAnswered hardware (ListObject.serialize "Hardware" "alice" "hardwareItems")), .remove groceries,
   .input (.child (.removed groceries))]

theorem lists_agree_when_settled_addedLaterRun :
    (Runs.exec follower.step (.start State.new {Sample.groceries}) addedLaterRun).isSome = true ∧
      Runs.Always follower.step follower.AgreesWhenSettled (.start State.new {Sample.groceries}) addedLaterRun :=
  ⟨by decide +kernel, lists_agree_when_settled {Sample.groceries} (by decide +kernel)⟩

end SharedList.ListsManager
