import SharedList.ItemIds

/-!
The load of a single list. `LoadData` starts a read of the user names for each
item, and the block of the last item reports the end, whenever its answer comes;
an item that changes has its names read again and reports the end as well.
-/
namespace SharedList.SingleListManager

/-- A manager, and the reads of `LoadUserNames` that `LoadData` started and that
    wait for their answers. -/
structure LoadWatch where
  manager : State
  loadReads : List NameRead

namespace LoadWatch

def start (list : ListObject) : LoadWatch := ⟨State.new list, []⟩

/-- The reads of the load after an input that left the manager as it is now. -/
def reads (w : LoadWatch) (manager : State) : Input → List NameRead
  | .itemsAnswered .. => manager.nameReads.drop w.manager.nameReads.length
  | .namesAnswered read _ => w.loadReads.erase read
  | _ => w.loadReads

def step (w : LoadWatch) (input : Input) : Option LoadWatch :=
  (receive w.manager input).map (fun manager => ⟨manager, w.reads manager input⟩)

/-- `DataLoaded` has not been called before the names of all items of the load were there. -/
def Complete (w : LoadWatch) : Prop := .dataLoaded ∈ w.manager.calls → w.loadReads = []

/-- An answer that reports the end comes after those to all other reads of the load. -/
def InOrder (w : LoadWatch) : Input → Prop
  | .namesAnswered read _ =>
    w.manager.delegate = true → read.completion ≠ .addLoadedItem false → w.loadReads.erase read = []
  | _ => True

end LoadWatch

/-! ## Who reports the end -/

/-- The inputs at which the delegate is told `DataLoaded`. -/
def Reports (s : State) : Input → Prop
  | .itemsAnswered itemsTableSnapshot _ => s.delegate = true ∧ itemsTableSnapshot.leaves = []
  | .namesAnswered read _ => s.delegate = true ∧ read.completion ≠ .addLoadedItem false
  | _ => False

theorem State.mem_tell {s : State} {call told : DelegateCall} :
    call ∈ (s.tell told).calls ↔ call ∈ s.calls ∨ (s.delegate = true ∧ call = told) := by
  unfold tell
  split
  · rename_i alive
    simp [alive]
  · rename_i gone
    simp [gone]

theorem State.activateObservers_calls (s : State) : s.activateObservers.calls = s.calls := by
  unfold activateObservers
  split <;> rfl

theorem State.mem_complete {s : State} {completion : Completion} : .dataLoaded ∈ (s.complete completion).calls ↔
    .dataLoaded ∈ s.calls ∨ (s.delegate = true ∧ completion ≠ .addLoadedItem false) := by
  cases completion with
  | itemChanged => simp [complete, mem_tell]
  | addLoadedItem lastItem =>
    cases alive : s.delegate
    · simp [complete, alive]
    · cases lastItem
      · simp [complete, alive, mem_tell]
      · simp [complete, alive, activateObservers_calls, mem_tell]

theorem addLoadedItem_calls {s t : State} {id : Key} {data : Snapshot} {lastItem : Bool}
    (added : s.addLoadedItem id data lastItem = some t) : t.calls = s.calls := by
  obtain ⟨newItem, _, rfl⟩ := State.addLoadedItem_eq_some.mp added
  rfl

/-- The items table: either it is empty and that is reported, or items are added. -/
theorem itemsAnswered_calls {s t : State} {itemsTableSnapshot : Snapshot} {itemsIds : List Key}
    (answered : s.itemsAnswered itemsTableSnapshot itemsIds = some t) :
    .dataLoaded ∈ t.calls ↔ .dataLoaded ∈ s.calls ∨ Reports s (.itemsAnswered itemsTableSnapshot itemsIds) := by
  obtain ⟨_, ⟨empty, rfl⟩ | ⟨filled, data, _, added⟩⟩ := State.itemsAnswered_cases answered
  · by_cases alive : s.delegate
    · simp [alive, empty, Reports, State.activateObservers_calls, State.mem_tell]
    · simp [alive, Reports]
  · have sameCalls : t.calls = s.calls := by
      refine State.addLoadedItems_keep (P := fun u => u.calls = s.calls) ?_ ?_ added
      · intro _ _ _ _ _ same oneAdded
        exact (addLoadedItem_calls oneAdded).trans same
      · rfl
    simp [Reports, filled, sameCalls]

theorem handle_calls {s t : State} {input : Input} (handled : handle s input = some t) :
    .dataLoaded ∈ t.calls ↔ .dataLoaded ∈ s.calls ∨ Reports s input := by
  cases input with
  | loadData =>
    obtain ⟨_, rfl⟩ := Option.ite_none_right_eq_some.mp handled |>.imp_right Option.some.inj
    simp [Reports]
  | itemsAnswered => exact itemsAnswered_calls handled
  | namesAnswered read usersSnapshot =>
    obtain ⟨_, _, _, _, _, authorName, _, checkedByName, _, rfl⟩ := State.namesAnswered_eq_some.mp handled
    exact State.mem_complete
  | itemsChildAdded itemId itemSnapshot =>
    rcases State.itemsChildAdded_cases handled with ⟨_, rfl⟩ | ⟨_, itemDict, _, added⟩
    · simp [Reports]
    · simp [addLoadedItem_calls added, Reports]
  | itemsChildRemoved itemId =>
    obtain rfl := Option.some.inj handled
    unfold State.itemsChildRemoved
    split
    · simp [State.mem_tell, Reports]
    · simp [Reports]
  | itemUpdated ref field value =>
    obtain ⟨entry, _, rfl⟩ := State.itemUpdated_eq_some.mp handled
    simp [State.modify, State.loadUserNames, Reports]
  | delegateGone =>
    cases handled
    simp [Reports]

/-- The answer to the read of the table is the only one. -/
theorem handle_answered {s t : State} {input : Input} (handled : handle s input = some t) (answered : s.load = .answered) :
    t.load = .answered := by
  cases input with
  | loadData =>
    obtain ⟨notCalled, _⟩ := Option.ite_none_right_eq_some.mp handled
    cases answered.symm.trans notCalled
  | itemsAnswered => exact (State.itemsAnswered_ids handled).2.1
  | namesAnswered => exact (State.namesAnswered_ids handled).2.2.1.trans answered
  | itemsChildAdded itemId itemSnapshot =>
    rcases State.itemsChildAdded_cases handled with ⟨_, rfl⟩ | ⟨_, itemDict, _, added⟩
    · exact answered
    · exact (State.addLoadedItem_ids added).2.1.trans answered
  | itemsChildRemoved itemId =>
    cases handled
    exact (State.itemsChildRemoved_frame s itemId).1.trans answered
  | itemUpdated => exact (State.itemUpdated_ids handled).2.2.1.trans answered
  | delegateGone =>
    cases handled
    exact answered

/-- An empty table starts no read. -/
theorem itemsAnswered_empty {s t : State} {itemsTableSnapshot : Snapshot} {itemsIds : List Key}
    (answered : s.itemsAnswered itemsTableSnapshot itemsIds = some t) (empty : itemsTableSnapshot.leaves = []) :
    t.nameReads = s.nameReads := by
  obtain ⟨_, ⟨_, rfl⟩ | ⟨filled, _⟩⟩ := State.itemsAnswered_cases answered
  · split
    · exact (State.loaded_sameItems { s with load := .answered } .dataLoaded).1.2.2.2.2.2
    · rfl
  · exact absurd empty filled

namespace LoadWatch

structure Watched (w : LoadWatch) : Prop where
  ordered : Ordered w.manager
  known : .dataLoaded ∈ w.manager.calls → w.manager.load = .answered
  complete : w.Complete

theorem Watched.start (list : ListObject) : Watched (.start list) :=
  ⟨Ordered.new list, by simp [LoadWatch.start, State.new], by simp [LoadWatch.start, State.new, Complete]⟩

theorem handle_of_step {w v : LoadWatch} {input : Input} (stepped : w.step input = some v) :
    receive w.manager input = some v.manager ∧ handle w.manager input = some v.manager ∧ v.loadReads = w.reads v.manager input := by
  obtain ⟨manager, received, rfl⟩ := Option.map_eq_some_iff.mp stepped
  exact ⟨received, handle_of_receive received, rfl⟩

/-- Whoever is told of the end, the table has been answered. -/
theorem Watched.reported {w v : LoadWatch} {input : Input} (watched : Watched w) (stepped : w.step input = some v)
    (told : .dataLoaded ∈ v.manager.calls) : v.manager.load = .answered := by
  obtain ⟨_, handled, _⟩ := handle_of_step stepped
  rcases (handle_calls handled).mp told with before | now
  · exact handle_answered handled (watched.known before)
  · cases input with
    | itemsAnswered => exact (State.itemsAnswered_ids handled).2.1
    | namesAnswered =>
      refine handle_answered handled ?_
      by_contra early
      exact (State.namesAnswered_ids handled).1 (watched.ordered.phased.early early).2.2.1
    | _ => exact now.elim

theorem Watched.step {w v : LoadWatch} {input : Input} (watched : Watched w) (inOrder : w.InOrder input)
    (stepped : w.step input = some v) : Watched v := by
  obtain ⟨received, handled, reads⟩ := handle_of_step stepped
  refine ⟨watched.ordered.receive received, watched.reported stepped, ?_⟩
  intro told
  rw [reads]
  rcases (handle_calls handled).mp told with before | now
  · cases input with
    | itemsAnswered =>
      cases (watched.known before).symm.trans (State.itemsAnswered_ids handled).1
    | namesAnswered read =>
      rw [LoadWatch.reads, watched.complete before]
      rfl
    | _ => exact watched.complete before
  · cases input with
    | itemsAnswered =>
      rw [LoadWatch.reads, itemsAnswered_empty handled now.2]
      exact List.drop_length
    | namesAnswered read => exact inOrder now.1 now.2
    | _ => exact now.elim

end LoadWatch

abbrev bread : Key := { val := "bread" }
/-- Milk and bread, both checked by Alice. -/
def checkedItems : Snapshot :=
  open Sample in
  let checkedRecord := fun title => (((Tree.empty.put [Keys.title] (string title)).put [Keys.checked] (bool true)).put
    [Keys.author_id] (string "alice")).put [Keys.checked_by_id] (string "alice")
  (Tree.empty.put [milk] (checkedRecord "Milk")).put [bread] (checkedRecord "Bread")

end SharedList.SingleListManager
