import SharedList.ItemsSync
import SharedList.Keyed

/-!
The ids of the entries of an open list. Entries come from the snapshot that
`LoadData` reads and from `childAdded` events. The snapshot is added whole while
nothing is held and no observer is registered, and an event adds nothing that
is held; so the ids are distinct whatever the events are.
-/
namespace SharedList.SingleListManager

/-- One input. The events of the table come to registered observers only. -/
def receive (s : State) : Input → Option State
  | .itemsChildAdded itemId itemSnapshot =>
    if s.observerActive then handle s (.itemsChildAdded itemId itemSnapshot) else none
  | .itemsChildRemoved itemId => if s.observerActive then handle s (.itemsChildRemoved itemId) else none
  | input => handle s input

theorem handle_of_receive {s t : State} {input : Input} (received : receive s input = some t) : handle s input = some t := by
  cases input with
  | itemsChildAdded | itemsChildRemoved => exact (Option.ite_none_right_eq_some.mp received).2
  | _ => exact received

/-- The ids are distinct, and handling a removal takes away every entry with the
    id and leaves the others in their order. -/
def UniqueIds (s : State) : Prop :=
  s.ids.Nodup ∧ ∀ itemId t, receive s (.itemsChildRemoved itemId) = some t →
    itemId ∉ t.ids ∧ t.data = s.data.filter (fun entry => entry.item.id ≠ itemId)

theorem State.itemsChildRemoved_data (s : State) (itemId : Key) :
    (s.itemsChildRemoved itemId).data = s.data.eraseP (fun entry => entry.item.id = itemId) := by
  rw [List.eraseP_eq_eraseIdx]
  unfold itemsChildRemoved findItemIndex
  split
  · rename_i itemIndex found
    rw [(tell_sameItems _ _).1.2.1, found]
  · rename_i missing
    rw [missing]

/-- What holds at every moment: distinct ids, and nothing held or observed before the table is known. -/
structure Ordered (s : State) : Prop where
  distinct : s.ids.Nodup
  phased : Phased s []

theorem Ordered.new (list : ListObject) : Ordered (State.new list) :=
  ⟨.nil, ⟨fun _ => rfl, fun _ => ⟨rfl, rfl, rfl, rfl⟩⟩⟩

theorem Phased.forget {s : State} {history : List (ChildEvent Key)} (phased : Phased s history) : Phased s [] :=
  ⟨fun _ => rfl, phased.early⟩

theorem Ordered.uniqueIds {s : State} (ordered : Ordered s) : UniqueIds s := by
  refine ⟨ordered.distinct, ?_⟩
  intro itemId t received
  simp only [receive, handle, Option.ite_none_right_eq_some, Option.some.injEq] at received
  obtain ⟨_, rfl⟩ := received
  constructor
  · rw [State.itemsChildRemoved_ids]
    exact ordered.distinct.not_mem_erase
  · rw [State.itemsChildRemoved_data]
    exact Keyed.eraseP_eq_filter ordered.distinct itemId

/-- An input that is no event of the table keeps the phases. -/
theorem Ordered.quiet {s t : State} (ordered : Ordered s) {input : Input} (handled : handle s input = some t)
    (noEvent : follower.event? input = none) (distinct : t.ids.Nodup) : Ordered t :=
  ⟨distinct, (refines.quiet ordered.phased noEvent handled).inv⟩

theorem Ordered.receive {s t : State} {input : Input} (ordered : Ordered s) (received : receive s input = some t) :
    Ordered t := by
  cases input with
  | itemsChildAdded itemId itemSnapshot =>
    simp only [SingleListManager.receive, Option.ite_none_right_eq_some] at received
    obtain ⟨active, handled⟩ := received
    rcases State.itemsChildAdded_cases handled with ⟨_, rfl⟩ | ⟨held, itemDict, _, added⟩
    · exact ordered
    · obtain ⟨newIds, sameLoad, sameActive⟩ := State.addLoadedItem_ids added
      refine ⟨?_, (ordered.phased.event (.added itemId) active sameLoad sameActive).forget⟩
      rw [newIds]
      refine ordered.distinct.append (List.nodup_singleton _) ?_
      simpa [List.disjoint_singleton] using held
  | itemsChildRemoved itemId =>
    simp only [SingleListManager.receive, handle, Option.ite_none_right_eq_some, Option.some.injEq] at received
    obtain ⟨active, rfl⟩ := received
    obtain ⟨sameLoad, sameActive⟩ := State.itemsChildRemoved_frame s itemId
    refine ⟨?_, (ordered.phased.event (.removed itemId) active sameLoad sameActive).forget⟩
    rw [State.itemsChildRemoved_ids]
    exact ordered.distinct.erase _
  | itemsAnswered itemsTableSnapshot itemsIds =>
    have handled : handle s (.itemsAnswered itemsTableSnapshot itemsIds) = some t := received
    refine ordered.quiet handled rfl ?_
    obtain ⟨awaiting, _, distinct, newIds⟩ := State.itemsAnswered_ids received
    have noIds : s.ids = [] := by rw [State.ids, (ordered.phased.early (by simp [awaiting])).1, List.map_nil]
    rcases newIds with none | all
    · rw [none, noIds]
      exact .nil
    · rwa [all, noIds]
  | loadData =>
    have handled : handle s .loadData = some t := received
    refine ordered.quiet handled rfl ?_
    obtain ⟨_, rfl⟩ := Option.ite_none_right_eq_some.mp received |>.imp_right Option.some.inj
    exact ordered.distinct
  | namesAnswered read usersSnapshot =>
    have handled : handle s (.namesAnswered read usersSnapshot) = some t := received
    refine ordered.quiet handled rfl ?_
    rw [(State.namesAnswered_ids received).2.1]
    exact ordered.distinct
  | itemUpdated ref field value =>
    have handled : handle s (.itemUpdated ref field value) = some t := received
    refine ordered.quiet handled rfl ?_
    rw [(State.itemUpdated_ids received).2.1]
    exact ordered.distinct
  | delegateGone =>
    have handled : handle s .delegateGone = some t := received
    refine ordered.quiet handled rfl ?_
    cases received
    exact ordered.distinct

/-- In every run of a manager whose data is loaded once, with any events, the ids of the entries stay distinct. -/
theorem unique_ids_always (list : ListObject) (inputs : List Input) :
    Runs.Always receive UniqueIds (State.new list) inputs := by
  have always : Runs.Always receive Ordered (State.new list) inputs :=
    Runs.always_invariant (fun _ _ _ ordered received => ordered.receive received) (Ordered.new list) inputs
  exact always.mono fun _ ordered => ordered.uniqueIds

end SharedList.SingleListManager
