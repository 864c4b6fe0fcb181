import SharedList.ItemIds
import SharedList.ListsManager
import SharedList.Retention

/-!
The entries that `ListsManager` and `SingleListManager` drop from their `data`.
The objects of a manager follow its state: an entry is made, with its observer
and registration, wherever the manager adds one, and a removal takes one out of
`data` and nothing else. What the managers' states call dropped are exactly the
registered entries outside `data`.
-/
namespace SharedList
open FrbUtils Retention

/-! ## Lists -/

namespace ListsManager

namespace State

def droppedIds (s : State) : List Key := s.dropped.map ListObject.id

@[simp] theorem tell_dropped (s : State) (call : DelegateCall) : (s.tell call).dropped = s.dropped := by unfold tell; split <;> rfl
@[simp] theorem activateObservers_dropped (s : State) : s.activateObservers.dropped = s.dropped := by
  unfold activateObservers; split <;> rfl

theorem addListWithObserver_dropped {s t : State} {id : Key} {listSnapshot : Snapshot}
    (added : s.addListWithObserver id listSnapshot = some t) : t.dropped = s.dropped := by
  obtain ⟨list, _, made⟩ := Option.bind_eq_some_iff.mp added
  cases made
  rfl

theorem keysAnswered_dropped {s t : State} {listsSnapshot : Snapshot} (handled : handle s (.keysAnswered listsSnapshot) = some t) :
    t.dropped = s.dropped := by
  obtain ⟨_, answered⟩ := Option.ite_none_right_eq_some.mp handled
  split at answered
  · cases answered
    split <;> simp
  · obtain ⟨listsIds, _, loading⟩ := Option.bind_eq_some_iff.mp answered
    cases loading
    rfl

theorem loadReadAnswered_dropped {s t : State} {listId : Key} {listSnapshot : Snapshot}
    (answered : s.loadReadAnswered listId listSnapshot = some t) : t.dropped = s.dropped := by
  unfold loadReadAnswered at answered
  split at answered
  · obtain ⟨_, answered⟩ := Option.ite_none_right_eq_some.mp answered
    obtain ⟨added, appended, counted⟩ := Option.bind_eq_some_iff.mp answered
    have dropped := addListWithObserver_dropped appended
    cases counted
    split
    · split <;> simp [dropped]
    · simp [dropped]
  · cases answered

theorem addReadAnswered_dropped {s t : State} {listId : Key} {listSnapshot : Snapshot}
    (handled : handle s (.addReadAnswered listId listSnapshot) = some t) : t.dropped = s.dropped := by
  obtain ⟨_, answered⟩ := Option.ite_none_right_eq_some.mp handled
  obtain ⟨added, appended, told⟩ := Option.bind_eq_some_iff.mp answered
  cases told
  rw [tell_dropped, addListWithObserver_dropped appended]

theorem listChanged_dropped (s : State) (id field : Key) (value : Option Value) :
    (s.listChanged id field value).droppedIds = s.droppedIds := by
  have tells : ∀ (entries : List ListObject) (s : State),
      (entries.foldl (fun s _ => s.tell .listUpdated) s).dropped = s.dropped := by
    intro entries
    induction entries with
    | nil => exact fun s => rfl
    | cons _ rest ih => exact fun s => (ih _).trans (tell_dropped s .listUpdated)
  rw [droppedIds, listChanged, tells]
  exact map_updated_id id field value s.dropped

theorem listsKeysChildRemoved_at {s : State} {listId : Key} {listIndex : Nat} (found : s.findListIndex listId = some listIndex) :
    (s.listsKeysChildRemoved listId).ids = s.ids.eraseIdx listIndex ∧
      (s.listsKeysChildRemoved listId).droppedIds = s.droppedIds ++ s.ids[listIndex]?.toList := by
  rw [listsKeysChildRemoved, found]
  refine ⟨?_, ?_⟩
  · simp only [ids, tell_data, List.eraseIdx_map]
  · simp only [droppedIds, ids, tell_dropped, List.map_append, List.getElem?_map, Option.toList_map]

end State

/-- What an input does to the entries. -/
def operation (s : State) : Input → Operation
  | .loadReadAnswered listId _ | .addReadAnswered listId _ => .add [listDbRef listId.val]
  | .child (.removed listId) =>
    match s.findListIndex listId with
    | some listIndex => .remove listIndex
    | none => .add []
  | _ => .add []

def records (ids : List Key) : List Reference := ids.map (fun listId => listDbRef listId.val)

/-- What an operation does to the ids of `data` and to those dropped. -/
def Effect (s t : State) : Operation → Prop
  | .add dbRefs => ∃ new, dbRefs = records new ∧ t.ids = s.ids ++ new ∧ t.droppedIds = s.droppedIds
  | .remove index => t.ids = s.ids.eraseIdx index ∧ t.droppedIds = s.droppedIds ++ s.ids[index]?.toList

theorem effect_of_same {s t : State} (ids : t.ids = s.ids) (dropped : t.dropped = s.dropped) : Effect s t (.add []) :=
  ⟨[], rfl, by rw [ids, List.append_nil], by rw [State.droppedIds, dropped, State.droppedIds]⟩

theorem handle_effect {s t : State} {input : Input} (handled : handle s input = some t) : Effect s t (operation s input) := by
  cases input with
  | loadData =>
    obtain ⟨_, rfl⟩ := Option.ite_none_right_eq_some.mp handled |>.imp_right Option.some.inj
    exact effect_of_same rfl rfl
  | keysAnswered listsSnapshot =>
    exact effect_of_same (State.keysAnswered_spec handled).2.1 (State.keysAnswered_dropped handled)
  | loadReadAnswered listId listSnapshot =>
    obtain ⟨_, _, _, ids, _⟩ := State.loadReadAnswered_spec handled
    exact ⟨[listId], rfl, ids, congrArg (List.map ListObject.id) (State.loadReadAnswered_dropped handled)⟩
  | child event =>
    cases event with
    | added listId =>
      cases handled
      refine effect_of_same (State.listsKeysChildAdded_spec s listId).1 ?_
      unfold State.listsKeysChildAdded
      split <;> rfl
    | removed listId =>
      cases handled
      simp only [operation]
      split
      · rename_i listIndex found
        exact State.listsKeysChildRemoved_at found
      · rename_i missing
        rw [State.listsKeysChildRemoved, missing]
        exact effect_of_same rfl rfl
  | addReadAnswered listId listSnapshot =>
    have dropped := State.addReadAnswered_dropped handled
    exact ⟨[listId], rfl, (State.addReadAnswered_spec handled).2.1, congrArg (List.map ListObject.id) dropped⟩
  | listChanged id field value =>
    cases handled
    exact ⟨[], rfl, by rw [(State.listChanged_spec s id field value).1, List.append_nil], State.listChanged_dropped s id field value⟩
  | delegateGone =>
    cases handled
    exact effect_of_same rfl rfl

theorem handle_of_step {s t : Session} {input : Input} (stepped : s.step input = some t) :
    handle s.manager input = some t.manager := by
  cases input with
  | child event =>
    obtain ⟨_, ran⟩ := Option.ite_none_right_eq_some.mp stepped
    obtain ⟨manager, handled, rfl⟩ := Option.map_eq_some_iff.mp ran
    exact handled
  | listChanged | delegateGone =>
    cases stepped
    rfl
  | _ =>
    obtain ⟨manager, handled, rfl⟩ := Option.map_eq_some_iff.mp stepped
    exact handled

/-- `ListsManager` and its entries: `ListWithObserver` observes the list's record. -/
def keeper : Keeper Session Input where
  step := Session.step
  operation s input := operation s.manager input
  selects
    | .listChanged id _ _ => some (fun path _ => path = listDbRef id.val)
    | _ => none
  holders s :=
    ⟨s.manager.delegate, s.manager.observerActive ∨ s.manager.load = .awaitingKeys ∨ s.manager.loadReads ≠ [] ∨ s.manager.addReads ≠ []⟩
  shown s := records s.manager.ids
  dropped s := records s.manager.droppedIds
  adds stepped added := by
    have effect := handle_effect (handle_of_step stepped)
    rw [added] at effect
    obtain ⟨new, rfl, ids, dropped⟩ := effect
    exact ⟨by rw [ids, records, List.map_append]; rfl, by rw [dropped]⟩
  removes stepped removed := by
    have effect := handle_effect (handle_of_step stepped)
    rw [removed] at effect
    obtain ⟨ids, dropped⟩ := effect
    refine ⟨by rw [ids, records, records, List.eraseIdx_map], ?_⟩
    rw [dropped, records, List.map_append, records, records, List.getElem?_map, Option.toList_map]

/-- The input takes no list away that `data` holds. -/
def KeepsLists (w : Retention.World Session) (input : Input) : Prop :=
  ∀ listId, input = .child (.removed listId) → listId ∉ w.manager.manager.ids

theorem keepsLists_iff (w : Retention.World Session) (input : Input) : KeepsLists w input ↔ w.DropsNothing keeper input := by
  cases input with
  | child event =>
    cases event with
    | added => exact iff_of_true (by rintro _ ⟨⟩) (by rintro _ ⟨⟩)
    | removed listId =>
      have removal : keeper.operation w.manager (.child (.removed listId)) =
          (w.manager.manager.findListIndex listId).elim (.add []) .remove := by
        cases found : w.manager.manager.findListIndex listId <;> simp only [keeper, operation, found, Option.elim]
      rw [Retention.World.dropsNothing_iff removal ?inside, ← Option.not_isSome_iff_eq_none, State.findListIndex_isSome]
      case inside =>
        intro listIndex found
        obtain ⟨inside, _⟩ := List.findIdx?_eq_some_iff_getElem.mp found
        simpa only [keeper, records, State.ids, List.length_map] using inside
      simp [KeepsLists]
  | _ => exact iff_of_true (by rintro _ ⟨⟩) (by rintro _ ⟨⟩)

/-- A change of a list's record reaches as many entries as the manager holds and has dropped for the list. -/
theorem listChanged_reaches {inputs : List Input} {w : Retention.World Session}
    (run : Runs.exec (Retention.World.step keeper) (.start .new) inputs = some w) (L : Key) :
    (w.memory.reached (fun path _ => path = listDbRef L.val)).length =
      ((w.manager.manager.data ++ w.manager.manager.dropped).filter (fun list => list.id = L)).length := by
  obtain ⟨dbRefs, linked⟩ := Retention.World.linked_of_run rfl rfl run
  have injective : Function.Injective (fun listId : Key => listDbRef listId.val) := by
    intro a b same
    simpa using same
  rw [linked.length_reached]
  simp only [keeper, records, State.ids, State.droppedIds, ← List.map_append]
  rw [List.count_map_of_injective _ _ injective, List.count, List.countP_map, List.countP_eq_length_filter]
  rfl

end ListsManager

/-! ## Items -/

namespace SingleListManager

namespace State

def dataRefs (s : State) : List Nat := s.data.map ItemWithObserver.ref
def droppedIds (s : State) : List Key := s.dropped.map (fun entry => entry.item.id)

end State

/-- The record that `ItemWithObserver` observes. -/
def itemRef (list : ListObject) (id : Key) : Reference := child (child (itemsDbRef list.items_id) Keys.items.val) id.val

def records (list : ListObject) (ids : List Key) : List Reference := ids.map (itemRef list)

/-- What an input does to the entries. -/
def operation (s : State) : Input → Operation
  | .itemsAnswered itemsTableSnapshot itemsIds => .add (if itemsTableSnapshot.leaves = [] then [] else records s.list itemsIds)
  | .itemsChildAdded itemId _ => .add (if (s.findItemIndex itemId).isSome then [] else records s.list [itemId])
  | .itemsChildRemoved itemId =>
    match s.findItemIndex itemId with
    | some itemIndex => .remove itemIndex
    | none => .add []
  | _ => .add []

/-- What an operation does to the ids and the references of `data`, and to the ids dropped from it. -/
def Effect (s t : State) : Operation → Prop
  | .add dbRefs => t.list = s.list ∧ ∃ new, dbRefs = records s.list new ∧ t.ids = s.ids ++ new ∧
      t.dataRefs = s.dataRefs ++ List.range' s.nextRef new.length ∧ t.nextRef = s.nextRef + new.length ∧ t.droppedIds = s.droppedIds
  | .remove index => t.list = s.list ∧ t.ids = s.ids.eraseIdx index ∧ t.dataRefs = s.dataRefs.eraseIdx index ∧
      t.nextRef = s.nextRef ∧ t.droppedIds = s.droppedIds ++ s.ids[index]?.toList

theorem effect_of_same {s t : State} (same : State.SameItems s t) : Effect s t (.add []) := by
  obtain ⟨list, data, dropped, nextRef, _, _⟩ := same
  refine ⟨list, [], rfl, ?_, ?_, nextRef, ?_⟩
  · simp [State.ids, data]
  · simp [State.dataRefs, data]
  · simp [State.droppedIds, dropped]

/-- First the one, then the other. -/
theorem Effect.trans {s t u : State} {first second : List Reference} (earlier : Effect s t (.add first))
    (later : Effect t u (.add second)) : Effect s u (.add (first ++ second)) := by
  obtain ⟨list, new, rfl, ids, refs, nextRef, dropped⟩ := earlier
  obtain ⟨list', new', rfl, ids', refs', nextRef', dropped'⟩ := later
  refine ⟨list'.trans list, new ++ new', ?_, ?_, ?_, ?_, dropped'.trans dropped⟩
  · rw [list, records, records, records, List.map_append]
  · rw [ids', ids, List.append_assoc]
  · rw [refs', refs, nextRef, List.append_assoc, List.length_append, List.range'_append_1]
  · rw [nextRef', nextRef, List.length_append, Nat.add_assoc]

theorem modify_effect (s : State) (ref : Nat) {change : Item → Item} (sameId : ∀ item, (change item).id = item.id) :
    Effect s (s.modify ref change) (.add []) := by
  refine ⟨rfl, [], rfl, ?_, ?_, rfl, ?_⟩
  · rw [State.modify_ids s ref sameId, List.append_nil]
  · rw [State.dataRefs, State.modify, List.map_map]
    refine Eq.trans (List.map_congr_left fun entry _ => ?_) (List.append_nil _).symm
    simp only [Function.comp_apply]
    split <;> rfl
  · exact State.map_modify_id ref sameId s.dropped

theorem addLoadedItem_effect {s t : State} {id : Key} {data : Snapshot} {lastItem : Bool}
    (added : s.addLoadedItem id data lastItem = some t) : Effect s t (.add (records s.list [id])) := by
  obtain ⟨newItem, decoded, rfl⟩ := State.addLoadedItem_eq_some.mp added
  refine ⟨rfl, [id], rfl, ?_, ?_, rfl, rfl⟩
  · simp [State.ids, Item.deserialize_id decoded]
  · simp [State.dataRefs]

theorem addLoadedItems_effect {data : Snapshot} {itemsIds : List Key} {s t : State}
    (added : State.addLoadedItems data s itemsIds = some t) : Effect s t (.add (records s.list itemsIds)) := by
  induction itemsIds generalizing s with
  | nil =>
    cases added
    exact effect_of_same ⟨rfl, rfl, rfl, rfl, rfl, rfl⟩
  | cons itemId rest ih =>
    obtain ⟨itemData, _, u, first, later⟩ := State.addLoadedItems_cons.mp added
    have one := addLoadedItem_effect first
    have others := ih later
    rw [one.1] at others
    exact one.trans others

theorem itemsAnswered_effect {s t : State} {itemsTableSnapshot : Snapshot} {itemsIds : List Key}
    (answered : s.itemsAnswered itemsTableSnapshot itemsIds = some t) :
    Effect s t (operation s (.itemsAnswered itemsTableSnapshot itemsIds)) := by
  obtain ⟨_, ⟨empty, rfl⟩ | ⟨filled, data, _, added⟩⟩ := State.itemsAnswered_cases answered
  · have effect : Effect { s with load := .answered } (if s.delegate then
        ({ s with load := .answered }.tell .dataLoaded).activateObservers else { s with load := .answered }) (.add []) := by
      split
      · exact effect_of_same (State.loaded_sameItems { s with load := .answered } .dataLoaded).1
      · exact effect_of_same ⟨rfl, rfl, rfl, rfl, rfl, rfl⟩
    rw [operation, if_pos empty]
    exact effect
  · have effect : Effect { s with load := .answered } t (.add (records s.list itemsIds)) := addLoadedItems_effect added
    rw [operation, if_neg filled]
    exact effect

theorem itemsChildRemoved_effect (s : State) (itemId : Key) :
    Effect s (s.itemsChildRemoved itemId) (operation s (.itemsChildRemoved itemId)) := by
  simp only [operation, State.itemsChildRemoved]
  cases found : s.findItemIndex itemId with
  | none => exact effect_of_same ⟨rfl, rfl, rfl, rfl, rfl, rfl⟩
  | some itemIndex =>
    obtain ⟨list, data, dropped, nextRef, _, _⟩ := (State.tell_sameItems
      { s with data := s.data.eraseIdx itemIndex, dropped := s.dropped ++ s.data[itemIndex]?.toList } .itemRemoved).1
    refine ⟨list, ?_, ?_, nextRef, ?_⟩
    · rw [State.ids, data, State.ids, List.eraseIdx_map]
    · rw [State.dataRefs, data, State.dataRefs, List.eraseIdx_map]
    · rw [State.droppedIds, dropped, List.map_append, State.ids, List.getElem?_map, Option.toList_map]
      rfl

theorem handle_effect {s t : State} {input : Input} (handled : handle s input = some t) : Effect s t (operation s input) := by
  cases input with
  | loadData =>
    obtain ⟨_, rfl⟩ := Option.ite_none_right_eq_some.mp handled |>.imp_right Option.some.inj
    exact ⟨rfl, [], rfl, (List.append_nil _).symm, (List.append_nil _).symm, rfl, rfl⟩
  | itemsAnswered => exact itemsAnswered_effect handled
  | namesAnswered read usersSnapshot =>
    obtain ⟨_, _, _, _, _, authorName, _, checkedByName, _, rfl⟩ := State.namesAnswered_eq_some.mp handled
    have named := modify_effect { s with nameReads := s.nameReads.erase read } read.ref
      fun item => (setNames_spec authorName checkedByName item).1
    exact named.trans (effect_of_same (State.complete_sameItems _ read.completion).1)
  | itemsChildAdded itemId itemSnapshot =>
    rcases State.itemsChildAdded_cases handled with ⟨held, rfl⟩ | ⟨missing, itemDict, _, added⟩
    · rw [operation, if_pos (State.findItemIndex_isSome.mpr held)]
      exact effect_of_same ⟨rfl, rfl, rfl, rfl, rfl, rfl⟩
    · rw [operation, if_neg (fun found => missing (State.findItemIndex_isSome.mp found))]
      exact addLoadedItem_effect added
  | itemsChildRemoved itemId =>
    cases handled
    exact itemsChildRemoved_effect s itemId
  | itemUpdated ref field value =>
    obtain ⟨entry, _, rfl⟩ := State.itemUpdated_eq_some.mp handled
    exact modify_effect s entry.ref (fun item => (item.update_same _).1)
  | delegateGone =>
    cases handled
    exact effect_of_same ⟨rfl, rfl, rfl, rfl, rfl, rfl⟩

/-- `SingleListManager` and its entries; an item's event is one of its own observer. -/
def keeper : Keeper State Input where
  step := receive
  operation := operation
  selects
    | .itemUpdated ref _ _ => some (fun _ e => e = ref)
    | _ => none
  holders s := ⟨s.delegate, s.observerActive ∨ s.load = .awaitingItems ∨ s.nameReads ≠ []⟩
  shown s := records s.list s.ids
  dropped s := records s.list s.droppedIds
  adds stepped added := by
    have effect := handle_effect (handle_of_receive stepped)
    rw [added] at effect
    obtain ⟨list, new, rfl, ids, _, _, dropped⟩ := effect
    exact ⟨by rw [ids, list, records, List.map_append]; rfl, by rw [dropped, list]⟩
  removes stepped removed := by
    have effect := handle_effect (handle_of_receive stepped)
    rw [removed] at effect
    obtain ⟨list, ids, _, _, dropped⟩ := effect
    refine ⟨by rw [ids, list, records, records, List.eraseIdx_map], ?_⟩
    rw [dropped, list, records, List.map_append, records, records, List.getElem?_map, Option.toList_map]

/-- The input takes no item away that `data` holds. -/
def KeepsItems (w : Retention.World State) (input : Input) : Prop :=
  ∀ itemId, input = .itemsChildRemoved itemId → itemId ∉ w.manager.ids

theorem keepsItems_iff (w : Retention.World State) (input : Input) : KeepsItems w input ↔ w.DropsNothing keeper input := by
  cases input with
  | itemsChildRemoved itemId =>
    have removal : keeper.operation w.manager (.itemsChildRemoved itemId) =
        (w.manager.findItemIndex itemId).elim (.add []) .remove := by
      cases found : w.manager.findItemIndex itemId <;> simp only [keeper, operation, found, Option.elim]
    rw [Retention.World.dropsNothing_iff removal ?inside, ← Option.not_isSome_iff_eq_none, State.findItemIndex_isSome]
    case inside =>
      intro itemIndex found
      obtain ⟨inside, _⟩ := List.findIdx?_eq_some_iff_getElem.mp found
      simpa only [keeper, records, State.ids, List.length_map] using inside
    simp [KeepsItems]
  | _ => exact iff_of_true (by rintro _ ⟨⟩) (by rintro _ ⟨⟩)

/-- The references of the items in `data` are the numbers of their entries. -/
theorem refs_are_entries (list : ListObject) {inputs : List Input} {w : Retention.World State}
    (run : Runs.exec (Retention.World.step keeper) (.start (.new list)) inputs = some w) :
    w.memory.data = w.manager.dataRefs ∧ w.memory.entries.length = w.manager.nextRef := by
  suffices kept : (∃ dbRefs, Retention.World.Linked keeper w dbRefs) ∧
      w.memory.data = w.manager.dataRefs ∧ w.memory.entries.length = w.manager.nextRef from kept.2
  refine Runs.exec_invariant (I := fun w : Retention.World State => (∃ dbRefs, Retention.World.Linked keeper w dbRefs) ∧
    w.memory.data = w.manager.dataRefs ∧ w.memory.entries.length = w.manager.nextRef) ?_ ⟨⟨[], Retention.World.linked_start rfl rfl⟩, rfl, rfl⟩ run
  rintro w input t ⟨⟨dbRefs, linked⟩, refs, count⟩ stepped
  obtain ⟨after, still⟩ := linked.step stepped
  obtain ⟨received, performed, _⟩ := Retention.World.memory_step linked.made stepped
  refine ⟨⟨_, still⟩, ?_⟩
  have effect := handle_effect (handle_of_receive received)
  have length := linked.made.length_entries
  rw [performed]
  cases performs : keeper.operation w.manager input with
  | add more =>
    rw [show operation w.manager input = .add more from performs] at effect
    obtain ⟨_, new, rfl, _, newRefs, nextRef, _⟩ := effect
    obtain ⟨made, data⟩ := linked.made.add (records w.manager.list new)
    have amount : (records w.manager.list new).length = new.length := List.length_map _
    rw [data, newRefs, refs, amount, made.length_entries, nextRef, List.length_append, amount, ← length, count]
    exact ⟨rfl, rfl⟩
  | remove index =>
    rw [show operation w.manager input = .remove index from performs] at effect
    obtain ⟨_, _, newRefs, nextRef, _⟩ := effect
    rw [newRefs, nextRef, ← refs, ← count]
    exact ⟨rfl, rfl⟩

end SingleListManager

/-! ## Runs -/

/-- In every run of either manager the registrations are those of entries in `data`, and no
    other entry hears a change, exactly when no entry is ever removed. -/
theorem dropped_entries_silent_iff (listInputs : List ListsManager.Input) (list : ListObject) (itemInputs : List SingleListManager.Input) :
    (Runs.Always (Retention.World.step ListsManager.keeper) Retention.World.Silent (.start .new) listInputs ↔
      Runs.Along (Retention.World.step ListsManager.keeper) ListsManager.KeepsLists (.start .new) listInputs) ∧
    (Runs.Always (Retention.World.step SingleListManager.keeper) Retention.World.Silent (.start (.new list)) itemInputs ↔
      Runs.Along (Retention.World.step SingleListManager.keeper) SingleListManager.KeepsItems (.start (.new list)) itemInputs) :=
  ⟨Retention.World.silent_iff rfl rfl ListsManager.keepsLists_iff listInputs,
   Retention.World.silent_iff rfl rfl SingleListManager.keepsItems_iff itemInputs⟩

/-- Another user removes the list and changes its title before that. -/
theorem dropped_list_heard : ¬ ∀ inputs, Runs.Always (Retention.World.step ListsManager.keeper) Retention.World.Silent
    (.start .new) inputs := by
  intro claim
  have passed : (Runs.exec (Retention.World.step ListsManager.keeper) (.start .new)
      [.loadData, .keysAnswered (Tree.empty.put [Sample.groceries] (bool true)),
       .loadReadAnswered Sample.groceries Sample.groceryRecord, .child (.added Sample.groceries),
       .child (.removed Sample.groceries), .listChanged Sample.groceries Keys.title (some (.string "Food"))]).any
      (fun w => w.strays ≠ [] ∧ .listUpdated ∈ w.manager.manager.calls) = true := by
    decide +kernel
  obtain ⟨w, silent, heard⟩ := (claim _).of_any passed
  exact (of_decide_eq_true heard).1 silent.unheard

end SharedList
