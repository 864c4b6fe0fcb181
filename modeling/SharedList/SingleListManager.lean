import SharedList.Records
import SharedList.Followers

/-!
`SingleListManager`: the items of one list, loaded once and kept up to date by
two observers of the item table and one observer of each item. An item is an
object that several callbacks hold, so it is named by a reference here; a read
of the user names finds it by that reference when the answer comes. As in
`ListsManager`, `none` is a cast that fails or an answer nobody waits for.
-/
namespace SharedList.SingleListManager

/-- The calls of `SingleListManagerDelegate`. -/
inductive DelegateCall where
  | dataLoaded | newItemAdded | itemRemoved
deriving DecidableEq

inductive Load where
  | notCalled | awaitingItems | answered
deriving DecidableEq

/-- `class ItemWithObserver`, one object of it. -/
structure ItemWithObserver where
  ref : Nat
  item : Item
deriving DecidableEq

/-- What runs when the user names have been read: the block of `AddLoadedItem` or that of `ItemChanged`. -/
inductive Completion where
  | addLoadedItem (lastItem : Bool)
  | itemChanged
deriving DecidableEq

/-- A read of `LoadUserNames` that waits for its answer. -/
structure NameRead where
  ref : Nat
  completion : Completion
deriving DecidableEq

structure State where
  list : ListObject
  delegate : Bool
  observerActive : Bool
  data : List ItemWithObserver
  /-- Entries no longer in `data`; their observers stay registered. -/
  dropped : List ItemWithObserver
  nextRef : Nat
  load : Load
  nameReads : List NameRead
  calls : List DelegateCall
deriving DecidableEq

/-- `if let name = usersData[id] { .. name as! String .. }`; the outer `none` is the cast that fails. -/
def nameFor (usersData : Snapshot) (id : String) : Option (Option String) :=
  match usersData.childKeys.find? (fun k => k.val = id) with
  | some k => (stringAt usersData k).map some
  | none => some none

/-- What `LoadUserNames` does to the item; a name that is not found is left as it was. -/
def setNames (authorName checkedByName : Option String) (item : Item) : Item :=
  let authored := match authorName with
    | some name => item.updateAuthorName name
    | none => item
  match checkedByName with
  | some name => authored.updateCheckedByName name
  | none => authored

namespace State

def new (list : ListObject) : State := ⟨list, true, false, [], [], 0, .notCalled, [], []⟩

def ids (s : State) : List Key := s.data.map (fun entry => entry.item.id)

def tell (s : State) (call : DelegateCall) : State := if s.delegate then { s with calls := s.calls ++ [call] } else s

def activateObservers (s : State) : State := if s.observerActive = false then { s with observerActive := true } else s

def findItemIndex (s : State) (id : Key) : Option Nat := s.data.findIdx? (fun entry => entry.item.id = id)

/-- The object that a reference names. -/
def object (s : State) (ref : Nat) : Option ItemWithObserver := (s.data ++ s.dropped).find? (fun entry => entry.ref = ref)

def modify (s : State) (ref : Nat) (change : Item → Item) : State :=
  let changed := fun entry : ItemWithObserver => if entry.ref = ref then { entry with item := change entry.item } else entry
  { s with data := s.data.map changed, dropped := s.dropped.map changed }

def loadUserNames (s : State) (ref : Nat) (completion : Completion) : State :=
  { s with nameReads := s.nameReads ++ [⟨ref, completion⟩] }

/-- `AddItemWithObserver` and the read that `AddLoadedItem` starts for the new item. -/
def addLoadedItem (s : State) (id : Key) (data : Snapshot) (lastItem : Bool) : Option State := do
  let newItem ← Item.deserialize s.list.items_id id data
  let added : State := { s with data := s.data ++ [⟨s.nextRef, newItem⟩], nextRef := s.nextRef + 1 }
  return added.loadUserNames s.nextRef (.addLoadedItem lastItem)

def loadData (s : State) : Option State := if s.load = .notCalled then some { s with load := .awaitingItems } else none

/-- The loop of `LoadData` over the keys of the dictionary. -/
def addLoadedItems (data : Snapshot) : State → List Key → Option State
  | s, [] => some s
  | s, itemId :: rest => do
    let itemData ← dictionary? (data.sub [itemId])
    let added ← s.addLoadedItem itemId itemData rest.isEmpty
    addLoadedItems data added rest

/-- The answer to the read of the item table; a dictionary has its keys in any order. -/
def itemsAnswered (s : State) (itemsTableSnapshot : Snapshot) (itemsIds : List Key) : Option State :=
  if s.load = .awaitingItems ∧ itemsIds.Perm itemsTableSnapshot.childKeys then
    let answered : State := { s with load := .answered }
    if itemsTableSnapshot.leaves = [] then
      some (if s.delegate then activateObservers (answered.tell .dataLoaded) else answered)
    else do
      let data ← dictionary? itemsTableSnapshot
      addLoadedItems data answered itemsIds
  else none

def complete (s : State) : Completion → State
  | .addLoadedItem lastItem =>
    if s.delegate then
      if lastItem then activateObservers (s.tell .dataLoaded) else s.tell .newItemAdded
    else s
  | .itemChanged => s.tell .dataLoaded

/-- The answer to a read of `LoadUserNames`. -/
def namesAnswered (s : State) (read : NameRead) (usersSnapshot : Snapshot) : Option State :=
  if read ∈ s.nameReads then do
    let usersData ← dictionary? usersSnapshot
    let entry ← s.object read.ref
    let authorName ← nameFor usersData entry.item.authorId
    let checkedByName ← nameFor usersData entry.item.checkedById
    let named := { s with nameReads := s.nameReads.erase read }.modify read.ref (setNames authorName checkedByName)
    return named.complete read.completion
  else none

/-- `Updated` of one entry, and `ItemChanged`. -/
def itemUpdated (s : State) (ref : Nat) (field : Key) (value : Option Value) : Option State := do
  let entry ← s.object ref
  return (s.modify entry.ref (fun item => item.update [(field, value)])).loadUserNames entry.ref .itemChanged

def itemsChildAdded (s : State) (itemId : Key) (itemSnapshot : Snapshot) : Option State :=
  if (s.findItemIndex itemId).isSome then some s
  else do
    let itemDict ← dictionary? itemSnapshot
    s.addLoadedItem itemId itemDict false

def itemsChildRemoved (s : State) (itemId : Key) : State :=
  match s.findItemIndex itemId with
  | some itemIndex =>
    { s with data := s.data.eraseIdx itemIndex, dropped := s.dropped ++ s.data[itemIndex]?.toList }.tell .itemRemoved
  | none => s

end State

inductive Input where
  | loadData
  | itemsAnswered (itemsTableSnapshot : Snapshot) (itemsIds : List Key)
  | namesAnswered (read : NameRead) (usersSnapshot : Snapshot)
  | itemsChildAdded (itemId : Key) (itemSnapshot : Snapshot)
  | itemsChildRemoved (itemId : Key)
  /-- A `childChanged` event, at the observer of one entry. -/
  | itemUpdated (ref : Nat) (field : Key) (value : Option Value)
  | delegateGone
deriving DecidableEq

def handle (s : State) : Input → Option State
  | .loadData => s.loadData
  | .itemsAnswered itemsTableSnapshot itemsIds => s.itemsAnswered itemsTableSnapshot itemsIds
  | .namesAnswered read usersSnapshot => s.namesAnswered read usersSnapshot
  | .itemsChildAdded itemId itemSnapshot => s.itemsChildAdded itemId itemSnapshot
  | .itemsChildRemoved itemId => some (s.itemsChildRemoved itemId)
  | .itemUpdated ref field value => s.itemUpdated ref field value
  | .delegateGone => some { s with delegate := false }

/-! ## What the handlers do -/

theorem setNames_spec (authorName checkedByName : Option String) (item : Item) :
    (setNames authorName checkedByName item).id = item.id ∧
      (setNames authorName checkedByName item).authorId = item.authorId ∧
      (setNames authorName checkedByName item).checkedById = item.checkedById ∧
      (setNames authorName checkedByName item).authorName = authorName.getD item.authorName ∧
      (setNames authorName checkedByName item).checkedByName = checkedByName.getD item.checkedByName := by
  unfold setNames
  cases authorName <;> cases checkedByName <;> exact ⟨rfl, rfl, rfl, rfl, rfl⟩

theorem setNames_checked (authorName checkedByName : Option String) (item : Item) :
    (setNames authorName checkedByName item).checked = item.checked := by
  unfold setNames
  cases authorName <;> cases checkedByName <;> rfl

namespace State

/-- The parts of the state other than the delegate's calls and the observers. -/
def SameItems (s t : State) : Prop :=
  t.list = s.list ∧ t.data = s.data ∧ t.dropped = s.dropped ∧ t.nextRef = s.nextRef ∧ t.load = s.load ∧
    t.nameReads = s.nameReads

theorem tell_sameItems (s : State) (call : DelegateCall) :
    SameItems s (s.tell call) ∧ (s.tell call).observerActive = s.observerActive := by
  unfold tell
  split <;> exact ⟨⟨rfl, rfl, rfl, rfl, rfl, rfl⟩, rfl⟩

theorem activateObservers_sameItems (s : State) :
    SameItems s s.activateObservers ∧ s.activateObservers.observerActive = true := by
  unfold activateObservers
  cases active : s.observerActive
  · exact ⟨⟨rfl, rfl, rfl, rfl, rfl, rfl⟩, rfl⟩
  · exact ⟨⟨rfl, rfl, rfl, rfl, rfl, rfl⟩, by simp [active]⟩

theorem SameItems.trans {s t u : State} (first : SameItems s t) (second : SameItems t u) : SameItems s u :=
  ⟨second.1.trans first.1, second.2.1.trans first.2.1, second.2.2.1.trans first.2.2.1,
    second.2.2.2.1.trans first.2.2.2.1, second.2.2.2.2.1.trans first.2.2.2.2.1, second.2.2.2.2.2.trans first.2.2.2.2.2⟩

/-- Telling the delegate that all is loaded, and registering the observers. -/
theorem loaded_sameItems (s : State) (call : DelegateCall) : SameItems s (s.tell call).activateObservers ∧
    (s.tell call).activateObservers.observerActive = true :=
  ⟨(tell_sameItems s call).1.trans (activateObservers_sameItems _).1, (activateObservers_sameItems _).2⟩

theorem complete_sameItems (s : State) (completion : Completion) : SameItems s (s.complete completion) ∧
    ((s.complete completion).observerActive = s.observerActive ∨ (s.complete completion).observerActive = true) := by
  unfold complete
  split
  · split
    · split
      · exact ⟨(loaded_sameItems s _).1, .inr (loaded_sameItems s _).2⟩
      · exact ⟨(tell_sameItems s _).1, .inl (tell_sameItems s _).2⟩
    · exact ⟨⟨rfl, rfl, rfl, rfl, rfl, rfl⟩, .inl rfl⟩
  · exact ⟨(tell_sameItems s _).1, .inl (tell_sameItems s _).2⟩

theorem findItemIndex_isSome {s : State} {id : Key} : (s.findItemIndex id).isSome ↔ id ∈ s.ids := by
  simp [findItemIndex, ids, List.findIdx?_isSome]

theorem map_modify_id (ref : Nat) {change : Item → Item} (sameId : ∀ item, (change item).id = item.id) (entries : List ItemWithObserver) :
    (entries.map (fun entry => if entry.ref = ref then { entry with item := change entry.item } else entry)).map
      (fun entry => entry.item.id) = entries.map (fun entry => entry.item.id) := by
  rw [List.map_map]
  refine List.map_congr_left fun entry _ => ?_
  simp only [Function.comp_apply]
  split
  · exact sameId entry.item
  · rfl

theorem modify_ids (s : State) (ref : Nat) {change : Item → Item} (sameId : ∀ item, (change item).id = item.id) :
    (s.modify ref change).ids = s.ids := map_modify_id ref sameId s.data

theorem addLoadedItem_eq_some {s t : State} {id : Key} {data : Snapshot} {lastItem : Bool} :
    s.addLoadedItem id data lastItem = some t ↔ ∃ newItem, Item.deserialize s.list.items_id id data = some newItem ∧
      t = { s with data := s.data ++ [⟨s.nextRef, newItem⟩], nextRef := s.nextRef + 1,
                   nameReads := s.nameReads ++ [⟨s.nextRef, .addLoadedItem lastItem⟩] } := by
  simp only [addLoadedItem, loadUserNames, Option.bind_eq_bind, Option.pure_def, Option.bind_eq_some_iff, Option.some.injEq]
  exact exists_congr fun newItem => and_congr_right fun _ => eq_comm

theorem itemsChildAdded_cases {s t : State} {itemId : Key} {itemSnapshot : Snapshot}
    (added : s.itemsChildAdded itemId itemSnapshot = some t) : (itemId ∈ s.ids ∧ t = s) ∨
      (itemId ∉ s.ids ∧ ∃ itemDict, dictionary? itemSnapshot = some itemDict ∧ s.addLoadedItem itemId itemDict false = some t) := by
  unfold itemsChildAdded at added
  by_cases held : itemId ∈ s.ids
  · rw [if_pos (findItemIndex_isSome.mpr held)] at added
    exact .inl ⟨held, (Option.some.inj added).symm⟩
  · rw [if_neg (fun found => held (findItemIndex_isSome.mp found))] at added
    exact .inr ⟨held, Option.bind_eq_some_iff.mp added⟩

theorem itemUpdated_eq_some {s t : State} {ref : Nat} {field : Key} {value : Option Value} :
    s.itemUpdated ref field value = some t ↔ ∃ entry, s.object ref = some entry ∧
      (s.modify entry.ref (fun item => item.update [(field, value)])).loadUserNames entry.ref .itemChanged = t := by
  simp only [itemUpdated, Option.bind_eq_bind, Option.pure_def, Option.bind_eq_some_iff, Option.some.injEq]

theorem namesAnswered_eq_some {s t : State} {read : NameRead} {usersSnapshot : Snapshot} :
    s.namesAnswered read usersSnapshot = some t ↔ read ∈ s.nameReads ∧ ∃ usersData, dictionary? usersSnapshot = some usersData ∧
      ∃ entry, s.object read.ref = some entry ∧ ∃ authorName, nameFor usersData entry.item.authorId = some authorName ∧
      ∃ checkedByName, nameFor usersData entry.item.checkedById = some checkedByName ∧
        ({ s with nameReads := s.nameReads.erase read }.modify read.ref (setNames authorName checkedByName)).complete read.completion =
          t := by
  simp only [namesAnswered, Option.ite_none_right_eq_some, Option.bind_eq_bind, Option.pure_def, Option.bind_eq_some_iff,
    Option.some.injEq]

theorem addLoadedItems_cons {data : Snapshot} {s t : State} {itemId : Key} {rest : List Key} :
    addLoadedItems data s (itemId :: rest) = some t ↔ ∃ itemData, dictionary? (data.sub [itemId]) = some itemData ∧
      ∃ u, s.addLoadedItem itemId itemData rest.isEmpty = some u ∧ addLoadedItems data u rest = some t := by
  simp only [addLoadedItems, Option.bind_eq_bind, Option.bind_eq_some_iff]

/-- What each round of the loop keeps, the loop keeps. -/
theorem addLoadedItems_keep {P : State → Prop}
    (keep : ∀ {s t id data lastItem}, P s → addLoadedItem s id data lastItem = some t → P t)
    {data : Snapshot} {itemsIds : List Key} {s t : State} (start : P s) (added : addLoadedItems data s itemsIds = some t) : P t := by
  induction itemsIds generalizing s with
  | nil =>
    cases added
    exact start
  | cons itemId rest ih =>
    obtain ⟨itemData, _, u, first, later⟩ := addLoadedItems_cons.mp added
    exact ih (keep start first) later

/-- An empty table is reported at once, with a delegate; the items of another are added. -/
theorem itemsAnswered_cases {s t : State} {itemsTableSnapshot : Snapshot} {itemsIds : List Key}
    (answered : s.itemsAnswered itemsTableSnapshot itemsIds = some t) :
    (s.load = .awaitingItems ∧ itemsIds.Perm itemsTableSnapshot.childKeys) ∧
      ((itemsTableSnapshot.leaves = [] ∧ t = if s.delegate then ({ s with load := .answered }.tell .dataLoaded).activateObservers
          else { s with load := .answered }) ∨
        (itemsTableSnapshot.leaves ≠ [] ∧ ∃ data, dictionary? itemsTableSnapshot = some data ∧
          addLoadedItems data { s with load := .answered } itemsIds = some t)) := by
  obtain ⟨awaiting, answered⟩ := Option.ite_none_right_eq_some.mp answered
  refine ⟨awaiting, ?_⟩
  by_cases empty : itemsTableSnapshot.leaves = []
  · simp only [if_pos empty, Option.some.injEq] at answered
    exact .inl ⟨empty, answered.symm⟩
  · simp only [if_neg empty, Option.bind_eq_bind, Option.bind_eq_some_iff] at answered
    exact .inr ⟨empty, answered⟩

/-- What the items and the reads decide, and each new item keeps, the answer keeps. -/
theorem itemsAnswered_keep {P : State → Prop} (same : ∀ {s t}, P s → SameItems s t → P t)
    (keep : ∀ {s t id data lastItem}, P s → addLoadedItem s id data lastItem = some t → P t)
    {s t : State} {itemsTableSnapshot : Snapshot} {itemsIds : List Key} (start : P { s with load := .answered })
    (answered : s.itemsAnswered itemsTableSnapshot itemsIds = some t) : P t := by
  obtain ⟨_, ⟨_, rfl⟩ | ⟨_, data, _, added⟩⟩ := itemsAnswered_cases answered
  · split
    · exact same start (loaded_sameItems _ _).1
    · exact start
  · exact addLoadedItems_keep keep start added

theorem itemsChildRemoved_ids (s : State) (itemId : Key) : (s.itemsChildRemoved itemId).ids = s.ids.erase itemId := by
  have erased : s.ids.erase itemId = (s.data.eraseP (fun entry => entry.item.id = itemId)).map (fun entry => entry.item.id) := by
    rw [ids, List.erase_eq_eraseP', List.eraseP_map]
    rfl
  unfold itemsChildRemoved
  rw [erased, List.eraseP_eq_eraseIdx]
  unfold findItemIndex
  split
  · rename_i itemIndex found
    rw [ids, (tell_sameItems _ _).1.2.1, found]
  · rename_i missing
    rw [ids, missing]

theorem itemsChildRemoved_frame (s : State) (itemId : Key) :
    (s.itemsChildRemoved itemId).load = s.load ∧ (s.itemsChildRemoved itemId).observerActive = s.observerActive := by
  unfold itemsChildRemoved
  split
  · exact ⟨(tell_sameItems _ _).1.2.2.2.2.1, (tell_sameItems _ _).2⟩
  · exact ⟨rfl, rfl⟩

end State
end SharedList.SingleListManager
