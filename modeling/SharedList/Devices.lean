import SharedList.LocalViews
import SharedList.SharedTables
import SharedList.ListsSync
import SharedList.ItemsSync
import SharedList.OpenList
import SharedList.ItemMirror

/-!
The whole system: the shared database with all its clients, and any number of
managers on their devices, `ListsManager`s of signed-in users and
`SingleListManager`s of open lists. A manager reads and observes its own node of
the database as its device sees it: it is told of a write of another device when
the server has applied it and of one of its own device at once, and an answer to
a read is what its device saw at the node at some moment up to then. What a device
does before it has heard of a write stands in a run before the write is applied.
-/
namespace SharedList
open FrbUtils

/-- A manager, and the device it runs on. -/
inductive Manager where
  /-- The lists of the user signed in there. -/
  | lists (userId : Key) (device : Nat)
  /-- The items of a list open there. -/
  | items (list : ListObject) (device : Nat)
deriving DecidableEq

/-- The children of a node that change: a listener gets one `childChanged` event for each. -/
def childrenChanged (before after : Snapshot) : List (Key × Option Value) :=
  (after.childKeys.filter (fun k => before.Present [k] ∧ before.sub [k] ≠ after.sub [k])).map (fun k => (k, after.at? [k]))

/-- A step among these states, the newest first, has raised the event at the node on the device. -/
def raisedAmong (device : Nat) (ref : Reference) (event : Key × Option Value) : List Store → Bool
  | after :: before :: rest =>
    event ∈ childrenChanged ((before.view device).sub ref) ((after.view device).sub ref) || raisedAmong device ref event (before :: rest)
  | _ => false

/-- The device saw the snapshot at the node in one of these states. -/
def heldAmong (past : List Store) (device : Nat) (ref : Reference) (snapshot : Snapshot) : Bool :=
  past.any (fun s => (s.view device).sub ref = snapshot)

namespace Manager

abbrev State : Manager → Type
  | .lists .. => ListsManager.State
  | .items .. => SingleListManager.State

abbrev Input : Manager → Type
  | .lists .. => ListsManager.Input
  | .items .. => SingleListManager.Input

def new : ∀ m : Manager, m.State
  | .lists .. => ListsManager.State.new
  | .items list _ => SingleListManager.State.new list

def device : Manager → Nat
  | .lists _ device | .items _ device => device

/-- The node whose children the manager reads and observes. -/
def dbRef : Manager → Reference
  | .lists userId _ => userListsDbRef userId.val
  | .items list _ => child (itemsDbRef list.items_id) Keys.items.val

def keys (m : Manager) (s : Store) : List Key := ((s.view m.device).sub m.dbRef).childKeys

def follower : ∀ m : Manager, Follower m.State m.Input Key
  | .lists .. => ListsManager.follower
  | .items .. => SingleListManager.follower

/-- What Firebase can answer or raise on the device when the store has been in these states, the newest first. -/
def serves : ∀ m : Manager, List Store → m.Input → Bool
  | .lists userId device, past, .keysAnswered listsSnapshot => heldAmong past device (userListsDbRef userId.val) listsSnapshot
  | .lists _ device, past, .loadReadAnswered listId listSnapshot => heldAmong past device (listDbRef listId.val) listSnapshot
  | .lists _ device, past, .addReadAnswered listId listSnapshot => heldAmong past device (listDbRef listId.val) listSnapshot
  | .lists _ device, past, .listChanged id field value => raisedAmong device (listDbRef id.val) (field, value) past
  | .lists .., _, _ => true
  | .items list device, past, .itemsAnswered itemsTableSnapshot _ =>
    heldAmong past device (child (itemsDbRef list.items_id) Keys.items.val) itemsTableSnapshot
  | .items list device, past, .itemsChildAdded itemId itemSnapshot =>
    heldAmong past device (itemDbRef list.items_id itemId.val) itemSnapshot
  | .items list device, past, .itemUpdated _ field value =>
    (past.flatMap (Manager.items list device).keys).any
      (fun itemId => raisedAmong device (itemDbRef list.items_id itemId.val) (field, value) past)
  | .items list device, past, .namesAnswered _ usersSnapshot => heldAmong past device (listUsersDbRef list.id.val) usersSnapshot
  | .items .., _, _ => true

end Manager

/-- The system; events of one change of the keys come in the order `le`. -/
def network (le : Key → Key → Bool) : Network Store (Nat × Action) Manager.State Manager.Input Key where
  advance := Store.advance
  keys := Manager.keys
  le := le
  follower := Manager.follower
  serves := Manager.serves

/-- A step of the store by a client on a device, or one of a manager. -/
abbrev SystemEvent := Network.Event (Nat × Action) Manager.Input Key

/-- A system whose database is this one and whose managers have not loaded. -/
abbrev System := Network.State Store Manager.State Key

def System.start (le : Key → Key → Bool) (w : World) : System := (network le).start (.start w) Manager.new

theorem Manager.mem_keys {m : Manager} {s : Store} {k : Key} :
    k ∈ m.keys s ↔ (s.view m.device).Present (child m.dbRef k.val) := by
  rw [Manager.keys, Tree.mem_childKeys, Tree.present_sub, child_key]

/-- A manager of either kind that stays in step holds, whenever it has settled, exactly the children of its
    node in the shared database with the writes of its device that are on their way made in it, and so
    those in the shared database itself when there are none; whatever clients and other managers do. -/
theorem managers_agree_with_database (le : Key → Key → Bool) (m : Manager) (w : World) {events : List SystemEvent}
    (stays : Runs.Along (network le).step ((network le).StaysInStep m) (System.start le w) events) :
    Runs.Always (network le).step (fun s => m.follower.Settled (s.device m) →
      (∀ k : Key, k ∈ m.follower.held (s.device m).state ↔ (s.store.view m.device).Present (child m.dbRef k.val)) ∧
      (ownWrites s.store.sent m.device = [] →
        ∀ k : Key, k ∈ m.follower.held (s.device m).state ↔ s.store.world.db.Present (child m.dbRef k.val)))
      (System.start le w) events := by
  have agrees : Runs.Always (network le).step ((network le).AgreesWithStore m) (System.start le w) events := by
    cases m with
    | lists userId device =>
      exact Network.agrees_with_store ListsManager.refines ListsManager.Session.loading_new rfl rfl (Store.start w) stays
    | items list device =>
      have fresh : SingleListManager.Phased (.new list) [] := ⟨fun _ => rfl, fun _ => ⟨rfl, rfl, rfl, rfl⟩⟩
      exact Network.agrees_with_store (n := network le) (i := .items list device) SingleListManager.refines fresh rfl rfl (Store.start w) stays
  refine agrees.mono fun s agree settled => ?_
  have sees : ∀ k : Key, k ∈ m.follower.held (s.device m).state ↔ (s.store.view m.device).Present (child m.dbRef k.val) :=
    fun k => (agree settled k).trans Manager.mem_keys
  refine ⟨sees, ?_⟩
  intro noWrites k
  rw [sees k, Store.view, noWrites]
  rfl

/-- Alice's first device is observing when she makes a list on it, and hears of the list before the server
    has stored it; the second loads it. -/
def sharedRun : List SystemEvent :=
  open Sample in
  [.input (.lists alice 0) .loadData, .readKeys (.lists alice 0), .input (.lists alice 0) (.keysAnswered null),
   .listen (.lists alice 0) [], .store (0, .addNewList aliceCall), .input (.lists alice 0) (.child (.added groceries)),
   .input (.lists alice 0) (.addReadAnswered groceries aliceCall.serializedList), .store (0, .applied (.addNewList aliceCall) none),
   .input (.lists alice 1) .loadData, .readKeys (.lists alice 1),
   .input (.lists alice 1) (.keysAnswered (Tree.empty.put [groceries] (bool true))),
   .input (.lists alice 1) (.loadReadAnswered groceries aliceCall.serializedList), .listen (.lists alice 1) [groceries],
   .input (.lists alice 1) (.child (.added groceries))]

/-- The order of keys as strings. -/
def byString (a b : Key) : Bool := a.val ≤ b.val

theorem managers_agree_with_database_sharedRun :
    Runs.Always (network byString).step (fun s => (Manager.lists Sample.alice 0).follower.Settled (s.device (.lists Sample.alice 0)) →
      (∀ k : Key, k ∈ (Manager.lists Sample.alice 0).follower.held (s.device (.lists Sample.alice 0)).state ↔
        (s.store.view 0).Present (child (Manager.lists Sample.alice 0).dbRef k.val)) ∧
      (ownWrites s.store.sent 0 = [] →
        ∀ k : Key, k ∈ (Manager.lists Sample.alice 0).follower.held (s.device (.lists Sample.alice 0)).state ↔
          s.store.world.db.Present (child (Manager.lists Sample.alice 0).dbRef k.val)))
      (System.start byString (World.registered Sample.alice "alice@mail")) sharedRun :=
  managers_agree_with_database byString (.lists Sample.alice 0) _ (by decide +kernel)

/-! ## What the managers hold -/

namespace ListsManager

theorem keysAnswered_data {s t : State} {listsSnapshot : Snapshot} (answered : s.keysAnswered listsSnapshot = some t) :
    t.data = s.data := by
  unfold State.keysAnswered at answered
  split at answered
  · split at answered
    · cases answered
      split
      · simp
      · rfl
    · simp only [Option.bind_eq_bind, Option.pure_def, Option.bind_eq_some_iff, Option.some.injEq] at answered
      obtain ⟨_, _, rfl⟩ := answered
      rfl
  · cases answered

theorem addListWithObserver_data {s t : State} {id : Key} {listSnapshot : Snapshot}
    (added : s.addListWithObserver id listSnapshot = some t) :
    ∃ list, ListObject.read id listSnapshot = some list ∧ t.data = s.data ++ [list] := by
  simp only [State.addListWithObserver, Option.bind_eq_bind, Option.pure_def, Option.bind_eq_some_iff, Option.some.injEq] at added
  obtain ⟨list, read, rfl⟩ := added
  exact ⟨list, read, rfl⟩

theorem loadReadAnswered_data {s t : State} {id : Key} {listSnapshot : Snapshot}
    (answered : s.loadReadAnswered id listSnapshot = some t) :
    ∃ list, ListObject.read id listSnapshot = some list ∧ t.data = s.data ++ [list] := by
  unfold State.loadReadAnswered at answered
  split at answered
  · simp only [Option.ite_none_right_eq_some, Option.bind_eq_bind, Option.pure_def, Option.bind_eq_some_iff,
      Option.some.injEq] at answered
    obtain ⟨_, added, appended, rfl⟩ := answered
    obtain ⟨list, read, data⟩ := addListWithObserver_data appended
    refine ⟨list, read, ?_⟩
    split
    · split <;> simp [data]
    · simp [data]
  · cases answered

theorem addReadAnswered_data {s t : State} {id : Key} {listSnapshot : Snapshot}
    (answered : s.addReadAnswered id listSnapshot = some t) :
    ∃ list, ListObject.read id listSnapshot = some list ∧ t.data = s.data ++ [list] := by
  simp only [State.addReadAnswered, Option.ite_none_right_eq_some, Option.bind_eq_bind, Option.pure_def,
    Option.bind_eq_some_iff, Option.some.injEq] at answered
  obtain ⟨_, added, appended, rfl⟩ := answered
  obtain ⟨list, read, data⟩ := addListWithObserver_data appended
  exact ⟨list, read, by rw [State.tell_data, data]⟩

theorem listChanged_data (s : State) (id field : Key) (value : Option Value) :
    (s.listChanged id field value).data = s.data.map (State.updated id field value) := by
  have tells : ∀ (entries : List ListObject) (s : State),
      (entries.foldl (fun s _ => s.tell .listUpdated) s).data = s.data := by
    intro entries
    induction entries with
    | nil => exact fun s => rfl
    | cons _ rest ih => exact fun s => (ih _).trans (State.tell_data s .listUpdated)
  rw [State.listChanged, tells]

/-- What holds of every list that is read and every list that is updated holds of every entry. -/
theorem handle_data {P : ListObject → Prop} {s t : State} {input : Input} (handled : handle s input = some t)
    (all : ∀ list ∈ s.data, P list)
    (read : ∀ listId listSnapshot list, input = .loadReadAnswered listId listSnapshot ∨ input = .addReadAnswered listId listSnapshot →
      ListObject.read listId listSnapshot = some list → P list)
    (changed : ∀ id field value list, input = .listChanged id field value → list.id = id → P list →
      P (list.update [(field, value)])) :
    ∀ list ∈ t.data, P list := by
  have appended : ∀ {list}, t.data = s.data ++ [list] → P list → ∀ list ∈ t.data, P list := by
    intro new same holds list member
    rw [same, List.mem_append, List.mem_singleton] at member
    rcases member with old | rfl
    · exact all list old
    · exact holds
  cases input with
  | loadData =>
    obtain ⟨_, rfl⟩ := Option.ite_none_right_eq_some.mp handled |>.imp_right Option.some.inj
    exact all
  | keysAnswered listsSnapshot =>
    rw [keysAnswered_data handled]
    exact all
  | loadReadAnswered listId listSnapshot =>
    obtain ⟨list, decoded, same⟩ := loadReadAnswered_data handled
    exact appended same (read listId listSnapshot list (.inl rfl) decoded)
  | addReadAnswered listId listSnapshot =>
    obtain ⟨list, decoded, same⟩ := addReadAnswered_data handled
    exact appended same (read listId listSnapshot list (.inr rfl) decoded)
  | child event =>
    cases event with
    | added listId =>
      cases handled
      unfold State.listsKeysChildAdded
      split <;> exact all
    | removed listId =>
      cases handled
      unfold State.listsKeysChildRemoved
      split
      · rw [State.tell_data]
        exact fun list member => all list (List.mem_of_mem_eraseIdx member)
      · exact all
  | listChanged id field value =>
    cases handled
    rw [listChanged_data]
    refine List.forall_mem_map.mpr fun list member => ?_
    unfold State.updated
    split
    · rename_i own
      exact changed id field value list rfl own (all list member)
    · exact all list member
  | delegateGone =>
    cases handled
    exact all

end ListsManager

namespace SingleListManager

/-- A change to one object keeps what holds of all items, if it keeps it of that one. -/
theorem forall_modify {P : Item → Prop} {s : State} (all : ∀ entry ∈ s.data, P entry.item) (ref : Nat) {change : Item → Item}
    (keeps : ∀ item, P item → P (change item)) : ∀ entry ∈ (s.modify ref change).data, P entry.item := by
  refine List.forall_mem_map.mpr fun entry member => ?_
  split
  · exact keeps entry.item (all entry member)
  · exact all entry member

theorem addLoadedItem_data {P : Item → Prop} {s t : State} {id : Key} {data : Snapshot} {lastItem : Bool}
    (added : s.addLoadedItem id data lastItem = some t) (all : ∀ entry ∈ s.data, P entry.item)
    (decoded : ∀ item, Item.deserialize s.list.items_id id data = some item → P item) : ∀ entry ∈ t.data, P entry.item := by
  obtain ⟨newItem, read, rfl⟩ := State.addLoadedItem_eq_some.mp added
  refine List.forall_mem_append.mpr ⟨all, ?_⟩
  simpa using decoded newItem read

theorem addLoadedItems_data {P : Item → Prop} {data : Snapshot} {itemsIds : List Key} {s t : State}
    (added : State.addLoadedItems data s itemsIds = some t) (all : ∀ entry ∈ s.data, P entry.item)
    (decoded : ∀ id item, Item.deserialize s.list.items_id id (data.sub [id]) = some item → P item) :
    ∀ entry ∈ t.data, P entry.item := by
  induction itemsIds generalizing s with
  | nil =>
    cases added
    exact all
  | cons itemId rest ih =>
    obtain ⟨itemData, dictionary, u, first, later⟩ := State.addLoadedItems_cons.mp added
    obtain ⟨rfl, _⟩ := dictionary?_eq_some dictionary
    have more := addLoadedItem_data first all (decoded itemId)
    obtain ⟨_, _, rfl⟩ := State.addLoadedItem_eq_some.mp first
    exact ih later more decoded

/-- What holds of every item that is decoded, named and updated holds of every entry. -/
theorem handle_data {P : Item → Prop} {s t : State} {input : Input} (handled : handle s input = some t)
    (all : ∀ entry ∈ s.data, P entry.item)
    (decoded : ∀ id itemSnapshot item, ((∃ itemsTableSnapshot itemsIds, input = .itemsAnswered itemsTableSnapshot itemsIds ∧
        itemSnapshot = itemsTableSnapshot.sub [id]) ∨ input = .itemsChildAdded id itemSnapshot) →
      Item.deserialize s.list.items_id id itemSnapshot = some item → P item)
    (named : ∀ authorName checkedByName item, P item → P (setNames authorName checkedByName item))
    (updated : ∀ ref field value item, input = .itemUpdated ref field value → P item → P (item.update [(field, value)])) :
    ∀ entry ∈ t.data, P entry.item := by
  cases input with
  | loadData =>
    obtain ⟨_, rfl⟩ := Option.ite_none_right_eq_some.mp handled |>.imp_right Option.some.inj
    exact all
  | itemsAnswered itemsTableSnapshot itemsIds =>
    obtain ⟨_, ⟨_, rfl⟩ | ⟨_, data, dictionary, added⟩⟩ := State.itemsAnswered_cases handled
    · split
      · rw [(State.loaded_sameItems _ _).1.2.1]
        exact all
      · exact all
    · obtain ⟨rfl, _⟩ := dictionary?_eq_some dictionary
      exact addLoadedItems_data added all fun id item read => decoded id _ item (.inl ⟨_, _, rfl, rfl⟩) read
  | namesAnswered read usersSnapshot =>
    obtain ⟨_, _, _, entry, _, authorName, _, checkedByName, _, rfl⟩ := State.namesAnswered_eq_some.mp handled
    rw [(State.complete_sameItems _ _).1.2.1]
    exact forall_modify all _ (named authorName checkedByName)
  | itemsChildAdded itemId itemSnapshot =>
    rcases State.itemsChildAdded_cases handled with ⟨_, rfl⟩ | ⟨_, itemDict, dictionary, added⟩
    · exact all
    · obtain ⟨rfl, _⟩ := dictionary?_eq_some dictionary
      exact addLoadedItem_data added all fun item read => decoded itemId itemDict item (.inr rfl) read
  | itemsChildRemoved itemId =>
    cases handled
    unfold State.itemsChildRemoved
    split
    · rw [(State.tell_sameItems _ _).1.2.1]
      exact fun entry member => all entry (List.mem_of_mem_eraseIdx member)
    · exact all
  | itemUpdated ref field value =>
    obtain ⟨entry, _, rfl⟩ := State.itemUpdated_eq_some.mp handled
    exact forall_modify all _ fun item holds => updated ref field value item rfl holds
  | delegateGone =>
    cases handled
    exact all

theorem handle_list {s t : State} {input : Input} (handled : handle s input = some t) : t.list = s.list := (handle_grows handled).list

end SingleListManager

/-! ## What is shown -/

theorem mem_childrenChanged {before after : Snapshot} {k : Key} {value : Option Value} :
    (k, value) ∈ childrenChanged before after ↔
      (before.Present [k] ∧ after.Present [k] ∧ before.sub [k] ≠ after.sub [k]) ∧ value = after.at? [k] := by
  simp only [childrenChanged, List.mem_map, List.mem_filter, decide_eq_true_eq, Tree.mem_childKeys, Prod.mk.injEq]
  constructor
  · rintro ⟨_, ⟨there, old, changed⟩, rfl, rfl⟩
    exact ⟨⟨old, there, changed⟩, rfl⟩
  · rintro ⟨⟨old, there, changed⟩, rfl⟩
    exact ⟨k, ⟨there, old, changed⟩, rfl, rfl⟩

theorem raisedAmong_eq_true {past : List Store} {device : Nat} {ref : Reference} {event : Key × Option Value}
    (raised : raisedAmong device ref event past = true) : ∃ before ∈ past, ∃ after ∈ past,
      event ∈ childrenChanged ((before.view device).sub ref) ((after.view device).sub ref) := by
  induction past with
  | nil => cases raised
  | cons after rest ih =>
    cases rest with
    | nil => cases raised
    | cons before earlier =>
      simp only [raisedAmong, Bool.or_eq_true, decide_eq_true_eq] at raised
      rcases raised with now | then_
      · exact ⟨before, by simp, after, by simp, now⟩
      · obtain ⟨first, inFirst, second, inSecond, changed⟩ := ih then_
        exact ⟨first, List.mem_cons_of_mem _ inFirst, second, List.mem_cons_of_mem _ inSecond, changed⟩

theorem heldAmong_eq_true {past : List Store} {device : Nat} {ref : Reference} {snapshot : Snapshot} :
    heldAmong past device ref snapshot = true ↔ ∃ v ∈ past, (v.view device).sub ref = snapshot := by
  simp [heldAmong]

/-- What clients do, of the events of the system. -/
def storeActions (events : List SystemEvent) : List (Nat × Action) :=
  events.filterMap fun
    | .store l => some l
    | _ => none

theorem mem_storeActions {events : List SystemEvent} {l : Nat × Action} : l ∈ storeActions events ↔ .store l ∈ events := by
  rw [storeActions, List.mem_filterMap]
  constructor
  · rintro ⟨event, member, same⟩
    cases event <;> cases same
    exact member
  · exact fun member => ⟨_, member, rfl⟩

/-- The list is that of a call of `AddNewList`, which has been stored or was made on this device. -/
def ListShown (done : List (Nat × Action)) (past : List Store) (calls : List NewList) (device : Nat) (list : ListObject) : Prop :=
  ∃ call ∈ calls, list = call.object ∧
    ((∃ v ∈ past, v.world.db.Present [Keys.lists, call.newListKey]) ∨ (device, .addNewList call) ∈ done)

/-- Title and author of the item are those of one call of `AddNewItem`. -/
def ItemShown (done : List Action) (I : Key) (item : Item) : Prop :=
  ∃ made title authorId, .addNewItem made title authorId item.id ∈ done ∧ made.items_id = I.val ∧
    item.title = title ∧ item.authorId = authorId.val

/-- What holds of the managers of a system in every state it reaches. -/
structure Shown (w : World) (done : List (Nat × Action)) (s : System) : Prop where
  recorded : Recorded w done s.store
  past : ∀ v ∈ s.past, ∃ earlier, Recorded w earlier v ∧ (∀ l ∈ earlier, l ∈ done) ∧ ∀ call ∈ v.world.calls, call ∈ s.store.world.calls
  lists : ∀ u n, ∀ list ∈ (s.device (.lists u n)).state.data, ListShown done s.past s.store.world.calls n list
  opened : ∀ list n, (s.device (.items list n)).state.list = list
  items : ∀ list n I, list.items_id = I.val → ∀ entry ∈ (s.device (.items list n)).state.data,
    ItemShown (done.map Prod.snd) I entry.item

theorem ListShown.mono {done more : List (Nat × Action)} {past later : List Store} {calls calls' : List NewList} {n : Nat}
    {list : ListObject} (shown : ListShown done past calls n list) (asked : ∀ l ∈ done, l ∈ more) (kept : ∀ v ∈ past, v ∈ later)
    (called : ∀ call ∈ calls, call ∈ calls') : ListShown more later calls' n list := by
  obtain ⟨call, member, same, stored | own⟩ := shown
  · obtain ⟨v, inPast, present⟩ := stored
    exact ⟨call, called call member, same, .inl ⟨v, kept v inPast, present⟩⟩
  · exact ⟨call, called call member, same, .inr (asked _ own)⟩

theorem ItemShown.mono {done more : List Action} {I : Key} {item : Item} (shown : ItemShown done I item)
    (asked : ∀ action ∈ done, action ∈ more) : ItemShown more I item := by
  obtain ⟨made, title, authorId, member, rest⟩ := shown
  exact ⟨made, title, authorId, asked _ member, rest⟩

/-- An `Update` with the title that is there already changes nothing. -/
theorem ListObject.update_title {list : ListObject} {field : Key} {value : Option Value}
    (same : field = Keys.title → value = some (.string list.title)) : list.update [(field, value)] = list := by
  simp only [ListObject.update, List.foldl_cons, List.foldl_nil]
  unfold ListObject.updateField
  split
  · rename_i isTitle
    rw [same isTitle]
    rfl
  · rfl

namespace Shown
variable {w : World} {done : List (Nat × Action)} {s : System}

theorem start (initial : Initial w) (le : Key → Key → Bool) : Shown w [] (System.start le w) where
  recorded := .start initial
  past := by
    intro v member
    obtain rfl := List.mem_singleton.mp member
    exact ⟨[], .start initial, by simp, fun _ called => called⟩
  lists := fun u n list member => by cases member
  opened := fun _ _ => rfl
  items := fun list n I table entry member => by cases member

/-- What a device saw at any time. -/
theorem asMade (initial : Initial w) (shown : Shown w done s) {v : Store} (member : v ∈ s.past) (device : Nat) :
    AsMade s.store.world.calls (done.map Prod.snd) (v.view device) := by
  obtain ⟨earlier, recorded, asked, called⟩ := shown.past v member
  refine (recorded.asMade initial device).mono called ?_
  intro l t a k added
  obtain ⟨⟨n, action⟩, inEarlier, rfl⟩ := List.mem_map.mp added
  exact List.mem_map.mpr ⟨_, asked _ inEarlier, rfl⟩

/-- A list that is read was stored at some time, or made on this device. -/
theorem list_read (initial : Initial w) (shown : Shown w done s) {n : Nat} {listId : Key} {listSnapshot : Snapshot}
    (held : heldAmong s.past n (listDbRef listId.val) listSnapshot = true) {list : ListObject}
    (read : ListObject.read listId listSnapshot = some list) : ListShown done s.past s.store.world.calls n list := by
  obtain ⟨v, member, rfl⟩ := heldAmong_eq_true.mp held
  rw [listDbRef_key] at read
  obtain ⟨call, called, rfl⟩ := (shown.asMade initial member n).lists listId list read
  have decoded := ListObject.deserialize_eq_some.mp (ListObject.read_eq_some.mp read)
  have own : call.newListKey = listId := decoded.1
  have seen : (v.view n).Present [Keys.lists, listId] :=
    Tree.present_iff.mpr ⟨_, _, Tree.mem_sub.mp (stringAt_eq_some.mp decoded.2.1)⟩
  obtain ⟨earlier, recorded, asked, known⟩ := shown.past v member
  refine ⟨call, called, rfl, ?_⟩
  rcases recorded.listed initial seen with stored | ⟨other, otherCalled, key, made⟩
  · exact .inl ⟨v, member, by rw [own]; exact stored⟩
  · have sound := (shown.recorded.reachable initial).sound
    rw [sound.listKeys call called other (known other otherCalled) (own.trans key.symm)]
    exact .inr (asked _ made)

/-- The entries of a `ListsManager` stay those of calls. -/
theorem lists_input (initial : Initial w) (shown : Shown w done s) {u : Key} {n : Nat} {input : ListsManager.Input}
    (served : Manager.serves (.lists u n) s.past input = true) {t : ListsManager.State}
    (handled : ListsManager.handle (s.device (.lists u n)).state input = some t) :
    ∀ list ∈ t.data, ListShown done s.past s.store.world.calls n list := by
  refine ListsManager.handle_data handled (shown.lists u n) ?_ ?_
  · rintro listId listSnapshot list (rfl | rfl) read
    · exact shown.list_read initial served read
    · exact shown.list_read initial served read
  · rintro id field value list rfl own listed
    rw [ListObject.update_title]
    · exact listed
    · -- The title that an event reports is the one that every record of the list has.
      rintro rfl
      obtain ⟨call, called, rfl, _⟩ := listed
      obtain ⟨before, _, after, inPast, raised⟩ := raisedAmong_eq_true served
      obtain ⟨⟨_, there, _⟩, rfl⟩ := mem_childrenChanged.mp raised
      rw [listDbRef_key, Tree.present_sub] at there
      obtain ⟨r, v, leaf⟩ := Tree.present_iff.mp there
      obtain ⟨other, otherCalled, key, rfl, rfl⟩ := (shown.asMade initial inPast n).titles id r v leaf
      have sound := (shown.recorded.reachable initial).sound
      have same := sound.listKeys other otherCalled call called (key.trans own.symm)
      rw [Tree.at?_sub, Tree.at?_eq_some, listDbRef_key, ← same]
      exact leaf

/-- A fixed field that a device saw is that of the call that made the item. -/
theorem field_seen (initial : Initial w) (shown : Shown w done s) {v : Store} (member : v ∈ s.past) {n : Nat} {I k : Key} {item : Item}
    (decoded : Item.deserialize I.val k ((v.view n).sub [Keys.items, I, Keys.items, k]) = some item) {f : ItemKeys} (fixed : f.Fixed) :
    ∃ made title authorId, .addNewItem made title authorId k ∈ done.map Prod.snd ∧ made.items_id = I.val ∧
      item.field f = madeField title authorId f := by
  have stored := Item.at?_of_deserialize decoded f
  rw [Tree.at?_sub] at stored
  obtain ⟨made, title, authorId, asked, table, same⟩ :=
    (shown.asMade initial member n).items I k f fixed (Tree.present_of_at? stored)
  refine ⟨made, title, authorId, asked, table, ?_⟩
  have value := congrArg (fun snapshot => Tree.at? snapshot []) same
  simp only [Tree.at?_sub, List.append_nil] at value
  exact Option.some.inj (stored.symm.trans (value.trans (by simp [Tree.at?, Tree.leaf])))

theorem of_record (initial : Initial w) (shown : Shown w done s) {v : Store} (member : v ∈ s.past) {n : Nat} {I k : Key} {item : Item}
    (decoded : Item.deserialize I.val k ((v.view n).sub [Keys.items, I, Keys.items, k]) = some item) :
    ItemShown (done.map Prod.snd) I item := by
  obtain ⟨made, title, authorId, asked, table, titled⟩ := shown.field_seen initial member decoded (.inl rfl)
  obtain ⟨made', title', authorId', asked', _, named⟩ := shown.field_seen initial member decoded (.inr rfl)
  obtain ⟨rfl, rfl, rfl⟩ := shown.recorded.once.same _ _ _ _ _ _ k asked asked'
  rw [← Item.deserialize_id decoded] at asked
  exact ⟨made, title, authorId, asked, table, Value.string.inj titled, Value.string.inj named⟩

/-- No device sees the title of an item change. -/
theorem no_title_changes (initial : Initial w) (shown : Shown w done s) {before after : Store} (inBefore : before ∈ s.past)
    (inAfter : after ∈ s.past) (n : Nat) (I k : Key) (value : Option Value) :
    (Keys.title, value) ∉ childrenChanged ((before.view n).sub (itemDbRef I.val k.val)) ((after.view n).sub (itemDbRef I.val k.val)) := by
  intro raised
  obtain ⟨⟨old, there, changed⟩, _⟩ := mem_childrenChanged.mp raised
  simp only [itemDbRef_key, Tree.present_sub, Tree.sub_sub, List.cons_append, List.nil_append] at old there changed
  obtain ⟨_, _, _, asked, _, was⟩ := (shown.asMade initial inBefore n).items I k .title (.inl rfl) old
  obtain ⟨_, _, _, asked', _, is⟩ := (shown.asMade initial inAfter n).items I k .title (.inl rfl) there
  obtain ⟨rfl, rfl, rfl⟩ := shown.recorded.once.same _ _ _ _ _ _ k asked asked'
  exact changed (was.trans is.symm)

/-- The entries of a `SingleListManager` keep their titles and authors. -/
theorem items_input (initial : Initial w) (shown : Shown w done s) {list : ListObject} {n : Nat} {I : Key} (table : list.items_id = I.val)
    {input : SingleListManager.Input} (served : Manager.serves (.items list n) s.past input = true)
    {t : SingleListManager.State} (handled : SingleListManager.handle (s.device (.items list n)).state input = some t) :
    ∀ entry ∈ t.data, ItemShown (done.map Prod.snd) I entry.item := by
  refine SingleListManager.handle_data handled (shown.items list n I table) ?_ ?_ ?_
  · rintro id itemSnapshot item (⟨itemsTableSnapshot, itemsIds, rfl, rfl⟩ | rfl) decoded
    · obtain ⟨v, member, rfl⟩ := heldAmong_eq_true.mp served
      rw [shown.opened list n, table, Tree.sub_sub, items_child_key] at decoded
      exact shown.of_record initial member decoded
    · obtain ⟨v, member, rfl⟩ := heldAmong_eq_true.mp served
      rw [shown.opened list n, table, itemDbRef_key] at decoded
      exact shown.of_record initial member decoded
  · rintro authorName checkedByName item ⟨made, title, authorId, asked, own, titled, named⟩
    refine ⟨made, title, authorId, ?_⟩
    unfold SingleListManager.setNames
    cases authorName <;> cases checkedByName <;> exact ⟨asked, own, titled, named⟩
  · rintro ref field value item rfl ⟨made, title, authorId, asked, own, titled, named⟩
    obtain ⟨sameId, sameAuthor, _, _⟩ := item.update_same [(field, value)]
    have other : field ≠ ItemKeys.title.rawValue := by
      rintro rfl
      obtain ⟨itemId, _, raised⟩ := List.any_eq_true.mp served
      obtain ⟨before, inBefore, after, inAfter, changed⟩ := raisedAmong_eq_true raised
      rw [table] at changed
      exact shown.no_title_changes initial inBefore inAfter n I itemId value changed
    have sameTitle : (item.update [(field, value)]).field .title = item.field .title := Item.field_updateField_other item other value
    exact ⟨made, title, authorId, by rw [sameId]; exact asked, own, (Value.string.inj sameTitle).trans titled, sameAuthor.trans named⟩

theorem step {le : Key → Key → Bool} {t : System} {event : SystemEvent} (initial : Initial w) (shown : Shown w done s)
    (stepped : (network le).step s event = some t) : Shown w (done ++ storeActions [event]) t := by
  have asked : ∀ l ∈ done, l ∈ done ++ storeActions [event] := fun _ member => List.mem_append_left _ member
  have askedActions : ∀ action ∈ done.map Prod.snd, action ∈ (done ++ storeActions [event]).map Prod.snd := by
    intro action member
    rw [List.map_append]
    exact List.mem_append_left _ member
  rcases Network.step_cases stepped with ⟨l, store, rfl, advanced, rfl⟩ | ⟨m, own, device, isOwn, moved, rfl⟩
  · have calls : ∀ call ∈ s.store.world.calls, call ∈ store.world.calls := step_calls (Store.advance_spec advanced).1
    have recorded : Recorded w (done ++ storeActions [.store l]) store := shown.recorded.advance advanced
    have kept : ∀ v ∈ s.past, v ∈ store :: s.past := fun _ member => List.mem_cons_of_mem _ member
    refine ⟨recorded, ?_, ?_, shown.opened, ?_⟩
    · intro v member
      rcases List.mem_cons.mp member with rfl | old
      · exact ⟨_, recorded, fun _ member => member, fun _ called => called⟩
      · obtain ⟨earlier, then_, did, called⟩ := shown.past v old
        exact ⟨earlier, then_, fun l member => asked l (did l member), fun call member => calls call (called call member)⟩
    · exact fun u n list member => (shown.lists u n list member).mono asked kept calls
    · exact fun list n I table entry member => (shown.items list n I table entry member).mono askedActions
  · have none : storeActions [event] = [] := by cases isOwn <;> rfl
    rw [none, List.append_nil]
    refine ⟨shown.recorded, shown.past, ?_, ?_, ?_⟩
    · intro u n list member
      rcases Network.step_state stepped (.lists u n) with same | ⟨input, _, served, handled⟩
      · rw [same] at member
        exact shown.lists u n list member
      · exact shown.lists_input initial served handled list member
    · intro list n
      rcases Network.step_state stepped (.items list n) with same | ⟨input, _, _, handled⟩
      · rw [same]
        exact shown.opened list n
      · exact (SingleListManager.handle_list handled).trans (shown.opened list n)
    · intro list n I table entry member
      rcases Network.step_state stepped (.items list n) with same | ⟨input, _, served, handled⟩
      · rw [same] at member
        exact shown.items list n I table entry member
      · exact shown.items_input initial table served handled entry member

theorem of_run {le : Key → Key → Bool} (initial : Initial w) {events : List SystemEvent}
    (run : Runs.exec (network le).step (System.start le w) events = some s) : Shown w (storeActions events) s := by
  have keep : ∀ (done : List SystemEvent) (s : System) (event : SystemEvent) (t : System), Shown w (storeActions done) s →
      (network le).step s event = some t → Shown w (storeActions (done ++ [event])) t := by
    intro done s event t shown stepped
    have split : storeActions (done ++ [event]) = storeActions done ++ storeActions [event] := List.filterMap_append
    rw [split]
    exact shown.step initial stepped
  exact Runs.exec_history keep [] (Shown.start initial le) run

end Shown

/-- In every state that the system reaches, whatever was read and however late it came, every list that a
    `ListsManager` holds is the list that the database has under its id; where the database has none, it had
    one at some time, or the list was made on this device. -/
theorem shown_lists_are_stored (le : Key → Key → Bool) {w : World} (initial : Initial w) {events : List SystemEvent} {s : System}
    (run : Runs.exec (network le).step (System.start le w) events = some s) (u : Key) (n : Nat) :
    ∀ list ∈ (s.device (.lists u n)).state.data,
      (s.store.world.db.Present (listDbRef list.id.val) →
        ListObject.read list.id (s.store.world.db.sub (listDbRef list.id.val)) = some list) ∧
      (¬ s.store.world.db.Present (listDbRef list.id.val) →
        (∃ v ∈ s.past, v.world.db.Present (listDbRef list.id.val)) ∨
          ∃ call, list = call.object ∧ .store (n, .addNewList call) ∈ events) := by
  intro list member
  have shown := Shown.of_run initial run
  obtain ⟨call, called, rfl, origin⟩ := shown.lists u n list member
  simp only [listDbRef_key]
  constructor
  · exact (shown.recorded.reachable initial).sound.read_object called
  · intro _
    refine origin.imp_right fun made => ⟨call, rfl, mem_storeActions.mp made⟩

theorem shown_lists_are_stored_sharedRun : ∃ s : System,
    Runs.exec (network byString).step (System.start byString (World.registered Sample.alice "alice@mail")) sharedRun = some s ∧
      ∃ list ∈ (s.device (.lists Sample.alice 1)).state.data,
        ListObject.read list.id (s.store.world.db.sub (listDbRef list.id.val)) = some list := by
  have passed : (Runs.exec (network byString).step (System.start byString (World.registered Sample.alice "alice@mail"))
      sharedRun).any (fun s => decide (∃ list ∈ (s.device (.lists Sample.alice 1)).state.data,
        s.store.world.db.Present (listDbRef list.id.val))) = true := by
    decide +kernel
  obtain ⟨s, run, shown⟩ := (Option.any_eq_true _ _).mp passed
  obtain ⟨list, member, present⟩ := of_decide_eq_true shown
  exact ⟨s, run, list, member,
    (shown_lists_are_stored byString (initial_registered Sample.alice "alice@mail") run Sample.alice 1 list member).1 present⟩

/-- Every item that a `SingleListManager` holds has the title and the author that its record has in
    the database, as far as these are there. -/
theorem shown_items_are_stored (le : Key → Key → Bool) {w : World} (initial : Initial w) {events : List SystemEvent} {s : System}
    (run : Runs.exec (network le).step (System.start le w) events = some s) {list : ListObject} {I : Key}
    (table : list.items_id = I.val) (n : Nat) :
    ∀ entry ∈ (s.device (.items list n)).state.data, ∀ f : ItemKeys, f.Fixed →
      s.store.world.db.Present (child (itemDbRef I.val entry.item.id.val) f.rawValue.val) →
      (s.store.world.db.sub (itemDbRef I.val entry.item.id.val)).at? [f.rawValue] = some (entry.item.field f) := by
  intro entry member f fixed present
  have shown := Shown.of_run initial run
  obtain ⟨made, title, authorId, asked, _, titled, named⟩ := shown.items list n I table entry member
  rw [child_key, itemDbRef_key] at present
  obtain ⟨_, _, _, asked', _, same⟩ := (shown.recorded.accounted initial).asMade.items I _ f fixed present
  obtain ⟨rfl, rfl, rfl⟩ := shown.recorded.once.same _ _ _ _ _ _ _ asked asked'
  have value := congrArg (fun snapshot => Tree.at? snapshot []) same
  simp only [Tree.at?_sub, List.append_nil] at value
  rw [Tree.at?_sub, itemDbRef_key]
  refine value.trans ?_
  rcases fixed with rfl | rfl
  · simp [Tree.at?, Tree.leaf, madeField, Item.field, titled]
  · simp [Tree.at?, Tree.leaf, madeField, Item.field, named]

/-- Milk is put on the list, and a device opens the list and loads it. -/
def openedRun : List SystemEvent :=
  open Sample in
  checkedMilkRun.map (fun action => .store (0, action)) ++
    [.input (.items groceryList 0) .loadData, .readKeys (.items groceryList 0),
     .input (.items groceryList 0) (.itemsAnswered (Tree.empty.put [milk] (((((Tree.empty.put [Keys.title] (string "Milk")).put
       [Keys.author_id] (string "alice")).put [Keys.checked] (bool true))).put [Keys.checked_by_id] (string "alice"))) [milk])]

theorem shown_items_are_stored_openedRun : ∃ s : System,
    Runs.exec (network byString).step (System.start byString (World.registered Sample.alice "alice@mail")) openedRun = some s ∧
      ∃ entry ∈ (s.device (.items Sample.groceryList 0)).state.data, entry.item.id = Sample.milk ∧
        (s.store.world.db.sub (itemDbRef Sample.groceryItems.val Sample.milk.val)).at? [Keys.title] = some (.string entry.item.title) := by
  have passed : (Runs.exec (network byString).step (System.start byString (World.registered Sample.alice "alice@mail"))
      openedRun).any (fun s => decide (∃ entry ∈ (s.device (.items Sample.groceryList 0)).state.data, entry.item.id = Sample.milk ∧
        s.store.world.db.Present (child (itemDbRef Sample.groceryItems.val entry.item.id.val) Keys.title.val))) = true := by
    decide +kernel
  obtain ⟨s, run, shown⟩ := (Option.any_eq_true _ _).mp passed
  obtain ⟨entry, member, own, present⟩ := of_decide_eq_true shown
  refine ⟨s, run, entry, member, own, ?_⟩
  rw [← own]
  exact shown_items_are_stored byString (initial_registered Sample.alice "alice@mail") run
    (show Sample.groceryList.items_id = Sample.groceryItems.val from rfl) 0 entry member .title (.inl rfl) present

/-- Two devices of one user that stay in step show the same lists whenever both have settled and none of their
    writes is on its way. -/
theorem devices_show_same_lists (le : Key → Key → Bool) {w : World} (initial : Initial w) (u : Key) (n m : Nat)
    {events : List SystemEvent} (stays : Runs.Along (network le).step (fun s event => (network le).StaysInStep (.lists u n) s event ∧
      (network le).StaysInStep (.lists u m) s event) (System.start le w) events) :
    Runs.Always (network le).step (fun s => ListsManager.follower.Settled (s.device (.lists u n)) →
      ListsManager.follower.Settled (s.device (.lists u m)) → ownWrites s.store.sent n = [] → ownWrites s.store.sent m = [] →
        (s.device (.lists u n)).state.data.Perm (s.device (.lists u m)).state.data) (System.start le w) events := by
  let loading := fun (s : ListsManager.State) (history : List (ChildEvent Key)) => ListsManager.Session.Loading ⟨s, history⟩
  let inv := fun s : System => (∃ done, Shown w done s) ∧ (network le).Kept (.lists u n) loading s ∧ (network le).Kept (.lists u m) loading s
  have start : inv (System.start le w) :=
    ⟨⟨[], .start initial le⟩, ⟨.start _ ListsManager.Session.loading_new rfl rfl, rfl⟩,
      ⟨.start _ ListsManager.Session.loading_new rfl rfl, rfl⟩⟩
  have keep : ∀ s event t, inv s → ((network le).StaysInStep (.lists u n) s event ∧
      (network le).StaysInStep (.lists u m) s event) → (network le).step s event = some t → inv t := by
    rintro s event t ⟨⟨done, shown⟩, first, second⟩ ⟨stay, other⟩ stepped
    exact ⟨⟨_, shown.step initial stepped⟩, first.step ListsManager.refines stay stepped, second.step ListsManager.refines other stepped⟩
  refine (Runs.always_of_invariant keep start stays).mono ?_
  rintro s ⟨⟨done, shown⟩, first, second⟩ settledN settledM noWritesN noWritesM
  have sound := (shown.recorded.reachable initial).sound
  have sameView : s.store.view n = s.store.view m := by rw [Store.view, Store.view, noWritesN, noWritesM]
  have sameTable : (s.device (.lists u n)).table.keys = (s.device (.lists u m)).table.keys := by
    rw [first.keys, second.keys]
    exact congrArg (fun view : Database => (view.sub (userListsDbRef u.val)).childKeys.toFinset) sameView
  -- Both hold the keys of the user, and there is one list for each key.
  have within : ∀ {i j}, (network le).Kept (.lists u i) loading s → (network le).Kept (.lists u j) loading s →
      ListsManager.follower.Settled (s.device (.lists u i)) → ListsManager.follower.Settled (s.device (.lists u j)) →
      (s.device (.lists u i)).table.keys = (s.device (.lists u j)).table.keys →
        ∀ list ∈ (s.device (.lists u i)).state.data, list ∈ (s.device (.lists u j)).state.data := by
    intro i j keptI keptJ settledI settledJ sameKeys list member
    have held : list.id ∈ ListsManager.State.ids (s.device (.lists u i)).state := List.mem_map_of_mem member
    have stored := sameKeys ▸ (keptI.inStep.agrees settledI list.id).mp held
    obtain ⟨other, listed, sameId⟩ := List.mem_map.mp ((keptJ.inStep.agrees settledJ list.id).mpr stored)
    obtain ⟨call, called, rfl, _⟩ := shown.lists u i list member
    obtain ⟨otherCall, otherCalled, rfl, _⟩ := shown.lists u j other listed
    rwa [sound.listKeys otherCall otherCalled call called sameId] at listed
  have distinct : ∀ {i}, (network le).Kept (.lists u i) loading s → (s.device (.lists u i)).state.data.Nodup :=
    fun kept => List.Nodup.of_map _ kept.inStep.tracks.clean.distinct
  refine (List.perm_ext_iff_of_nodup (distinct first) (distinct second)).mpr fun list => ⟨?_, ?_⟩
  · exact within first second settledN settledM sameTable list
  · exact within second first settledM settledN sameTable.symm list

theorem devices_show_same_lists_sharedRun :
    Runs.Always (network byString).step (fun s => ListsManager.follower.Settled (s.device (.lists Sample.alice 0)) →
      ListsManager.follower.Settled (s.device (.lists Sample.alice 1)) → ownWrites s.store.sent 0 = [] → ownWrites s.store.sent 1 = [] →
        (s.device (.lists Sample.alice 0)).state.data.Perm (s.device (.lists Sample.alice 1)).state.data)
      (System.start byString (World.registered Sample.alice "alice@mail")) sharedRun :=
  devices_show_same_lists byString (initial_registered Sample.alice "alice@mail") Sample.alice 0 1 (by decide +kernel)

end SharedList
