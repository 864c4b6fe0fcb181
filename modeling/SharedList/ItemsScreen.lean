import SharedList.SingleListViewController

/-!
`SingleListViewController` with its table. The table view is loaded when the manager
calls its delegate, while the items change under it before that: a new item is there
before the names of its users, and a changed one before they have been read again.
What the table lags behind by is what the names are being read for.
-/
namespace SharedList
namespace SingleListManager

/-- The names of the item's users are being read. -/
def State.Naming (s : State) (entry : ItemWithObserver) : Prop := ∃ read ∈ s.nameReads, read.ref = entry.ref

/-- The table of `s` lags behind `t` only where the names are being read. -/
structure Lags (s t : State) : Prop where
  reads : ∀ read ∈ s.nameReads, read ∈ t.nameReads
  entries : ∀ i : Nat, t.data[i]? = s.data[i]? ∨ ∃ entry, t.data[i]? = some entry ∧ t.Naming entry

theorem Lags.of_same {s t : State} (data : t.data = s.data) (reads : t.nameReads = s.nameReads) : Lags s t :=
  ⟨fun read member => reads ▸ member, fun i => .inl (by rw [data])⟩

theorem Lags.addLoadedItem {s t u : State} {id : Key} {data : Snapshot} {lastItem : Bool} (lags : Lags s t)
    (added : t.addLoadedItem id data lastItem = some u) : Lags s u := by
  obtain ⟨newItem, _, rfl⟩ := State.addLoadedItem_eq_some.mp added
  refine ⟨fun read member => List.mem_append_left _ (lags.reads read member), ?_⟩
  intro i
  by_cases old : i < t.data.length
  · rw [List.getElem?_append_left old]
    rcases lags.entries i with same | ⟨entry, here, read, member, own⟩
    · exact .inl same
    · exact .inr ⟨entry, here, read, List.mem_append_left _ member, own⟩
  · -- the place of the new item, or one beyond all
    have none : t.data[i]? = none := List.getElem?_eq_none (Nat.le_of_not_lt old)
    by_cases last : i = t.data.length
    · refine .inr ⟨⟨t.nextRef, newItem⟩, ?_, ⟨t.nextRef, .addLoadedItem lastItem⟩, ?_, rfl⟩
      · simp [last]
      · simp
    · have beyond : (t.data ++ [(⟨t.nextRef, newItem⟩ : ItemWithObserver)])[i]? = .none := by
        refine List.getElem?_eq_none ?_
        rw [List.length_append, List.length_singleton]
        omega
      rcases lags.entries i with same | ⟨entry, here, _⟩
      · exact .inl (beyond.trans (none.symm.trans same))
      · rw [none] at here
        cases here

theorem lags_itemUpdated {s t : State} {ref : Nat} {field : Key} {value : Option Value}
    (updated : s.itemUpdated ref field value = some t) : Lags s t := by
  obtain ⟨changed, _, rfl⟩ := State.itemUpdated_eq_some.mp updated
  refine ⟨fun read member => List.mem_append_left _ member, ?_⟩
  intro i
  have modified : (s.modify changed.ref fun item => item.update [(field, value)]).data[i]? = s.data[i]?.map fun entry =>
      if entry.ref = changed.ref then { entry with item := entry.item.update [(field, value)] } else entry := List.getElem?_map
  cases here : s.data[i]? with
  | none =>
    rw [here] at modified
    exact .inl modified
  | some entry =>
    rw [here, Option.map_some] at modified
    by_cases own : entry.ref = changed.ref
    · rw [if_pos own] at modified
      exact .inr ⟨_, modified, ⟨changed.ref, .itemChanged⟩, by simp [State.loadUserNames], own.symm⟩
    · rw [if_neg own] at modified
      exact .inl modified

/-- Where the delegate is there: it is called, or the table lags behind by what the names are read for. -/
theorem handle_told {s t : State} {input : Input} (alive : s.delegate = true) (stays : input ≠ .delegateGone)
    (handled : handle s input = some t) :
    t.delegate = true ∧ ∃ told, t.calls = s.calls ++ told ∧ (told = [] → Lags s t) := by
  cases input with
  | delegateGone => exact absurd rfl stays
  | loadData =>
    obtain ⟨_, rfl⟩ := Option.ite_none_right_eq_some.mp handled |>.imp_right Option.some.inj
    exact ⟨alive, [], (List.append_nil _).symm, fun _ => .of_same rfl rfl⟩
  | itemsAnswered itemsTableSnapshot itemsIds =>
    obtain ⟨_, ⟨_, rfl⟩ | ⟨_, data, _, added⟩⟩ := State.itemsAnswered_cases handled
    · rw [if_pos alive]
      have told : ({ s with load := .answered }.tell .dataLoaded).activateObservers.calls = s.calls ++ [.dataLoaded] := by
        rw [State.activateObservers_calls, State.tell, if_pos alive]
      refine ⟨?_, _, told, by simp⟩
      unfold State.activateObservers
      split <;> simp [State.tell, alive]
    · have kept : t.delegate = true ∧ t.calls = s.calls ∧ Lags s t := by
        have start : s.delegate = true ∧ s.calls = s.calls ∧ Lags s { s with load := .answered } := ⟨alive, rfl, .of_same rfl rfl⟩
        refine @State.addLoadedItems_keep (fun u => u.delegate = true ∧ u.calls = s.calls ∧ Lags s u) ?_ data itemsIds _ _ start added
        rintro u v id data lastItem ⟨delegate, calls, lags⟩ one
        refine ⟨?_, (addLoadedItem_calls one).trans calls, lags.addLoadedItem one⟩
        obtain ⟨newItem, _, rfl⟩ := State.addLoadedItem_eq_some.mp one
        exact delegate
      exact ⟨kept.1, [], by rw [kept.2.1, List.append_nil], fun _ => kept.2.2⟩
  | namesAnswered read usersSnapshot =>
    obtain ⟨_, _, _, entry, _, authorName, _, checkedByName, _, rfl⟩ := State.namesAnswered_eq_some.mp handled
    cases completion : read.completion with
    | itemChanged =>
      simp only [State.complete, State.tell, State.modify, alive, if_true]
      exact ⟨trivial, [.dataLoaded], rfl, by simp⟩
    | addLoadedItem lastItem =>
      cases lastItem with
      | false =>
        simp only [State.complete, State.tell, State.modify, alive, if_true, Bool.false_eq_true, if_false]
        exact ⟨trivial, [.newItemAdded], rfl, by simp⟩
      | true =>
        simp only [State.complete, State.tell, State.modify, alive, if_true, State.activateObservers]
        split <;> exact ⟨rfl, [.dataLoaded], rfl, by simp⟩
  | itemsChildAdded itemId itemSnapshot =>
    rcases State.itemsChildAdded_cases handled with ⟨_, rfl⟩ | ⟨_, itemDict, _, added⟩
    · exact ⟨alive, [], (List.append_nil _).symm, fun _ => .of_same rfl rfl⟩
    · refine ⟨?_, [], (addLoadedItem_calls added).trans (List.append_nil _).symm, fun _ => (Lags.of_same rfl rfl).addLoadedItem added⟩
      obtain ⟨newItem, _, rfl⟩ := State.addLoadedItem_eq_some.mp added
      exact alive
  | itemsChildRemoved itemId =>
    obtain rfl := Option.some.inj handled
    cases found : s.findItemIndex itemId with
    | none =>
      rw [State.itemsChildRemoved, found]
      exact ⟨alive, [], (List.append_nil _).symm, fun _ => .of_same rfl rfl⟩
    | some index =>
      rw [State.itemsChildRemoved, found]
      simp only [State.tell, alive, if_true]
      exact ⟨trivial, [.itemRemoved], rfl, by simp⟩
  | itemUpdated ref field value =>
    have lags := lags_itemUpdated handled
    obtain ⟨entry, _, rfl⟩ := State.itemUpdated_eq_some.mp handled
    exact ⟨alive, [], (List.append_nil _).symm, fun _ => lags⟩

end SingleListManager

namespace SingleListViewController
open SingleListManager (ItemWithObserver)

/-- What a row shows; a checked item has a checkmark and is grey. -/
inductive Cell where
  | item (title detailText : String) (checkmark : Bool)
  /-- `"Add items"` -/
  | addItems
deriving DecidableEq

structure State where
  listManager : SingleListManager.State
  /-- What `tableView` was last loaded with. -/
  rows : List ItemWithObserver
  dataLoading : Bool
  dispalDetails : Bool
  /-- `newItemNameTextField.isEnabled`, and `allowsSelection` of the table view. -/
  isEnabled : Bool
  /-- Blocks of `SVProgressHUD.dismiss` that have not run yet. -/
  dismissals : Nat

namespace State

/-- The screen after `viewDidLoad`. -/
def loading (list : ListObject) : State where
  listManager := { SingleListManager.State.new list with load := .awaitingItems }
  rows := []
  dataLoading := true
  dispalDetails := false
  isEnabled := false
  dismissals := 0

def reloadData (s : State) : State := { s with rows := s.listManager.data }

/-- A call of the manager's delegate. -/
def called (s : State) : SingleListManager.DelegateCall → State
  | .dataLoaded =>
    let reloaded := s.reloadData
    if reloaded.dataLoading then { reloaded with dismissals := reloaded.dismissals + 1, dataLoading := false } else reloaded
  | .newItemAdded | .itemRemoved => s.reloadData

/-- An input of the manager, with the calls of its delegate. The screen stays, and its data have been asked for. -/
def heard (s : State) : SingleListManager.Input → Option State
  | .delegateGone | .loadData => none
  | input => (SingleListManager.receive s.listManager input).map fun listManager =>
      (listManager.calls.drop s.listManager.calls.length).foldl called { s with listManager := listManager }

/-- The block of `SVProgressHUD.dismiss`. -/
def dismissed (s : State) : Option State :=
  if 0 < s.dismissals then some { s with dismissals := s.dismissals - 1, isEnabled := true } else none

def detailsButtonPressed (s : State) : State := { s with dispalDetails := !s.dispalDetails }.reloadData

/-! ## The table view -/

def numberOfRows (s : State) : Nat := if 0 < s.listManager.data.length then s.listManager.data.length else 1

def prepareDetailedText (s : State) (item : Item) : String :=
  if s.dispalDetails = false then ""
  else "add: " ++ item.authorName ++ if item.checked then " | check: " ++ item.checkedByName else ""

def cell (s : State) : Option ItemWithObserver → Cell
  | some entry => .item entry.item.title (s.prepareDetailedText entry.item) entry.item.checked
  | none => .addItems

def cellForRowAt (s : State) (row : Nat) : Cell := s.cell (s.listManager.getItem row)

/-- The cells of the table as it was last loaded. -/
def cells (s : State) : List Cell := if s.rows = [] then [s.cell none] else s.rows.map fun entry => s.cell (some entry)

end State

inductive Action where
  | manager (input : SingleListManager.Input)
  | dismissed
  | detailsButtonPressed

def step (s : State) : Action → Option State
  | .manager input => s.heard input
  | .dismissed => s.dismissed
  | .detailsButtonPressed => some s.detailsButtonPressed

/-! ## What the table lags behind by -/

/-- Rows are items of the manager in their places, and differ from these only while names are read. -/
structure Tracks (s : State) : Prop where
  delegate : s.listManager.delegate = true
  places : ∃ more, s.listManager.shown = s.rows.map SingleListManager.identity ++ more
  entries : ∀ i : Nat, s.listManager.data[i]? = s.rows[i]? ∨
    ∃ entry, s.listManager.data[i]? = some entry ∧ s.listManager.Naming entry

theorem Tracks.reloaded {s : State} (delegate : s.listManager.delegate = true) (rows : s.rows = s.listManager.data) : Tracks s where
  delegate := delegate
  places := ⟨[], by rw [rows, List.append_nil]; rfl⟩
  entries := fun i => .inl (by rw [rows])

@[simp] theorem called_listManager (s : State) (call : SingleListManager.DelegateCall) :
    (s.called call).listManager = s.listManager := by
  cases call with
  | dataLoaded =>
    simp only [State.called]
    split <;> rfl
  | newItemAdded | itemRemoved => rfl

theorem called_rows (s : State) (call : SingleListManager.DelegateCall) : (s.called call).rows = s.listManager.data := by
  cases call with
  | dataLoaded =>
    simp only [State.called]
    split <;> rfl
  | newItemAdded | itemRemoved => rfl

theorem foldl_called (told : List SingleListManager.DelegateCall) (s : State) :
    (told.foldl State.called s).listManager = s.listManager ∧
      (told.foldl State.called s).rows = if told = [] then s.rows else s.listManager.data := by
  induction told generalizing s with
  | nil => exact ⟨rfl, rfl⟩
  | cons call rest ih =>
    obtain ⟨manager, rows⟩ := ih (s.called call)
    refine ⟨manager.trans (called_listManager s call), ?_⟩
    rw [List.foldl_cons, rows, called_listManager, called_rows]
    simp

theorem heard_eq_some {s t : State} {input : SingleListManager.Input} (heard : s.heard input = some t) :
    input ≠ .delegateGone ∧ ∃ listManager, SingleListManager.receive s.listManager input = some listManager ∧
      t = (listManager.calls.drop s.listManager.calls.length).foldl State.called { s with listManager := listManager } := by
  cases input with
  | delegateGone | loadData => cases heard
  | _ =>
    obtain ⟨listManager, received, rfl⟩ := Option.map_eq_some_iff.mp heard
    exact ⟨by simp, listManager, received, rfl⟩

theorem Tracks.heard {s t : State} {input : SingleListManager.Input} (tracks : Tracks s) (heard : s.heard input = some t) :
    Tracks t := by
  obtain ⟨stays, listManager, received, rfl⟩ := heard_eq_some heard
  have handled := SingleListManager.handle_of_receive received
  obtain ⟨delegate, told, calls, lags⟩ := SingleListManager.handle_told tracks.delegate stays handled
  rw [calls, List.drop_left]
  obtain ⟨manager, rows⟩ := foldl_called told { s with listManager := listManager }
  cases told with
  | cons call rest => exact .reloaded (by rw [manager]; exact delegate) (by rw [manager, rows, if_neg (by simp)])
  | nil =>
    have lag := lags rfl
    have prefixed : ∃ more, listManager.shown = s.listManager.shown ++ more := by
      rcases SingleListManager.handle_shown handled with extended | ⟨itemId, index, rfl, found, _, _⟩
      · obtain ⟨more, shown, _⟩ := extended.shown
        exact ⟨more, shown⟩
      · -- a removal that finds the item is told
        obtain rfl := Option.some.inj handled
        rw [SingleListManager.State.itemsChildRemoved, found] at calls
        simp [SingleListManager.State.tell, tracks.delegate] at calls
    obtain ⟨more, shown⟩ := prefixed
    refine ⟨delegate, ?_, ?_⟩
    · obtain ⟨before, places⟩ := tracks.places
      exact ⟨before ++ more, by rw [List.foldl_nil, shown, places, List.append_assoc]⟩
    · intro i
      rcases lag.entries i with same | pending
      · rcases tracks.entries i with shows | ⟨entry, here, read, member, own⟩
        · exact .inl (same.trans shows)
        · exact .inr ⟨entry, same.trans here, read, lag.reads read member, own⟩
      · exact .inr pending

theorem Tracks.step {s t : State} {action : Action} (tracks : Tracks s)
    (stepped : SingleListViewController.step s action = some t) : Tracks t := by
  cases action with
  | manager input => exact tracks.heard stepped
  | dismissed =>
    obtain ⟨_, gone⟩ := Option.ite_none_right_eq_some.mp stepped
    cases gone
    exact ⟨tracks.delegate, tracks.places, tracks.entries⟩
  | detailsButtonPressed =>
    cases stepped
    exact .reloaded tracks.delegate rfl

theorem Tracks.rows_eq {s : State} (tracks : Tracks s) (named : s.listManager.nameReads = []) : s.rows = s.listManager.data := by
  refine List.ext_getElem? fun i => ?_
  rcases tracks.entries i with same | ⟨_, _, read, member, _⟩
  · exact same.symm
  · rw [named] at member
    cases member

/-- The item in a row, as the table shows it and as the manager has it. -/
theorem Tracks.entry {s : State} (tracks : Tracks s) {row : Nat} {shown : ItemWithObserver} (here : s.rows[row]? = some shown) :
    ∃ entry, s.listManager.getItem row = some entry ∧ SingleListManager.identity entry = SingleListManager.identity shown := by
  obtain ⟨more, places⟩ := tracks.places
  obtain ⟨inside, _⟩ := List.getElem?_eq_some_iff.mp here
  have place : s.listManager.shown[row]? = some (SingleListManager.identity shown) := by
    rw [places, List.getElem?_append_left (by rwa [List.length_map]), List.getElem?_map, here, Option.map_some]
  rw [SingleListManager.State.shown, List.getElem?_map, Option.map_eq_some_iff] at place
  obtain ⟨entry, stands, same⟩ := place
  obtain ⟨within, _⟩ := List.getElem?_eq_some_iff.mp stands
  exact ⟨entry, by rw [SingleListManager.State.getItem, if_pos within, stands], same⟩

/-- What the data source answers for all rows. -/
theorem cells_reloaded {s : State} (rows : s.rows = s.listManager.data) :
    s.cells = (List.range s.numberOfRows).map s.cellForRowAt := by
  rw [State.cells, State.numberOfRows, rows]
  by_cases empty : s.listManager.data = []
  · rw [if_pos empty, empty, if_neg (by simp)]
    simp [State.cellForRowAt, SingleListManager.State.getItem, empty]
  · rw [if_neg empty, if_pos (List.length_pos_iff.mpr empty)]
    refine List.ext_getElem (by simp) fun row inside _ => ?_
    rw [List.length_map] at inside
    simp [State.cellForRowAt, SingleListManager.State.getItem, inside]

/-! ## The loading notice -/

/-- The data are being loaded, or the notice is about to go, or the screen can be used; the first until
    the end of the load has been reported. -/
def PhaseAt (s : State) (reported : Prop) : Prop :=
  (¬ reported ∧ s.dataLoading = true ∧ s.dismissals = 0 ∧ s.isEnabled = false) ∨
    (reported ∧ s.dataLoading = false ∧ (s.dismissals = 1 ∧ s.isEnabled = false ∨ s.dismissals = 0 ∧ s.isEnabled = true))

def Phase (s : State) : Prop := PhaseAt s (.dataLoaded ∈ s.listManager.calls)

theorem PhaseAt.called {s : State} {reported : Prop} (phase : PhaseAt s reported) (call : SingleListManager.DelegateCall) :
    PhaseAt (s.called call) (reported ∨ call = .dataLoaded) := by
  cases call with
  | newItemAdded | itemRemoved => simpa [PhaseAt, State.called, State.reloadData] using phase
  | dataLoaded =>
    rcases phase with ⟨_, loading, none, disabled⟩ | ⟨_, loaded, rest⟩
    · have called : s.called .dataLoaded = { s.reloadData with dismissals := s.dismissals + 1, dataLoading := false } := by
        simp [State.called, State.reloadData, loading]
      rw [called]
      exact .inr ⟨.inr rfl, rfl, .inl ⟨by simp [none], disabled⟩⟩
    · have called : s.called .dataLoaded = s.reloadData := by simp [State.called, State.reloadData, loaded]
      rw [called]
      exact .inr ⟨.inr rfl, loaded, rest⟩

theorem PhaseAt.congr {s : State} {reported told : Prop} (phase : PhaseAt s reported) (same : reported ↔ told) : PhaseAt s told := by
  rwa [PhaseAt, ← same]

theorem PhaseAt.foldl {s : State} {reported : Prop} (phase : PhaseAt s reported) (told : List SingleListManager.DelegateCall) :
    PhaseAt (told.foldl State.called s) (reported ∨ .dataLoaded ∈ told) := by
  induction told generalizing s reported with
  | nil => exact phase.congr (by simp)
  | cons call rest ih => exact (ih (phase.called call)).congr (by simp [or_assoc, eq_comm])

theorem Phase.heard {s t : State} {input : SingleListManager.Input} (phase : Phase s) (tracks : Tracks s)
    (heard : s.heard input = some t) : Phase t := by
  obtain ⟨stays, listManager, received, rfl⟩ := heard_eq_some heard
  obtain ⟨_, told, calls, _⟩ :=
    SingleListManager.handle_told tracks.delegate stays (SingleListManager.handle_of_receive received)
  have before : PhaseAt { s with listManager := listManager } (.dataLoaded ∈ s.listManager.calls) := phase
  rw [Phase, (foldl_called _ _).1, calls, List.drop_left, List.mem_append]
  exact before.foldl told

theorem Phase.step {s t : State} {action : Action} (phase : Phase s) (tracks : Tracks s)
    (stepped : SingleListViewController.step s action = some t) : Phase t := by
  cases action with
  | manager input => exact phase.heard tracks stepped
  | dismissed =>
    obtain ⟨waiting, gone⟩ := Option.ite_none_right_eq_some.mp stepped
    cases gone
    rcases phase with ⟨_, _, none, _⟩ | ⟨reported, loaded, ⟨one, _⟩ | ⟨none, _⟩⟩
    · omega
    · exact .inr ⟨reported, loaded, .inr ⟨by simp [one], rfl⟩⟩
    · omega
  | detailsButtonPressed =>
    cases stepped
    exact phase

/-- In every run of the screen and its manager, the table shows what its data source would answer
    now unless names are being read, a tap on a row reaches the item that the row shows, and
    the screen is in one of its three phases, of which the first lasts until `DataLoaded`. -/
theorem items_screen_shows (list : ListObject) (actions : List Action) {s : State}
    (run : Runs.exec step (State.loading list) actions = some s) :
    (s.listManager.nameReads = [] → s.cells = (List.range s.numberOfRows).map s.cellForRowAt) ∧
    (∀ (row : Nat) shown, s.rows[row]? = some shown → ∃ entry, s.listManager.getItem row = some entry ∧
      SingleListManager.identity entry = SingleListManager.identity shown) ∧
    Phase s := by
  have kept : Tracks s ∧ Phase s := by
    have start : Tracks (State.loading list) ∧ Phase (State.loading list) :=
      ⟨.reloaded rfl rfl, .inl ⟨List.not_mem_nil, rfl, rfl, rfl⟩⟩
    refine @Runs.exec_invariant _ _ step (fun s => Tracks s ∧ Phase s) ?_ _ _ start _ run
    rintro s action t ⟨tracks, phase⟩ stepped
    exact ⟨tracks.step stepped, phase.step tracks stepped⟩
  exact ⟨fun named => cells_reloaded (kept.1.rows_eq named), fun row shown here => kept.1.entry here, kept.2⟩

/-- Milk and bread are loaded, details are asked for, and milk is unchecked by somebody else. -/
def shownRun : List Action :=
  (SingleListManager.checkedRun.drop 1).map .manager ++ [.dismissed, .detailsButtonPressed,
    .manager (.itemUpdated 0 Keys.checked (some (.bool false))), .manager (.namesAnswered ⟨0, .itemChanged⟩ Sample.aliceUsers)]

theorem items_screen_shows_shownRun : ∃ s, Runs.exec step (State.loading Sample.groceryList) shownRun = some s ∧
    s.cells = [.item "Milk" "add: Alice" false, .item "Bread" "add: Alice | check: Alice" true] ∧
    s.cells = (List.range s.numberOfRows).map s.cellForRowAt := by
  have passed : (Runs.exec step (State.loading Sample.groceryList) shownRun).any (fun s => s.listManager.nameReads = [] ∧
      s.cells = [.item "Milk" "add: Alice" false, .item "Bread" "add: Alice | check: Alice" true]) = true := by
    decide +kernel
  obtain ⟨s, run, shown⟩ := (Option.any_eq_true _ _).mp passed
  obtain ⟨named, cells⟩ := of_decide_eq_true shown
  exact ⟨s, run, cells, (items_screen_shows Sample.groceryList shownRun run).1 named⟩

end SingleListViewController
end SharedList
