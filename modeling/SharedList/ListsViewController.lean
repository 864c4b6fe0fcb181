import SharedList.ListsManager

/-!
`ListsViewController`: the screen of the lists. It is the delegate of its
`ListsManager` and lets rows be selected once the loading notice is gone, which
`DataLoaded` and the timeout both lead to. The notice is the one view that all
screens share, which the others show and dismiss too. A row is a list, and where
there is no list there is one row all the same.
-/
namespace SharedList
namespace ListsManager.State

def listCount (s : State) : Nat := s.data.length

def getList (s : State) (idx : Nat) : Option ListObject := if idx < s.listCount then s.data[idx]? else none

end ListsManager.State

namespace ListsViewController

/-- What a row shows. -/
inductive Cell where
  | title (list : ListObject)
  /-- `"Add new list"` -/
  | addNewList
deriving DecidableEq

/-- A row that was selected, and the list that was opened. -/
structure Selection where
  cell : Cell
  opened : ListObject
deriving DecidableEq

structure State where
  listsManager : ListsManager.Session
  selectedListIndex : Option Nat
  loadingInProgress : Bool
  allowsSelection : Bool
  /-- `loadingGuard.isActive`; its timer runs. -/
  guardActive : Bool
  /-- `SVProgressHUD.isVisible()`, of the view that all screens share. -/
  hudVisible : Bool
  /-- Calls of `SVProgressHUD.dismiss` whose delay is not over. -/
  dismissals : Nat
  /-- Those whose view fades out. -/
  fading : Nat
  selections : List Selection
  /-- A force unwrap has failed. -/
  stopped : Bool

namespace State

/-- The screen after `viewDidLoad`, which begins with `InitiateDataLoad`. -/
def loading : State where
  listsManager := ⟨{ ListsManager.State.new with load := .awaitingKeys }, []⟩
  selectedListIndex := none
  loadingInProgress := true
  allowsSelection := false
  guardActive := true
  hudVisible := true
  dismissals := 0
  fading := 0
  selections := []
  stopped := false

def manager (s : State) : ListsManager.State := s.listsManager.manager

def updateUI (s : State) : State := { s with allowsSelection := !s.loadingInProgress }

def dismisDataLoad (s : State) : State := if s.hudVisible then { s with dismissals := s.dismissals + 1 } else s

/-- A call of the manager's delegate. After `NewListAdded` an active guard is active again. -/
def called (s : State) : ListsManager.DelegateCall → State
  | .dataLoaded => { s with guardActive := false }.dismisDataLoad
  | .newListAdded | .listRemoved | .listUpdated => s

/-- An input of the manager, with the calls of its delegate. The screen is there as long
    as its rows can be selected, so the delegate does not go. -/
def heard (s : State) : ListsManager.Input → Option State
  | .delegateGone => none
  | input => (s.listsManager.step input).map (fun listsManager =>
      (listsManager.manager.calls.drop s.manager.calls.length).foldl called { s with listsManager := listsManager })

def timeoutGuardFired (s : State) : Option State :=
  if s.guardActive then some { s.dismisDataLoad with guardActive := false } else none

/-- The delay of a call of `SVProgressHUD.dismiss` is over, and the view begins to fade out. -/
def delayOver (s : State) : Option State :=
  if 0 < s.dismissals then
    some { s with dismissals := s.dismissals - 1, fading := s.fading + 1, hudVisible := false }
  else none

/-- The block of `SVProgressHUD.dismiss`, which does not run where something has been shown since. -/
def dismissed (s : State) : Option State :=
  if 0 < s.fading then
    if s.hudVisible then some { s with fading := s.fading - 1 }
    else some { s with fading := s.fading - 1, loadingInProgress := false }.updateUI
  else none

/-! ## The table view -/

def numberOfRows (s : State) : Nat := if 0 < s.manager.listCount then s.manager.listCount else 1

def cellForRowAt (s : State) (row : Nat) : Cell :=
  match s.manager.getList row with
  | some list => .title list
  | none => .addNewList

/-- `prepare(for:)` of the segue to the single list, which is opened with the list. -/
def prepare (s : State) : Option (State × ListObject) := do
  let listIndex ← s.selectedListIndex
  let list ← s.manager.getList listIndex
  return ({ s with selectedListIndex := none }, list)

def didSelectRowAt (s : State) (row : Nat) : Option (State × ListObject) := { s with selectedListIndex := some row }.prepare

end State

inductive Action where
  | manager (input : ListsManager.Input)
  | timeoutGuardFired
  | delayOver
  | dismissed
  /-- Another screen shows or dismisses the view, or a message in it ends by itself. -/
  | notice (visible : Bool)
  | select (row : Nat)

def step (s : State) (action : Action) : Option State :=
  if s.stopped then none
  else match action with
    | .manager input => s.heard input
    | .timeoutGuardFired => s.timeoutGuardFired
    | .delayOver => s.delayOver
    | .dismissed => s.dismissed
    | .notice visible => some { s with hudVisible := visible }
    | .select row =>
      if s.allowsSelection ∧ row < s.numberOfRows then
        match s.didSelectRowAt row with
        | some (t, list) => some { t with selections := t.selections ++ [⟨s.cellForRowAt row, list⟩] }
        | none => some { s with stopped := true }
      else none

/-- No selection has failed, and each has opened the list in its row. -/
structure OpensShown (s : State) : Prop where
  goesOn : s.stopped = false
  shown : ∀ selection ∈ s.selections, selection.cell = .title selection.opened

/-- A row is selected when there are lists. -/
def FromLists (s : State) : Action → Prop
  | .select _ => 0 < s.manager.listCount
  | _ => True

/-! ## Rows and lists -/

theorem getList_of_lt {s : ListsManager.State} {idx : Nat} (inside : idx < s.listCount) :
    ∃ list, s.getList idx = some list := by
  rw [ListsManager.State.getList, if_pos inside]
  exact ⟨s.data[idx], List.getElem?_eq_getElem inside⟩

theorem getList_empty {s : ListsManager.State} (empty : ¬ 0 < s.listCount) (idx : Nat) : s.getList idx = none := by
  rw [ListsManager.State.getList, if_neg (fun inside => empty (Nat.zero_lt_of_lt inside))]

theorem didSelectRowAt_eq (s : State) (row : Nat) : s.didSelectRowAt row =
    (s.manager.getList row).map (fun list => ({ s with selectedListIndex := none }, list)) := by
  simp only [State.didSelectRowAt, State.prepare, Option.bind_eq_bind, Option.bind_some, Option.pure_def]
  exact Option.map_eq_bind.symm

/-- A selection from lists opens the one in the row. -/
theorem select_lists {s t : State} {row : Nat} (someLists : 0 < s.manager.listCount)
    (selected : step s (.select row) = some t) : ∃ list, s.manager.getList row = some list ∧ t.stopped = s.stopped ∧
      t.selections = s.selections ++ [⟨.title list, list⟩] := by
  obtain ⟨running, selected⟩ := Option.ite_none_left_eq_some.mp selected
  obtain ⟨⟨_, inside⟩, selected⟩ := Option.ite_none_right_eq_some.mp selected
  rw [State.numberOfRows, if_pos someLists] at inside
  obtain ⟨list, here⟩ := getList_of_lt inside
  refine ⟨list, here, ?_⟩
  rw [didSelectRowAt_eq, here] at selected
  obtain rfl := Option.some.inj selected
  refine ⟨rfl, ?_⟩
  rw [State.cellForRowAt, here]

/-- One from none at all fails. -/
theorem select_none {s t : State} {row : Nat} (noLists : ¬ 0 < s.manager.listCount)
    (selected : step s (.select row) = some t) : t.stopped = true := by
  obtain ⟨_, selected⟩ := Option.ite_none_left_eq_some.mp selected
  obtain ⟨_, selected⟩ := Option.ite_none_right_eq_some.mp selected
  rw [didSelectRowAt_eq, getList_empty noLists] at selected
  obtain rfl := Option.some.inj selected
  rfl

/-- How a fade-out ends. -/
theorem dismissed_eq_some {s t : State} : s.dismissed = some t ↔ 0 < s.fading ∧
    ((s.hudVisible = true ∧ t = { s with fading := s.fading - 1 }) ∨
      (s.hudVisible = false ∧ t = { s with fading := s.fading - 1, loadingInProgress := false }.updateUI)) := by
  unfold State.dismissed
  cases s.hudVisible <;> simp [eq_comm]

/-- What the other actions leave alone. -/
def SameSelections (s t : State) : Prop := t.stopped = s.stopped ∧ t.selections = s.selections

theorem called_same (s : State) (call : ListsManager.DelegateCall) : SameSelections s (s.called call) := by
  unfold State.called State.dismisDataLoad
  split
  · split <;> exact ⟨rfl, rfl⟩
  all_goals exact ⟨rfl, rfl⟩

theorem foldl_called_same (calls : List ListsManager.DelegateCall) (s : State) :
    SameSelections s (calls.foldl State.called s) := by
  induction calls generalizing s with
  | nil => exact ⟨rfl, rfl⟩
  | cons call rest ih =>
    obtain ⟨stopped, selections⟩ := called_same s call
    exact ⟨(ih _).1.trans stopped, (ih _).2.trans selections⟩

theorem manager_same {s t : State} {input : ListsManager.Input} (stepped : step s (.manager input) = some t) :
    SameSelections s t := by
  obtain ⟨_, stepped⟩ := Option.ite_none_left_eq_some.mp stepped
  change s.heard input = some t at stepped
  cases input with
  | delegateGone => cases stepped
  | _ =>
    simp only [State.heard, Option.map_eq_some_iff] at stepped
    obtain ⟨listsManager, _, rfl⟩ := stepped
    exact foldl_called_same _ { s with listsManager := listsManager }

theorem OpensShown.step {s t : State} {action : Action} (opens : OpensShown s) (fromLists : FromLists s action)
    (stepped : ListsViewController.step s action = some t) : OpensShown t := by
  have same (same : SameSelections s t) : OpensShown t :=
    ⟨same.1.trans opens.goesOn, fun selection member => opens.shown selection (same.2 ▸ member)⟩
  cases action with
  | manager input => exact same (manager_same stepped)
  | timeoutGuardFired =>
    obtain ⟨_, stepped⟩ := Option.ite_none_left_eq_some.mp stepped
    obtain ⟨_, fired⟩ := Option.ite_none_right_eq_some.mp stepped
    cases fired
    exact same (by unfold State.dismisDataLoad; split <;> exact ⟨rfl, rfl⟩)
  | delayOver =>
    obtain ⟨_, stepped⟩ := Option.ite_none_left_eq_some.mp stepped
    obtain ⟨_, ended⟩ := Option.ite_none_right_eq_some.mp stepped
    cases ended
    exact same ⟨rfl, rfl⟩
  | dismissed =>
    obtain ⟨_, stepped⟩ := Option.ite_none_left_eq_some.mp stepped
    obtain ⟨_, ⟨_, rfl⟩ | ⟨_, rfl⟩⟩ := dismissed_eq_some.mp stepped
    · exact same ⟨rfl, rfl⟩
    · exact same ⟨rfl, rfl⟩
  | notice visible =>
    obtain ⟨_, shown⟩ := Option.ite_none_left_eq_some.mp stepped
    cases shown
    exact same ⟨rfl, rfl⟩
  | select row =>
    obtain ⟨list, _, stopped, selections⟩ := select_lists fromLists stepped
    refine ⟨stopped.trans opens.goesOn, fun selection member => ?_⟩
    rw [selections] at member
    rcases List.mem_append.mp member with old | new
    · exact opens.shown selection old
    · rw [List.mem_singleton.mp new]

/-- In every run of the screen and its manager each row that is selected opens the list
    it shows, exactly when rows are selected only while there are lists. -/
theorem rows_open_iff (actions : List Action) :
    Runs.Always step OpensShown State.loading actions ↔ Runs.Along step FromLists State.loading actions := by
  refine Runs.always_iff_along (fun _ (opens : OpensShown _) => opens) (fun _ _ _ opens fromLists stepped => opens.step fromLists stepped)
    ?_ ⟨rfl, by simp [State.loading]⟩ actions
  intro s action t _ outside stepped opens
  cases action with
  | select row => exact absurd opens.goesOn (by rw [select_none outside stepped]; simp)
  | _ => exact outside trivial

/-- A user without lists selects the one row. -/
theorem empty_row_selected : ¬ ∀ actions, Runs.Always step OpensShown State.loading actions := by
  intro claim
  have passed : (Runs.exec step State.loading [.manager (.keysAnswered Tree.empty), .delayOver, .dismissed, .select 0]).any
      (fun s => s.stopped) = true := by
    decide +kernel
  obtain ⟨s, opens, stopped⟩ := (claim _).of_any passed
  exact absurd stopped (by simp [opens.goesOn])

end ListsViewController
end SharedList
