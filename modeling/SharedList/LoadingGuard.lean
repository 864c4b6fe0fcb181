import SharedList.ListsViewController
import SharedList.TimeoutGuard

/-!
The screen of the lists with its `loadingGuard` in full. The screen's model keeps
of the guard only whether it is active, which is what the guard says after every
action. The screen tries nothing again in `TimeoutGuardFired`, so none of its
activations is lost.
-/
namespace SharedList.ListsViewController

structure GuardedScreen where
  screen : State
  loadingGuard : TimeoutGuard.State

namespace GuardedScreen

/-- `InitiateDataLoad` has activated the guard. -/
def loading : GuardedScreen := ⟨.loading, { (TimeoutGuard.State.start true).activate with log := [.activate 0] }⟩

/-- What a call of the manager's delegate does to the guard. -/
def called (loadingGuard : TimeoutGuard.State) : ListsManager.DelegateCall → Option TimeoutGuard.State
  | .dataLoaded => TimeoutGuard.step loadingGuard .deactivate
  | .newListAdded => if loadingGuard.isActive then TimeoutGuard.step loadingGuard .refresh else some loadingGuard
  | .listRemoved | .listUpdated => some loadingGuard

/-- What an action does to the guard, with the screen that it leads to. -/
def guarded (w : GuardedScreen) (screen : State) : Action → Option TimeoutGuard.State
  | .manager _ => (screen.manager.calls.drop w.screen.manager.calls.length).foldlM called w.loadingGuard
  | .timeoutGuardFired =>
    w.loadingGuard.timer.bind (fun tm => Runs.exec TimeoutGuard.step w.loadingGuard [.expired tm, .returned])
  | .delayOver | .dismissed | .notice _ | .select _ => some w.loadingGuard

def step (w : GuardedScreen) (action : Action) : Option GuardedScreen :=
  (ListsViewController.step w.screen action).bind (fun screen => (w.guarded screen action).map (fun loadingGuard => ⟨screen, loadingGuard⟩))

/-- The guard between two actions, when its delegate is the screen and no timer's block runs. -/
structure Tended (screen : State) (loadingGuard : TimeoutGuard.State) : Prop where
  kept : TimeoutGuard.Kept loadingGuard
  delegate : loadingGuard.delegate = true
  idle : loadingGuard.running = []
  accounted : TimeoutGuard.Accounted loadingGuard
  active : loadingGuard.isActive = screen.guardActive

variable {s t : State} {g h : TimeoutGuard.State}

/-- What every step of the guard keeps, if it cancels no retry. -/
theorem Tended.moved (tended : Tended s g) (action : TimeoutGuard.Action) (noRetry : TimeoutGuard.NoRetry g action)
    (moved : TimeoutGuard.step g action = some h) (idle : h.running = []) (active : h.isActive = t.guardActive) : Tended t h where
  kept := tended.kept.step moved
  delegate := (TimeoutGuard.step_delegate tended.kept moved).trans tended.delegate
  idle := idle
  accounted := tended.accounted.step tended.kept tended.delegate noRetry moved
  active := active

theorem Tended.same (tended : Tended s g) (guardActive : t.guardActive = s.guardActive) : Tended t g :=
  { tended with active := tended.active.trans guardActive.symm }

@[simp] theorem dismisDataLoad_guardActive (s : State) : s.dismisDataLoad.guardActive = s.guardActive := by
  unfold State.dismisDataLoad
  split <;> rfl

@[simp] theorem dismisDataLoad_listsManager (s : State) : s.dismisDataLoad.listsManager = s.listsManager := by
  unfold State.dismisDataLoad
  split <;> rfl

/-! ## The manager's calls -/

theorem Tended.called (tended : Tended s g) (call : ListsManager.DelegateCall) :
    ∃ h, GuardedScreen.called g call = some h ∧ Tended (s.called call) h := by
  cases call with
  | dataLoaded =>
    refine ⟨_, rfl, tended.moved .deactivate trivial rfl ?_ ?_⟩
    · simp only [TimeoutGuard.State.deactivate_eq tended.kept.scheduled, tended.idle]
    · simp only [TimeoutGuard.State.deactivate_eq tended.kept.scheduled, State.called, dismisDataLoad_guardActive]
  | newListAdded =>
    by_cases active : g.isActive = true
    · refine ⟨_, if_pos active, tended.moved .refresh trivial rfl ?_ ?_⟩
      · simp only [TimeoutGuard.State.refresh, TimeoutGuard.State.activate_eq tended.kept.scheduled, tended.idle]
      · simp only [TimeoutGuard.State.refresh, TimeoutGuard.State.activate_eq tended.kept.scheduled, State.called]
        exact active.symm.trans tended.active
    · exact ⟨g, if_neg active, tended⟩
  | listRemoved | listUpdated => exact ⟨g, rfl, tended⟩

theorem Tended.calls (tended : Tended s g) (calls : List ListsManager.DelegateCall) :
    ∃ h, calls.foldlM GuardedScreen.called g = some h ∧ Tended (calls.foldl State.called s) h := by
  induction calls generalizing s g with
  | nil => exact ⟨g, rfl, tended⟩
  | cons call rest ih =>
    obtain ⟨u, heard, one⟩ := tended.called call
    obtain ⟨h, later, all⟩ := ih one
    refine ⟨h, ?_, all⟩
    rw [List.foldlM_cons, heard]
    exact later

theorem foldl_called_listsManager (calls : List ListsManager.DelegateCall) (s : State) :
    (calls.foldl State.called s).listsManager = s.listsManager := by
  induction calls generalizing s with
  | nil => rfl
  | cons call rest ih =>
    refine (ih (s.called call)).trans ?_
    cases call with
    | dataLoaded => simp only [State.called, dismisDataLoad_listsManager]
    | newListAdded | listRemoved | listUpdated => rfl

theorem Tended.heard (tended : Tended s g) {input : ListsManager.Input} (heard : s.heard input = some t) :
    ∃ h, (t.manager.calls.drop s.manager.calls.length).foldlM GuardedScreen.called g = some h ∧ Tended t h := by
  cases input with
  | delegateGone => cases heard
  | _ =>
    simp only [State.heard, Option.map_eq_some_iff] at heard
    obtain ⟨listsManager, _, rfl⟩ := heard
    have same : Tended { s with listsManager := listsManager } g := tended.same rfl
    have calls := foldl_called_listsManager (listsManager.manager.calls.drop s.manager.calls.length) { s with listsManager := listsManager }
    simp only [State.manager] at calls ⊢
    rw [calls]
    exact same.calls _

/-! ## The timeout -/

/-- An active guard holds a timer that can expire, and ends with it. -/
theorem Tended.fired (tended : Tended s g) (fired : s.timeoutGuardFired = some t) :
    ∃ h, g.timer.bind (fun tm => Runs.exec TimeoutGuard.step g [.expired tm, .returned]) = some h ∧ Tended t h := by
  obtain ⟨guardActive, made⟩ := Option.ite_none_right_eq_some.mp fired
  cases made
  have active : g.timer.isSome = true := tended.kept.active.symm.trans (tended.active.trans guardActive)
  obtain ⟨tm, held⟩ := Option.isSome_iff_exists.mp active
  have pending : TimeoutGuard.Pending g tm := by
    refine ⟨?_, ?_⟩
    · simp [TimeoutGuard.State.isValid, tended.kept.scheduled, held]
    · simp [tended.idle]
  have expired : TimeoutGuard.step g (.expired tm) = some (g.expired tm) := if_pos pending
  have running : (g.expired tm).running = [tm] := by simp [TimeoutGuard.State.expired, tended.delegate, tended.idle]
  have timer : (g.expired tm).timer = some tm := by simp [TimeoutGuard.State.expired, tended.delegate, held]
  have kept := tended.kept.step expired
  have firing : TimeoutGuard.NoRetry g (.expired tm) := trivial
  have accounted := tended.accounted.step tended.kept tended.delegate firing expired
  have delegate := (TimeoutGuard.step_delegate tended.kept expired).trans tended.delegate
  have returned : TimeoutGuard.step (g.expired tm) .returned = some ({ g.expired tm with running := [] }.ended tm) :=
    TimeoutGuard.returned_eq_some.mpr ⟨tm, [], running, rfl⟩
  have noRetry : TimeoutGuard.NoRetry (g.expired tm) .returned := by
    rintro own rest runs n on
    cases running.symm.trans runs
    exact Option.some.inj (on.symm.trans timer)
  refine ⟨{ g.expired tm with running := [] }.ended tm, ?_, ?_⟩
  · simp only [held, Option.bind_some, Runs.exec, expired, returned]
  · have ended := @TimeoutGuard.State.ended_eq { g.expired tm with running := [] } kept.scheduled tm
    refine ⟨kept.step returned, (TimeoutGuard.step_delegate kept returned).trans delegate, ?_,
      accounted.step kept delegate noRetry returned, ?_⟩
    · rw [ended]
    · rw [ended]

/-! ## Runs -/

theorem tended_loading : Tended loading.screen loading.loadingGuard := by
  have start : Tended { loading.screen with guardActive := false } (.start true) :=
    ⟨TimeoutGuard.start_kept true, rfl, rfl, fun n begun => by simp [TimeoutGuard.Begun, TimeoutGuard.State.start] at begun, rfl⟩
  exact start.moved .activate trivial rfl rfl rfl

theorem Tended.step {action : Action} (tended : Tended s g) (stepped : ListsViewController.step s action = some t) :
    ∃ h, GuardedScreen.guarded ⟨s, g⟩ t action = some h ∧ Tended t h := by
  obtain ⟨_, ran⟩ := Option.ite_none_left_eq_some.mp stepped
  cases action with
  | manager input => exact tended.heard ran
  | timeoutGuardFired => exact tended.fired ran
  | delayOver =>
    obtain ⟨_, ended⟩ := Option.ite_none_right_eq_some.mp ran
    cases ended
    exact ⟨g, rfl, tended.same rfl⟩
  | dismissed =>
    obtain ⟨_, ⟨_, rfl⟩ | ⟨_, rfl⟩⟩ := dismissed_eq_some.mp ran
    · exact ⟨g, rfl, tended.same rfl⟩
    · exact ⟨g, rfl, tended.same rfl⟩
  | notice visible =>
    cases ran
    exact ⟨g, rfl, tended.same rfl⟩
  | select row =>
    refine ⟨g, rfl, tended.same ?_⟩
    obtain ⟨_, selected⟩ := Option.ite_none_right_eq_some.mp ran
    rw [didSelectRowAt_eq] at selected
    cases here : s.manager.getList row with
    | none =>
      rw [here] at selected
      cases selected
      rfl
    | some list =>
      rw [here] at selected
      cases selected
      rfl

def Follows (s : State) (w : GuardedScreen) : Prop := w.screen = s ∧ Tended s w.loadingGuard

theorem Follows.step (s : State) (w : GuardedScreen) (action : Action) (t : State) (follows : Follows s w)
    (stepped : ListsViewController.step s action = some t) : ∃ next, w.step action = some next ∧ Follows t next := by
  obtain ⟨s, g⟩ := w
  obtain ⟨rfl, tended⟩ := follows
  obtain ⟨h, guarded, still⟩ := tended.step stepped
  refine ⟨⟨t, h⟩, ?_, rfl, still⟩
  simp only [GuardedScreen.step, stepped, guarded, Option.bind_some, Option.map_some]

/-- Every run of the screen is one with its guard, which is active when the screen's model
    says so, holds the one valid timer then, and loses no activation. -/
theorem guard_follows_screen {actions : List Action} (run : Runs.exec ListsViewController.step State.loading actions = some s) :
    ∃ loadingGuard, Runs.exec step loading actions = some ⟨s, loadingGuard⟩ ∧ loadingGuard.isActive = s.guardActive ∧
      TimeoutGuard.Guarded loadingGuard ∧ TimeoutGuard.Accounted loadingGuard := by
  have start : Follows .loading loading := ⟨rfl, tended_loading⟩
  obtain ⟨⟨_, g⟩, ran, rfl, tended⟩ := Runs.exec_lockstep Follows Follows.step start run
  exact ⟨g, ran, tended.active, tended.kept.guarded, tended.accounted⟩

end GuardedScreen

end SharedList.ListsViewController
