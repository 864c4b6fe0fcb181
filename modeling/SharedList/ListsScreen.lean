import SharedList.LoadingGuard

/-!
`ListsViewController` with its table. Every call of the delegate loads the table anew,
and its manager changes no list without calling it, so the table is never out of date.
The screen is enabled by the block that dismisses the loading notice, which `DataLoaded`
and the timeout ask for only while the notice is visible: where another screen has taken
it away by then, the screen stays disabled.
-/
namespace SharedList
namespace ListsManager

theorem State.tell_alive {s : State} (alive : s.delegate = true) (call : DelegateCall) :
    s.tell call = { s with made := s.made ++ [.delegate call] } := if_pos alive

/-- Further calls, with those of the delegate among them. -/
theorem State.calls_append {s t : State} {more : List Call} (made : t.made = s.made ++ more) :
    t.calls = s.calls ++ more.filterMap Call.delegate? := by
  rw [calls, calls, made, List.filterMap_append]

theorem State.activateObservers_told (s : State) :
    s.activateObservers.calls = s.calls ∧ s.activateObservers.delegate = s.delegate := by
  unfold activateObservers
  split
  · refine ⟨?_, rfl⟩
    rw [@calls_append s _ registrations rfl]
    exact List.append_nil _
  · exact ⟨rfl, rfl⟩

theorem State.foldl_tell {α : Type} {s : State} (alive : s.delegate = true) (entries : List α) (call : DelegateCall) :
    entries.foldl (fun s _ => s.tell call) s = { s with made := s.made ++ entries.map fun _ => .delegate call } := by
  induction entries generalizing s with
  | nil => simp
  | cons entry rest ih =>
    rw [List.foldl_cons, tell_alive alive]
    refine (@ih { s with made := s.made ++ [.delegate call] } alive).trans ?_
    simp

/-- The delegate has been called, or the lists are the same. -/
def Told (s t : State) : Prop := t.delegate = true ∧ ∃ told, t.calls = s.calls ++ told ∧ (told = [] → t.data = s.data)

theorem Told.of_same {s t : State} (alive : s.delegate = true) (delegate : t.delegate = s.delegate) (calls : t.calls = s.calls)
    (data : t.data = s.data) : Told s t :=
  ⟨delegate.trans alive, [], by rw [calls, List.append_nil], fun _ => data⟩

/-- After a call, observers that are registered or not change nothing that was told. -/
theorem told_tell {s t : State} (alive : t.delegate = true) (calls : t.calls = s.calls) (call : DelegateCall) :
    Told s (t.tell call) ∧ Told s (t.tell call).activateObservers := by
  have told : (t.tell call).calls = s.calls ++ [call] := by
    rw [State.tell_alive alive, @State.calls_append t _ [.delegate call] rfl, calls]
    rfl
  have delegate : (t.tell call).delegate = true := by rw [State.tell_alive alive]; exact alive
  obtain ⟨sameCalls, sameDelegate⟩ := (t.tell call).activateObservers_told
  exact ⟨⟨delegate, [call], told, by simp⟩, ⟨sameDelegate.trans delegate, [call], sameCalls.trans told, by simp⟩⟩

theorem told_listChanged {s : State} (alive : s.delegate = true) (id field : Key) (value : Option Value) :
    Told s (s.listChanged id field value) := by
  let entries : State := { s with data := s.data.map (State.updated id field value),
                                  dropped := s.dropped.map (State.updated id field value) }
  have changed : s.listChanged id field value =
      { entries with made := s.made ++ ((s.data ++ s.dropped).filter fun list => list.id = id).map fun _ => .delegate .listUpdated } :=
    @State.foldl_tell _ entries alive _ .listUpdated
  rw [changed]
  refine ⟨alive, _, State.calls_append rfl, ?_⟩
  intro silent
  simp only [List.filterMap_map, Function.comp_def, Call.delegate?, List.filterMap_eq_map'] at silent
  have other : ∀ list ∈ s.data, State.updated id field value list = list := by
    intro list member
    refine if_neg fun own => ?_
    have listed : list ∈ (s.data ++ s.dropped).filter fun list => list.id = id :=
      List.mem_filter.mpr ⟨List.mem_append_left _ member, decide_eq_true own⟩
    rw [List.map_eq_nil_iff.mp silent] at listed
    cases listed
  exact (List.map_congr_left other).trans (List.map_id _)

theorem handle_told {s t : State} {input : Input} (alive : s.delegate = true) (stays : input ≠ .delegateGone)
    (handled : handle s input = some t) : Told s t := by
  cases input with
  | delegateGone => exact absurd rfl stays
  | loadData =>
    obtain ⟨_, rfl⟩ := Option.ite_none_right_eq_some.mp handled |>.imp_right Option.some.inj
    exact .of_same alive rfl rfl rfl
  | keysAnswered listsSnapshot =>
    obtain ⟨_, answered⟩ := Option.ite_none_right_eq_some.mp handled
    by_cases empty : listsSnapshot.leaves = []
    · simp only [if_pos empty, if_pos alive, Option.some.injEq] at answered
      subst answered
      exact (@told_tell s { s with load := .loading 0 } alive rfl .dataLoaded).2
    · simp only [if_neg empty, Option.bind_eq_bind, Option.pure_def, Option.bind_eq_some_iff, Option.some.injEq] at answered
      obtain ⟨listsIds, _, rfl⟩ := answered
      exact .of_same alive rfl rfl rfl
  | loadReadAnswered listId listSnapshot =>
    change s.loadReadAnswered listId listSnapshot = some t at handled
    unfold State.loadReadAnswered at handled
    split at handled
    · rename_i listsCounter _
      simp only [State.addListWithObserver, Option.ite_none_right_eq_some, Option.bind_eq_bind, Option.pure_def,
        Option.bind_eq_some_iff, Option.some.injEq] at handled
      obtain ⟨_, _, ⟨newList, _, rfl⟩, rfl⟩ := handled
      rw [if_pos alive]
      split
      · refine (told_tell ?_ ?_ _).2
        · exact alive
        · rfl
      · refine (told_tell ?_ ?_ _).1
        · exact alive
        · rfl
    · cases handled
  | child event =>
    cases event with
    | added listId =>
      obtain rfl := Option.some.inj handled
      unfold State.listsKeysChildAdded
      split <;> exact .of_same alive rfl rfl rfl
    | removed listId =>
      obtain rfl := Option.some.inj handled
      unfold State.listsKeysChildRemoved
      split
      · refine (told_tell ?_ ?_ _).1
        · exact alive
        · rfl
      · exact .of_same alive rfl rfl rfl
  | addReadAnswered listId listSnapshot =>
    simp only [handle, State.addReadAnswered, State.addListWithObserver, Option.ite_none_right_eq_some, Option.bind_eq_bind,
      Option.pure_def, Option.bind_eq_some_iff, Option.some.injEq] at handled
    obtain ⟨_, _, ⟨newList, _, rfl⟩, rfl⟩ := handled
    refine (told_tell ?_ ?_ _).1
    · exact alive
    · rfl
  | listChanged id field value =>
    obtain rfl := Option.some.inj handled
    exact told_listChanged alive id field value

theorem Session.step_handle {s t : Session} {input : Input} (stepped : s.step input = some t) :
    handle s.manager input = some t.manager := by
  cases input with
  | child event =>
    obtain ⟨_, stepped⟩ := Option.ite_none_right_eq_some.mp stepped
    obtain ⟨manager, handled, rfl⟩ := Option.map_eq_some_iff.mp stepped
    exact handled
  | _ =>
    simp only [step, Option.map_eq_some_iff] at stepped
    obtain ⟨manager, handled, rfl⟩ := stepped
    exact handled

end ListsManager

namespace ListsViewController

/-! ## The table -/

/-- The screen, its guard, and what `tableView` was last loaded with. -/
structure TableScreen where
  guarded : GuardedScreen
  rows : List ListObject

namespace TableScreen

def loading : TableScreen := ⟨.loading, []⟩

def manager (w : TableScreen) : ListsManager.State := w.guarded.screen.manager

/-- Each call of the delegate begins with `reloadData`, and finds the lists as the manager has them by then. -/
def reloaded (w : TableScreen) (guarded : GuardedScreen) : TableScreen :=
  if guarded.screen.manager.calls.drop w.manager.calls.length = [] then ⟨guarded, w.rows⟩
  else ⟨guarded, guarded.screen.manager.data⟩

def step (w : TableScreen) (action : Action) : Option TableScreen := (w.guarded.step action).map w.reloaded

/-- The cells of the table as it was last loaded. -/
def cells (w : TableScreen) : List Cell := if w.rows = [] then [.addNewList] else w.rows.map .title

end TableScreen

theorem heard_eq_some {s t : State} {input : ListsManager.Input} (heard : s.heard input = some t) :
    input ≠ .delegateGone ∧ ∃ listsManager, s.listsManager.step input = some listsManager ∧
      t = (listsManager.manager.calls.drop s.manager.calls.length).foldl State.called { s with listsManager := listsManager } := by
  cases input with
  | delegateGone => cases heard
  | _ =>
    simp only [State.heard, Option.map_eq_some_iff] at heard
    obtain ⟨listsManager, stepped, rfl⟩ := heard
    exact ⟨by simp, listsManager, stepped, rfl⟩

/-- What an action of the screen does to its manager. -/
theorem step_told {s t : State} {action : Action} (alive : s.manager.delegate = true) (stepped : step s action = some t) :
    ListsManager.Told s.manager t.manager := by
  obtain ⟨_, stepped⟩ := Option.ite_none_left_eq_some.mp stepped
  cases action with
  | manager input =>
    obtain ⟨stays, listsManager, heard, rfl⟩ := heard_eq_some stepped
    have told := ListsManager.handle_told alive stays (ListsManager.Session.step_handle heard)
    rw [State.manager, State.manager, GuardedScreen.foldl_called_listsManager]
    exact told
  | timeoutGuardFired =>
    obtain ⟨_, fired⟩ := Option.ite_none_right_eq_some.mp stepped
    cases fired
    refine .of_same alive ?_ ?_ ?_ <;> simp [State.manager]
  | delayOver =>
    obtain ⟨_, ended⟩ := Option.ite_none_right_eq_some.mp stepped
    cases ended
    exact .of_same alive rfl rfl rfl
  | dismissed =>
    obtain ⟨_, ⟨_, rfl⟩ | ⟨_, rfl⟩⟩ := dismissed_eq_some.mp stepped
    · exact .of_same alive rfl rfl rfl
    · exact .of_same alive rfl rfl rfl
  | notice visible =>
    cases stepped
    exact .of_same alive rfl rfl rfl
  | select row =>
    obtain ⟨_, selected⟩ := Option.ite_none_right_eq_some.mp stepped
    rw [didSelectRowAt_eq] at selected
    cases here : s.manager.getList row with
    | none =>
      rw [here] at selected
      cases selected
      exact .of_same alive rfl rfl rfl
    | some list =>
      rw [here] at selected
      cases selected
      exact .of_same alive rfl rfl rfl

/-! ## The loading notice -/

/-- Rows can be selected unless the screen is loading. -/
def Enabled (s : State) : Prop := s.allowsSelection = !s.loadingInProgress

/-- The loading is over, or what is under way ends it: the delay of a dismissal, a notice that fades out with
    nothing shown since, or the guard with a notice that it can dismiss. -/
def Ends (s : State) : Prop :=
  s.loadingInProgress = true → 0 < s.dismissals ∨ (0 < s.fading ∧ s.hudVisible = false) ∨ (s.guardActive = true ∧ s.hudVisible = true)

/-- Other screens take the notice away only while the screen's own dismissal is under way, and show theirs only while
    the guard or another dismissal is still to come; unless the loading is over. -/
def LeavesNotice (s : State) : Action → Prop
  | .notice true => s.loadingInProgress = true → 0 < s.dismissals ∨ s.guardActive = true
  | .notice false => s.loadingInProgress = true → 0 < s.dismissals ∨ 0 < s.fading
  | _ => True

/-- What happens by itself, without the manager, the user or other screens. -/
def Timed (action : Action) : Prop := action = .timeoutGuardFired ∨ action = .delayOver ∨ action = .dismissed

instance (s : State) : Decidable (Enabled s) := inferInstanceAs (Decidable (_ = _))

instance (s : State) : Decidable (Ends s) := inferInstanceAs (Decidable (_ → _))

theorem ends_notice {s : State} {visible : Bool} : Ends { s with hudVisible := visible } ↔ LeavesNotice s (.notice visible) := by
  cases visible <;> simp [Ends, LeavesNotice]

/-- A guard that ends with the notice hidden leaves it to the dismissals under way. -/
theorem ends_guardEnded {s : State} : Ends { s.dismisDataLoad with guardActive := false } ↔
    (Ends s ∨ (s.loadingInProgress = true ∧ s.hudVisible = true)) := by
  unfold State.dismisDataLoad Ends
  cases visible : s.hudVisible <;> cases loading : s.loadingInProgress <;> simp [loading, visible]

theorem enabled_guardEnded {s : State} : Enabled { s.dismisDataLoad with guardActive := false } ↔ Enabled s := by
  unfold State.dismisDataLoad
  split <;> rfl

theorem called_dataLoaded (s : State) : s.called .dataLoaded = { s.dismisDataLoad with guardActive := false } := by
  simp only [State.called, State.dismisDataLoad]
  split <;> rfl

theorem foldl_called_kept {s : State} (calls : List ListsManager.DelegateCall) :
    (Enabled s → Enabled (calls.foldl State.called s)) ∧ (Ends s → Ends (calls.foldl State.called s)) := by
  induction calls generalizing s with
  | nil => exact ⟨id, id⟩
  | cons call rest ih =>
    have one : (Enabled s → Enabled (s.called call)) ∧ (Ends s → Ends (s.called call)) := by
      cases call with
      | dataLoaded =>
        rw [called_dataLoaded]
        exact ⟨enabled_guardEnded.mpr, fun ends => ends_guardEnded.mpr (.inl ends)⟩
      | newListAdded | listRemoved | listUpdated => exact ⟨id, id⟩
    exact ⟨ih.1 ∘ one.1, ih.2 ∘ one.2⟩

/-- What an action keeps, whoever takes it. -/
theorem step_notice {s t : State} {action : Action} (stepped : step s action = some t) :
    (Enabled s → Enabled t) ∧ (Ends s → LeavesNotice s action → Ends t) := by
  obtain ⟨_, stepped⟩ := Option.ite_none_left_eq_some.mp stepped
  cases action with
  | manager input =>
    obtain ⟨_, listsManager, _, rfl⟩ := heard_eq_some stepped
    obtain ⟨enabled, ends⟩ := @foldl_called_kept { s with listsManager := listsManager }
      (listsManager.manager.calls.drop s.manager.calls.length)
    exact ⟨enabled, fun before _ => ends before⟩
  | timeoutGuardFired =>
    obtain ⟨_, fired⟩ := Option.ite_none_right_eq_some.mp stepped
    cases fired
    exact ⟨enabled_guardEnded.mpr, fun ends _ => ends_guardEnded.mpr (.inl ends)⟩
  | delayOver =>
    obtain ⟨_, ended⟩ := Option.ite_none_right_eq_some.mp stepped
    cases ended
    exact ⟨id, fun _ _ _ => .inr (.inl ⟨Nat.succ_pos _, rfl⟩)⟩
  | dismissed =>
    obtain ⟨_, ⟨visible, rfl⟩ | ⟨_, rfl⟩⟩ := dismissed_eq_some.mp stepped
    · refine ⟨id, fun ends _ loading => ?_⟩
      rcases ends loading with waiting | ⟨_, hidden⟩ | guarded
      · exact .inl waiting
      · exact absurd (visible.symm.trans hidden) (by simp)
      · exact .inr (.inr guarded)
    · exact ⟨fun _ => rfl, fun _ _ loading => by cases loading⟩
  | notice visible =>
    cases stepped
    exact ⟨id, fun _ leaves => ends_notice.mpr leaves⟩
  | select row =>
    obtain ⟨_, selected⟩ := Option.ite_none_right_eq_some.mp stepped
    rw [didSelectRowAt_eq] at selected
    cases here : s.manager.getList row with
    | none =>
      rw [here] at selected
      cases selected
      exact ⟨id, fun ends _ => ends⟩
    | some list =>
      rw [here] at selected
      cases selected
      exact ⟨id, fun ends _ => ends⟩

/-- Where nothing under way ends the loading, nothing that happens by itself does. -/
theorem timed_ends {s t : State} {action : Action} (timed : Timed action) (stepped : step s action = some t) (ends : Ends t) :
    Ends s := by
  obtain ⟨_, stepped⟩ := Option.ite_none_left_eq_some.mp stepped
  rcases timed with rfl | rfl | rfl
  · obtain ⟨guarded, fired⟩ := Option.ite_none_right_eq_some.mp stepped
    cases fired
    rcases ends_guardEnded.mp ends with before | ⟨_, visible⟩
    · exact before
    · exact fun _ => .inr (.inr ⟨guarded, visible⟩)
  · obtain ⟨waiting, _⟩ := Option.ite_none_right_eq_some.mp stepped
    exact fun _ => .inl waiting
  · obtain ⟨fading, ⟨_, rfl⟩ | ⟨hidden, _⟩⟩ := dismissed_eq_some.mp stepped
    · intro loading
      exact (ends loading).imp_right (Or.imp_left fun still => ⟨fading, still.2⟩)
    · exact fun _ => .inr (.inl ⟨fading, hidden⟩)

/-- A step that happens by itself leaves the manager alone and fails no selection. -/
theorem timed_same {s t : State} {action : Action} (timed : Timed action) (stepped : step s action = some t) :
    t.stopped = s.stopped ∧ t.listsManager = s.listsManager := by
  obtain ⟨_, stepped⟩ := Option.ite_none_left_eq_some.mp stepped
  rcases timed with rfl | rfl | rfl
  · obtain ⟨_, fired⟩ := Option.ite_none_right_eq_some.mp stepped
    cases fired
    unfold State.dismisDataLoad
    split <;> exact ⟨rfl, rfl⟩
  · obtain ⟨_, ended⟩ := Option.ite_none_right_eq_some.mp stepped
    cases ended
    exact ⟨rfl, rfl⟩
  · obtain ⟨_, ⟨_, rfl⟩ | ⟨_, rfl⟩⟩ := dismissed_eq_some.mp stepped <;> exact ⟨rfl, rfl⟩

theorem timed_exec {s t : State} {waits : List Action} (timers : ∀ action ∈ waits, Timed action)
    (run : Runs.exec step s waits = some t) : t.stopped = s.stopped ∧ t.listsManager = s.listsManager := by
  induction waits generalizing s with
  | nil =>
    cases run
    exact ⟨rfl, rfl⟩
  | cons action rest ih =>
    obtain ⟨timed, timers⟩ := List.forall_mem_cons.mp timers
    obtain ⟨u, stepped, run⟩ := Option.bind_eq_some_iff.mp run
    obtain ⟨stopped, lists⟩ := timed_same timed stepped
    exact ⟨(ih timers run).1.trans stopped, (ih timers run).2.trans lists⟩

/-- The screen comes to be enabled by what happens by itself. -/
def ComesEnabled (s : State) : Prop :=
  ∃ waits t, (∀ action ∈ waits, Timed action) ∧ Runs.exec step s waits = some t ∧ t.allowsSelection = true

theorem ComesEnabled.of_step {s t : State} {action : Action} (timed : Timed action) (stepped : step s action = some t)
    (later : ComesEnabled t) : ComesEnabled s := by
  obtain ⟨waits, u, timers, run, enabled⟩ := later
  exact ⟨action :: waits, u, List.forall_mem_cons.mpr ⟨timed, timers⟩, Option.bind_eq_some_iff.mpr ⟨t, stepped, run⟩, enabled⟩

theorem comesEnabled_fading {s : State} (goesOn : s.stopped = false) (fading : 0 < s.fading) (hidden : s.hudVisible = false) :
    ComesEnabled s := by
  have gone : step s .dismissed = some { s with fading := s.fading - 1, loadingInProgress := false }.updateUI := by
    rw [step, if_neg (by simp [goesOn])]
    exact dismissed_eq_some.mpr ⟨fading, .inr ⟨hidden, rfl⟩⟩
  exact .of_step (.inr (.inr rfl)) gone ⟨[], _, by simp, rfl, rfl⟩

theorem comesEnabled_waiting {s : State} (goesOn : s.stopped = false) (waiting : 0 < s.dismissals) : ComesEnabled s := by
  have ended : step s .delayOver = some { s with dismissals := s.dismissals - 1, fading := s.fading + 1, hudVisible := false } := by
    rw [step, if_neg (by simp [goesOn])]
    exact if_pos waiting
  refine .of_step (.inr (.inl rfl)) ended (comesEnabled_fading ?_ ?_ ?_)
  · exact goesOn
  · exact Nat.succ_pos _
  · rfl

theorem comesEnabled_iff {s : State} (enabled : Enabled s) (goesOn : s.stopped = false) : ComesEnabled s ↔ Ends s := by
  constructor
  · rintro ⟨waits, t, timers, run, selects⟩
    induction waits generalizing s with
    | nil =>
      cases run
      intro loading
      rw [Enabled, loading] at enabled
      exact absurd (enabled.symm.trans selects) (by simp)
    | cons action rest ih =>
      obtain ⟨timed, timers⟩ := List.forall_mem_cons.mp timers
      obtain ⟨u, stepped, run⟩ := Option.bind_eq_some_iff.mp run
      exact timed_ends timed stepped (ih ((step_notice stepped).1 enabled) ((timed_same timed stepped).1.trans goesOn) timers run)
  · intro ends
    cases loading : s.loadingInProgress with
    | false => exact ⟨[], s, by simp, rfl, by rw [enabled, loading]; rfl⟩
    | true =>
      rcases ends loading with waiting | ⟨fading, hidden⟩ | ⟨guarded, visible⟩
      · exact comesEnabled_waiting goesOn waiting
      · exact comesEnabled_fading goesOn fading hidden
      · have fired : step s .timeoutGuardFired = some { s.dismisDataLoad with guardActive := false } := by
          rw [step, if_neg (by simp [goesOn])]
          exact if_pos guarded
        refine .of_step (.inl rfl) fired (comesEnabled_waiting ?_ ?_)
        · exact ((timed_same (.inl rfl) fired).1).trans goesOn
        · rw [State.dismisDataLoad, if_pos visible]
          exact Nat.succ_pos _

/-! ## Runs -/

namespace TableScreen

@[simp] theorem reloaded_guarded (w : TableScreen) (guarded : GuardedScreen) : (w.reloaded guarded).guarded = guarded := by
  unfold reloaded
  split <;> rfl

theorem step_eq_some {w v : TableScreen} {action : Action} (stepped : w.step action = some v) :
    ListsViewController.step w.guarded.screen action = some v.guarded.screen ∧
      w.guarded.guarded v.guarded.screen action = some v.guarded.loadingGuard ∧ v = w.reloaded v.guarded := by
  obtain ⟨guarded, moved, rfl⟩ := Option.map_eq_some_iff.mp stepped
  obtain ⟨screen, ran, found⟩ := Option.bind_eq_some_iff.mp moved
  obtain ⟨loadingGuard, kept, rfl⟩ := Option.map_eq_some_iff.mp found
  rw [reloaded_guarded]
  exact ⟨ran, kept, rfl⟩

structure Kept (w : TableScreen) : Prop where
  tended : GuardedScreen.Tended w.guarded.screen w.guarded.loadingGuard
  enabled : Enabled w.guarded.screen
  delegate : w.manager.delegate = true
  rows : w.rows = w.manager.data

theorem loading_kept : Kept loading where
  tended := GuardedScreen.tended_loading
  enabled := rfl
  delegate := rfl
  rows := rfl

theorem Kept.step {w v : TableScreen} {action : Action} (kept : Kept w) (stepped : w.step action = some v) : Kept v := by
  obtain ⟨moved, guarded, made⟩ := step_eq_some stepped
  obtain ⟨loadingGuard, same, tended⟩ := kept.tended.step moved
  obtain rfl := Option.some.inj (guarded.symm.trans same)
  obtain ⟨delegate, told, calls, unchanged⟩ := step_told kept.delegate moved
  refine ⟨tended, (step_notice moved).1 kept.enabled, delegate, ?_⟩
  have dropped : v.guarded.screen.manager.calls.drop w.manager.calls.length = told := by
    rw [calls]
    exact List.drop_left
  rw [made, reloaded, dropped]
  split
  · rename_i silent
    exact kept.rows.trans (unchanged silent).symm
  · rfl

/-- What the screen can do, it does with its guard and its table. -/
theorem Kept.exec {w : TableScreen} {s t : State} (same : w.guarded.screen = s)
    (tended : GuardedScreen.Tended s w.guarded.loadingGuard) {actions : List Action}
    (run : Runs.exec ListsViewController.step s actions = some t) : ∃ v, Runs.exec TableScreen.step w actions = some v ∧
      v.guarded.screen = t := by
  let follows (s : State) (w : TableScreen) := w.guarded.screen = s ∧ GuardedScreen.Tended s w.guarded.loadingGuard
  have matched : ∀ s (w : TableScreen) action t, follows s w → ListsViewController.step s action = some t →
      ∃ v, w.step action = some v ∧ follows t v := by
    rintro s w action t ⟨rfl, tended⟩ stepped
    obtain ⟨loadingGuard, guarded, still⟩ := tended.step stepped
    refine ⟨w.reloaded ⟨t, loadingGuard⟩, ?_, ?_⟩
    · have moved : w.guarded.step action = some ⟨t, loadingGuard⟩ := by
        rw [GuardedScreen.step, stepped, Option.bind_some]
        exact congrArg (Option.map _) guarded
      rw [TableScreen.step, moved]
      rfl
    · simp only [follows, reloaded_guarded]
      exact ⟨trivial, still⟩
  obtain ⟨v, ran, ends⟩ := Runs.exec_lockstep follows matched ⟨same, tended⟩ run
  exact ⟨v, ran, ends.1⟩

/-- What the data source answers for all rows. -/
theorem cells_eq {w : TableScreen} (rows : w.rows = w.manager.data) :
    w.cells = (List.range w.guarded.screen.numberOfRows).map w.guarded.screen.cellForRowAt := by
  have data : w.guarded.screen.manager.data = w.rows := rows.symm
  rw [cells, State.numberOfRows, ListsManager.State.listCount, data]
  by_cases empty : w.rows = []
  · rw [if_pos empty, empty, if_neg (by simp)]
    simp [State.cellForRowAt, ListsManager.State.getList, ListsManager.State.listCount, data, empty]
  · rw [if_neg empty, if_pos (List.length_pos_iff.mpr empty)]
    refine List.ext_getElem (by simp) fun row inside _ => ?_
    rw [List.length_map] at inside
    simp [State.cellForRowAt, ListsManager.State.getList, ListsManager.State.listCount, data, inside]

theorem run_kept {actions : List Action} {w : TableScreen} (run : Runs.exec step loading actions = some w) : Kept w :=
  Runs.exec_invariant (fun _ _ _ (kept : Kept _) stepped => kept.step stepped) loading_kept run

/-- A run with the guard and the table is one of the screen. -/
theorem exec_screen {w v : TableScreen} {actions : List Action} (run : Runs.exec step w actions = some v) :
    Runs.exec ListsViewController.step w.guarded.screen actions = some v.guarded.screen := by
  have matched : ∀ (w : TableScreen) (s : State) action v, w.guarded.screen = s → w.step action = some v →
      ∃ t, ListsViewController.step s action = some t ∧ v.guarded.screen = t := by
    rintro w _ action v rfl stepped
    exact ⟨_, (step_eq_some stepped).1, rfl⟩
  obtain ⟨_, ran, rfl⟩ := Runs.exec_lockstep (fun (w : TableScreen) s => w.guarded.screen = s) matched rfl run
  exact ran

/-- The screen with its guard and its table comes to be enabled, with the lists as they are, when the screen does. -/
theorem comesEnabled_table {w : TableScreen} (kept : Kept w) : (∃ waits v, (∀ action ∈ waits, Timed action) ∧
    Runs.exec step w waits = some v ∧ v.guarded.screen.allowsSelection = true ∧ v.manager = w.manager) ↔
      ComesEnabled w.guarded.screen := by
  constructor
  · rintro ⟨waits, v, timers, run, selects, _⟩
    exact ⟨waits, _, timers, exec_screen run, selects⟩
  · rintro ⟨waits, t, timers, ran, selects⟩
    obtain ⟨v, run, rfl⟩ := Kept.exec rfl kept.tended ran
    refine ⟨waits, v, timers, run, selects, ?_⟩
    rw [manager, manager, State.manager, State.manager, (timed_exec timers ran).2]

/-- In every run of the screen with its manager, its guard and its table, whatever other screens do to the one notice, the
    table shows what the data source would answer now, and while no selection has failed, the screen comes to be enabled
    by itself, with the lists as they are, exactly when what is under way ends the loading or it is over. That is always
    so exactly when the other screens leave the notice while the screen needs it. -/
theorem lists_screen_current (actions : List Action) :
    (∀ w, Runs.exec step loading actions = some w →
      w.cells = (List.range w.guarded.screen.numberOfRows).map w.guarded.screen.cellForRowAt ∧
        (w.guarded.screen.stopped = false → ((∃ waits v, (∀ action ∈ waits, Timed action) ∧ Runs.exec step w waits = some v ∧
          v.guarded.screen.allowsSelection = true ∧ v.manager = w.manager) ↔ Ends w.guarded.screen))) ∧
      (Runs.Always step (fun w => Ends w.guarded.screen) loading actions ↔
        Runs.Along step (fun w => LeavesNotice w.guarded.screen) loading actions) := by
  refine ⟨?_, ?_⟩
  · intro w run
    have kept := run_kept run
    exact ⟨cells_eq kept.rows, fun goesOn => (comesEnabled_table kept).trans (comesEnabled_iff kept.enabled goesOn)⟩
  · refine Runs.always_iff_along (fun _ ends => ends) ?_ ?_ ?_ actions
    · exact fun w action v ends leaves stepped => (step_notice (step_eq_some stepped).1).2 ends leaves
    · -- Only other screens can break it, and their step leaves nothing but the notice behind.
      intro w action v _ outside stepped ends
      obtain ⟨_, moved⟩ := Option.ite_none_left_eq_some.mp (step_eq_some stepped).1
      cases action with
      | notice visible =>
        rw [← Option.some.inj moved] at ends
        exact outside (ends_notice.mp ends)
      | _ => exact outside trivial
    · exact fun _ => .inr (.inr ⟨rfl, rfl⟩)

/-- One of two lists has come when the timer expires. -/
def slowRun : List Action :=
  [.manager (.keysAnswered ((Tree.empty.put [Sample.groceries] (bool true)).put [Sample.milk] (bool true))),
   .manager (.loadReadAnswered Sample.groceries Sample.groceryRecord), .timeoutGuardFired]

/-- The screen before it takes the notice away, and there are no lists. -/
def takenAwayRun : List Action := [.notice false, .manager (.keysAnswered Tree.empty)]

theorem lists_screen_current_slowRun :
    (∃ w, Runs.exec step loading slowRun = some w ∧ w.cells = [.title Sample.groceryList] ∧
      w.guarded.screen.allowsSelection = false ∧ ∃ waits v, Runs.exec step w waits = some v ∧
        v.guarded.screen.allowsSelection = true) ∧
    ∃ w, Runs.exec step loading takenAwayRun = some w ∧ w.guarded.screen.stopped = false ∧
      ∀ waits v, (∀ action ∈ waits, Timed action) → Runs.exec step w waits = some v →
        v.guarded.screen.allowsSelection = false := by
  refine ⟨?_, ?_⟩
  · have passed : (Runs.exec step loading slowRun).any (fun w => w.cells = [.title Sample.groceryList] ∧
        w.guarded.screen.allowsSelection = false ∧ w.guarded.screen.stopped = false ∧ Ends w.guarded.screen) = true := by
      decide +kernel
    obtain ⟨w, run, shown⟩ := (Option.any_eq_true _ _).mp passed
    obtain ⟨cells, disabled, goesOn, ends⟩ := of_decide_eq_true shown
    obtain ⟨waits, v, _, ran, enabled, _⟩ := (((lists_screen_current slowRun).1 w run).2 goesOn).mpr ends
    exact ⟨w, run, cells, disabled, waits, v, ran, enabled⟩
  · have passed : (Runs.exec step loading takenAwayRun).any (fun w => w.guarded.screen.stopped = false ∧
        ¬ Ends w.guarded.screen) = true := by
      decide +kernel
    obtain ⟨w, run, stuck⟩ := (Option.any_eq_true _ _).mp passed
    obtain ⟨goesOn, ends⟩ := of_decide_eq_true stuck
    refine ⟨w, run, goesOn, ?_⟩
    intro waits v timers ran
    have same : v.manager = w.manager := congrArg ListsManager.Session.manager (timed_exec timers (exec_screen ran)).2
    refine Bool.eq_false_iff.mpr fun selects => ?_
    exact ends ((((lists_screen_current takenAwayRun).1 w run).2 goesOn).mp ⟨waits, v, timers, ran, selects, same⟩)

end TableScreen
end ListsViewController
end SharedList
