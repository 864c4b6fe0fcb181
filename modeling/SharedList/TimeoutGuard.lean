import Mathlib.Data.List.Count
import SharedList.Runs

/-!
`TimeoutGuard` and the timers that it schedules. The run loop runs the block of
a valid timer once; the timer stays valid while its block runs and is
invalidated after it. The block calls `TimeoutGuardFired`, and until that
returns anything may happen to the guard: calls by the delegate, and blocks of
other timers where the delegate runs the run loop. Only then the block goes on
and deactivates the guard, whichever timer it holds by now.
-/
namespace SharedList.TimeoutGuard

/-- What has happened. An activation has the number of the timer that it schedules. -/
inductive Event where
  | activate (n : Nat)
  | refresh (n : Nat)
  | deactivate
  | timeoutGuardFired (n : Nat)
deriving DecidableEq

namespace Event

/-- `Activate` or `Refresh`, with this number. -/
def Begins (n : Nat) (event : Event) : Prop := event = .activate n ∨ event = .refresh n
/-- A call of a client. -/
def isCall : Event → Bool
  | .timeoutGuardFired _ => false
  | _ => true

end Event

structure State where
  isActive : Bool
  /-- A delegate is set. -/
  delegate : Bool
  timer : Option Nat
  /-- The timers of the run loop that are valid. -/
  scheduled : List Nat
  /-- How many timers there have been. -/
  made : Nat
  /-- The timers whose block waits for `TimeoutGuardFired` to return, innermost first. -/
  running : List Nat
  log : List Event
deriving DecidableEq

namespace State

def start (delegate : Bool) : State := ⟨false, delegate, none, [], 0, [], []⟩

/-! ## The guard -/

def isValid (s : State) (tm : Nat) : Bool := tm ∈ s.scheduled
def invalidate (s : State) (tm : Nat) : State := { s with scheduled := s.scheduled.erase tm }

def deactivate (s : State) : State :=
  match s.timer with
  | some tm =>
    let stopped := if s.isValid tm then s.invalidate tm else s
    { stopped with timer := none, isActive := false }
  | none => { s with isActive := false }

def activate (s : State) : State :=
  let activated := { s.deactivate with isActive := true }
  { activated with timer := some activated.made, scheduled := activated.scheduled ++ [activated.made], made := activated.made + 1 }

def refresh (s : State) : State := s.activate

/-- The end of a timer's block, after `TimeoutGuardFired`; the run loop then invalidates the timer. -/
def ended (s : State) (tm : Nat) : State := s.deactivate.invalidate tm

/-- The start of a timer's block, up to the call of the delegate, if there is one. -/
def expired (s : State) (tm : Nat) : State :=
  if s.delegate then { s with running := tm :: s.running, log := s.log ++ [.timeoutGuardFired tm] } else s.ended tm

end State

inductive Action where
  | activate
  | deactivate
  | refresh
  /-- The run loop runs the block of a timer. -/
  | expired (tm : Nat)
  /-- The innermost `TimeoutGuardFired` returns. -/
  | returned
deriving DecidableEq

open State in
/-- Calls come from any client, and from the delegate during `TimeoutGuardFired`. -/
def step (s : State) : Action → Option State
  | .activate => some { s.activate with log := s.log ++ [.activate s.made] }
  | .deactivate => some { s.deactivate with log := s.log ++ [.deactivate] }
  | .refresh => some { s.refresh with log := s.log ++ [.refresh s.made] }
  | .expired tm => if s.isValid tm ∧ tm ∉ s.running then some (s.expired tm) else none
  | .returned =>
    match s.running with
    | tm :: rest => some ({ s with running := rest }.ended tm)
    | [] => none

/-! ## What is asked of the guard -/

instance (n : Nat) (event : Event) : Decidable (event.Begins n) := inferInstanceAs (Decidable (_ ∨ _))

/-- The activation has been made. -/
def Begun (log : List Event) (n : Nat) : Prop := ∃ event ∈ log, event.Begins n
/-- A later call has followed the activation. -/
def Superseded (log : List Event) (n : Nat) : Prop :=
  ∃ before event after, log = before ++ event :: after ∧ event.Begins n ∧ ∃ call ∈ after, call.isCall = true
/-- The timer of the activation will still run its block. -/
def Pending (s : State) (n : Nat) : Prop := s.isValid n = true ∧ n ∉ s.running

/-- The guard is active exactly when one timer is valid, which it holds, and none is
    otherwise; each activation is fired at most once, and never when a call has followed it. -/
structure Guarded (s : State) : Prop where
  active : s.isActive = true ↔ ∃ tm, s.scheduled = [tm] ∧ s.timer = some tm
  inactive : s.isActive = false → s.scheduled = []
  numbered : ∀ n, s.log.countP (fun event => event.Begins n) ≤ 1
  once : ∀ n, s.log.count (.timeoutGuardFired n) ≤ 1
  timely : ∀ before n after, s.log = before ++ .timeoutGuardFired n :: after → Begun before n ∧ ¬ Superseded before n

/-- Each activation will still be fired, has been fired, or a later call has followed it. -/
def Accounted (s : State) : Prop :=
  ∀ n, Begun s.log n → Pending s n ∨ .timeoutGuardFired n ∈ s.log ∨ Superseded s.log n

/-- When `TimeoutGuardFired` returns, no other activation than the one that has expired is on. -/
def NoRetry (s : State) : Action → Prop
  | .returned => ∀ tm rest, s.running = tm :: rest → ∀ n, s.timer = some n → n = tm
  | _ => True

/-- With a delegate a pending timer can expire, and then fires. -/
theorem Pending.fires {s : State} {n : Nat} (pending : Pending s n) (delegate : s.delegate = true) :
    ∃ t, step s (.expired n) = some t ∧ .timeoutGuardFired n ∈ t.log := by
  refine ⟨_, if_pos pending, ?_⟩
  simp [State.expired, delegate]

theorem returned_eq_some {s t : State} : step s .returned = some t ↔
    ∃ tm rest, s.running = tm :: rest ∧ t = { s with running := rest }.ended tm := by
  cases running : s.running with
  | nil => simp [step, running]
  | cons tm rest => simp [step, running, eq_comm]

theorem begun_append {log : List Event} {event : Event} {n : Nat} :
    Begun (log ++ [event]) n ↔ Begun log n ∨ event.Begins n := by
  simp [Begun, or_and_right, exists_or]

theorem superseded_append {log : List Event} {event : Event} {n : Nat} :
    Superseded (log ++ [event]) n ↔ Superseded log n ∨ (Begun log n ∧ event.isCall = true) := by
  constructor
  · rintro ⟨before, first, after, whole, begins, call, later, isCall⟩
    obtain ⟨rest, last, rfl⟩ : ∃ rest last, after = rest ++ [last] :=
      ⟨_, _, (List.dropLast_concat_getLast (List.ne_nil_of_mem later)).symm⟩
    rw [← List.cons_append, ← List.append_assoc] at whole
    obtain ⟨rfl, rfl⟩ := List.append_inj' whole rfl |>.imp_right (fun same => List.singleton_inj.mp same)
    rcases List.mem_append.mp later with old | new
    · exact .inl ⟨before, first, rest, rfl, begins, call, old, isCall⟩
    · rw [List.mem_singleton.mp new] at isCall
      exact .inr ⟨⟨first, by simp, begins⟩, isCall⟩
  · rintro (⟨before, first, after, rfl, begins, call, later, isCall⟩ | ⟨⟨first, member, begins⟩, isCall⟩)
    · exact ⟨before, first, after ++ [event], by simp, begins, call, List.mem_append_left _ later, isCall⟩
    · obtain ⟨before, after, rfl⟩ := List.append_of_mem member
      exact ⟨before, first, after ++ [event], by simp, begins, event, by simp, isCall⟩

/-! ## The guard as long as it holds every valid timer -/

namespace State

theorem deactivate_eq {s : State} (scheduled : s.scheduled = s.timer.toList) :
    s.deactivate = { s with isActive := false, timer := none, scheduled := [] } := by
  unfold deactivate
  cases held : s.timer with
  | none =>
    rw [held] at scheduled
    have empty : s.scheduled = [] := scheduled
    simp [← held, empty]
  | some tm =>
    rw [held] at scheduled
    simp [isValid, invalidate, scheduled]

theorem activate_eq {s : State} (scheduled : s.scheduled = s.timer.toList) : s.activate =
    { s with isActive := true, timer := some s.made, scheduled := [s.made], made := s.made + 1 } := by
  simp only [activate, deactivate_eq scheduled]
  rfl

theorem ended_eq {s : State} (scheduled : s.scheduled = s.timer.toList) (tm : Nat) :
    s.ended tm = { s with isActive := false, timer := none, scheduled := [] } := by
  rw [ended, deactivate_eq scheduled]
  rfl

end State

/-! ## The log -/

/-- What holds of every log, with the number of the next activation. -/
structure Orderly (log : List Event) (made : Nat) : Prop where
  numbered : ∀ n, Begun log n → n < made
  distinct : ∀ n, log.countP (fun event => event.Begins n) ≤ 1
  fired : ∀ n, .timeoutGuardFired n ∈ log → Begun log n
  once : ∀ n, log.count (.timeoutGuardFired n) ≤ 1
  timely : ∀ before n after, log = before ++ .timeoutGuardFired n :: after → Begun before n ∧ ¬ Superseded before n

/-- A firing in a longer log is one of the old ones, or the new event. -/
theorem fired_append {log before after : List Event} {event : Event} {n : Nat}
    (whole : log ++ [event] = before ++ .timeoutGuardFired n :: after) :
    (∃ rest, log = before ++ .timeoutGuardFired n :: rest) ∨ (log = before ∧ event = .timeoutGuardFired n) := by
  rcases List.eq_nil_or_concat after with rfl | ⟨rest, last, rfl⟩
  · obtain ⟨rfl, same⟩ := List.append_inj' whole rfl
    exact .inr ⟨rfl, List.singleton_inj.mp same⟩
  · rw [List.concat_eq_append, ← List.cons_append, ← List.append_assoc] at whole
    exact .inl ⟨rest, (List.append_inj' whole rfl).1⟩

theorem countP_begins_eq_zero {log : List Event} {n : Nat} (new : ¬ Begun log n) :
    log.countP (fun event => event.Begins n) = 0 := by
  rw [List.countP_eq_zero]
  intro event member begins
  exact new ⟨event, member, of_decide_eq_true begins⟩

/-- A call of a client joins the log, perhaps a new activation. -/
theorem Orderly.called {log : List Event} {made later : Nat} (orderly : Orderly log made) {call : Event} (isCall : call.isCall = true)
    (further : made ≤ later) (new : ∀ n, call.Begins n → n = made ∧ made < later) : Orderly (log ++ [call]) later where
  numbered := by
    intro n begun
    rcases begun_append.mp begun with old | begins
    · have before := orderly.numbered n old
      omega
    · obtain ⟨latest, more⟩ := new n begins
      omega
  distinct := by
    intro n
    rw [List.countP_append, List.countP_singleton]
    by_cases begins : call.Begins n
    · have unused : ¬ Begun log n := by
        intro old
        have before := orderly.numbered n old
        have latest := (new n begins).1
        omega
      simp [countP_begins_eq_zero unused, begins]
    · simpa [begins] using orderly.distinct n
  fired := by
    intro n member
    rcases List.mem_append.mp member with old | last
    · exact begun_append.mpr (.inl (orderly.fired n old))
    · rw [← List.mem_singleton.mp last] at isCall
      cases isCall
  once := by
    intro n
    have other : call ≠ .timeoutGuardFired n := by
      rintro rfl
      cases isCall
    rw [List.count_append, List.count_singleton, if_neg (by simpa using other)]
    exact orderly.once n
  timely := by
    intro before n after whole
    rcases fired_append whole with ⟨rest, old⟩ | ⟨_, rfl⟩
    · exact orderly.timely before n rest old
    · cases isCall

/-- A current activation that has not been fired is fired. -/
theorem Orderly.fire {log : List Event} {made n : Nat} (orderly : Orderly log made) (begun : Begun log n)
    (current : ¬ Superseded log n) (unfired : .timeoutGuardFired n ∉ log) : Orderly (log ++ [.timeoutGuardFired n]) made where
  numbered := by
    intro m later
    refine orderly.numbered m ((begun_append.mp later).resolve_right ?_)
    simp [Event.Begins]
  distinct := by
    intro m
    rw [List.countP_append, List.countP_singleton, if_neg (by simp [Event.Begins])]
    exact orderly.distinct m
  fired := by
    intro m member
    rcases List.mem_append.mp member with old | last
    · exact begun_append.mpr (.inl (orderly.fired m old))
    · cases List.mem_singleton.mp last
      exact begun_append.mpr (.inl begun)
  once := by
    intro m
    rw [List.count_append, List.count_singleton]
    by_cases same : n = m
    · subst same
      simp [List.count_eq_zero.mpr unfired]
    · simpa [same] using orderly.once m
  timely := by
    intro before m after whole
    rcases fired_append whole with ⟨rest, old⟩ | ⟨rfl, same⟩
    · exact orderly.timely before m rest old
    · cases same
      exact ⟨begun, current⟩

/-! ## Runs -/

/-- What holds between any two steps, whatever the delegate does. -/
structure Kept (s : State) : Prop where
  active : s.isActive = s.timer.isSome
  scheduled : s.scheduled = s.timer.toList
  orderly : Orderly s.log s.made
  current : ∀ n, s.timer = some n → Begun s.log n ∧ ¬ Superseded s.log n
  running : ∀ n ∈ s.running, .timeoutGuardFired n ∈ s.log
  /-- The timer that the guard holds has fired only if its block is the innermost one. -/
  innermost : ∀ n, s.timer = some n → .timeoutGuardFired n ∈ s.log → s.running.head? = some n

theorem start_kept (delegate : Bool) : Kept (.start delegate) where
  active := rfl
  scheduled := rfl
  orderly := by constructor <;> simp [State.start, Begun]
  current := by simp [State.start]
  running := by simp [State.start]
  innermost := by simp [State.start]

theorem Kept.guarded {s : State} (kept : Kept s) : Guarded s where
  active := by
    rw [kept.active, kept.scheduled]
    cases s.timer <;> simp
  inactive := by
    rw [kept.active, kept.scheduled]
    cases s.timer <;> simp
  numbered := kept.orderly.distinct
  once := kept.orderly.once
  timely := kept.orderly.timely

/-- The next activation is a new one. -/
theorem Kept.not_begun_made {s : State} (kept : Kept s) : ¬ Begun s.log s.made := by
  intro begun
  have earlier := kept.orderly.numbered s.made begun
  omega

theorem Kept.unfired_made {s : State} (kept : Kept s) : .timeoutGuardFired s.made ∉ s.log := by
  intro fired
  exact kept.not_begun_made (kept.orderly.fired s.made fired)

/-- `Activate`, and `Refresh`, which is the same. -/
theorem Kept.activated {s : State} (kept : Kept s) {call : Event} (isCall : call.isCall = true)
    (begins : ∀ n, call.Begins n ↔ n = s.made) : Kept { s.activate with log := s.log ++ [call] } := by
  have unfired : .timeoutGuardFired s.made ∉ s.log ++ [call] := by
    intro member
    rcases List.mem_append.mp member with old | last
    · exact kept.unfired_made old
    · rw [← List.mem_singleton.mp last] at isCall
      cases isCall
  rw [State.activate_eq kept.scheduled]
  refine ⟨rfl, rfl, ?_, ?_, ?_, ?_⟩
  · exact kept.orderly.called isCall (Nat.le_succ _) fun n first => ⟨(begins n).mp first, Nat.lt_succ_self _⟩
  · rintro n ⟨⟩
    refine ⟨begun_append.mpr (.inr ((begins _).mpr rfl)), ?_⟩
    intro superseded
    rcases superseded_append.mp superseded with ⟨before, first, after, whole, firstBegins, _⟩ | ⟨old, _⟩
    · exact kept.not_begun_made ⟨first, by simp [whole], firstBegins⟩
    · exact kept.not_begun_made old
  · exact fun n member => List.mem_append_left _ (kept.running n member)
  · rintro n ⟨⟩ fired
    exact absurd fired unfired

theorem Kept.deactivated {s : State} (kept : Kept s) : Kept { s.deactivate with log := s.log ++ [.deactivate] } := by
  rw [State.deactivate_eq kept.scheduled]
  refine ⟨rfl, rfl, ?_, ?_, ?_, ?_⟩
  · exact kept.orderly.called rfl (Nat.le_refl _) (by simp [Event.Begins])
  · rintro n ⟨⟩
  · exact fun n member => List.mem_append_left _ (kept.running n member)
  · rintro n ⟨⟩

/-- The end of a block leaves no timer, and the log as it is. -/
theorem Kept.ended {s : State} (kept : Kept s) {running : List Nat} (outer : ∀ n ∈ running, n ∈ s.running) (tm : Nat) :
    Kept ({ s with running := running }.ended tm) := by
  rw [State.ended_eq (s := { s with running := running }) kept.scheduled]
  refine ⟨rfl, rfl, kept.orderly, ?_, ?_, ?_⟩
  · rintro n ⟨⟩
  · exact fun n member => kept.running n (outer n member)
  · rintro n ⟨⟩

/-- A valid timer is the one that the guard holds. -/
theorem Kept.timer_of_valid {s : State} (kept : Kept s) {tm : Nat} (valid : s.isValid tm = true) : s.timer = some tm := by
  rw [State.isValid, kept.scheduled] at valid
  simpa using valid

theorem Kept.unfired {s : State} (kept : Kept s) {tm : Nat} (pending : Pending s tm) : .timeoutGuardFired tm ∉ s.log := by
  intro fired
  exact pending.2 (List.mem_of_mem_head? (kept.innermost tm (kept.timer_of_valid pending.1) fired))

theorem Kept.expired {s : State} (kept : Kept s) {tm : Nat} (pending : Pending s tm) : Kept (s.expired tm) := by
  have held := kept.timer_of_valid pending.1
  obtain ⟨begun, current⟩ := kept.current tm held
  unfold State.expired
  split
  · refine ⟨kept.active, kept.scheduled, kept.orderly.fire begun current (kept.unfired pending), ?_, ?_, ?_⟩
    · intro n same
      cases held.symm.trans same
      refine ⟨begun_append.mpr (.inl begun), ?_⟩
      rw [superseded_append]
      rintro (old | ⟨_, isCall⟩)
      · exact current old
      · cases isCall
    · intro n member
      rcases List.mem_cons.mp member with rfl | old
      · simp
      · exact List.mem_append_left _ (kept.running n old)
    · intro n same _
      cases held.symm.trans same
      rfl
  · exact @Kept.ended _ kept s.running (fun _ member => member) tm

theorem Kept.step {s t : State} {action : Action} (kept : Kept s) (stepped : step s action = some t) : Kept t := by
  cases action with
  | activate =>
    cases stepped
    exact kept.activated rfl (by simp [Event.Begins, eq_comm])
  | deactivate =>
    cases stepped
    exact kept.deactivated
  | refresh =>
    cases stepped
    exact kept.activated rfl (by simp [Event.Begins, eq_comm])
  | expired tm =>
    obtain ⟨pending, ran⟩ := Option.ite_none_right_eq_some.mp stepped
    cases ran
    exact kept.expired pending
  | returned =>
    obtain ⟨tm, rest, running, rfl⟩ := returned_eq_some.mp stepped
    exact kept.ended (fun n member => running ▸ List.mem_cons_of_mem _ member) tm

/-- Whatever the delegate does, the guard is active exactly when it holds the one valid
    timer, and nothing fires twice or too late. -/
theorem never_fires_superseded (delegate : Bool) (actions : List Action) :
    Runs.Always step Guarded (.start delegate) actions :=
  (Runs.always_invariant (fun _ _ _ kept stepped => kept.step stepped) (start_kept delegate) actions).mono
    fun _ kept => kept.guarded

/-! ## Runs in which every activation is accounted for -/

/-- After a call the earlier activations are superseded. -/
theorem accounted_called {s : State} {log : List Event} {call : Event} (isCall : call.isCall = true) (whole : s.log = log ++ [call])
    (latest : ∀ n, call.Begins n → Pending s n) : Accounted s := by
  intro n begun
  rw [whole] at begun ⊢
  rcases begun_append.mp begun with old | begins
  · exact .inr (.inr (superseded_append.mpr (.inr ⟨old, isCall⟩)))
  · exact .inl (latest n begins)

/-- A new timer will run its block. -/
theorem Kept.pending_made {s : State} (kept : Kept s) (log : List Event) :
    Pending { s.activate with log := log } s.made := by
  rw [State.activate_eq kept.scheduled]
  refine ⟨by simp [State.isValid], ?_⟩
  intro member
  exact kept.unfired_made (kept.running _ member)

/-- `Activate`, and `Refresh`. -/
theorem Kept.accounted_activated {s : State} (kept : Kept s) {call : Event} (isCall : call.isCall = true)
    (begins : ∀ n, call.Begins n ↔ n = s.made) : Accounted { s.activate with log := s.log ++ [call] } := by
  refine accounted_called isCall rfl ?_
  intro n first
  rw [(begins n).mp first]
  exact kept.pending_made _

/-- The one timer that was waiting fires. -/
theorem Accounted.expired {s : State} {tm : Nat} (accounted : Accounted s) (kept : Kept s) (delegate : s.delegate = true)
    (pending : Pending s tm) : Accounted (s.expired tm) := by
  simp only [State.expired, if_pos delegate]
  intro n begun
  have old := (begun_append.mp begun).resolve_right (by simp [Event.Begins])
  rcases accounted n old with waiting | fired | superseded
  · cases (kept.timer_of_valid waiting.1).symm.trans (kept.timer_of_valid pending.1)
    exact .inr (.inl (by simp))
  · exact .inr (.inl (List.mem_append_left _ fired))
  · exact .inr (.inr (superseded_append.mpr (.inl superseded)))

/-- With a delegate, a step that cancels no retry keeps every activation accounted for. -/
theorem Accounted.step {s t : State} {action : Action} (accounted : Accounted s) (kept : Kept s) (delegate : s.delegate = true)
    (noRetry : NoRetry s action) (stepped : step s action = some t) : Accounted t := by
  cases action with
  | activate =>
    cases stepped
    exact kept.accounted_activated rfl (by simp [Event.Begins, eq_comm])
  | deactivate =>
    cases stepped
    exact accounted_called rfl rfl (by simp [Event.Begins])
  | refresh =>
    cases stepped
    exact kept.accounted_activated rfl (by simp [Event.Begins, eq_comm])
  | expired tm =>
    obtain ⟨pending, ran⟩ := Option.ite_none_right_eq_some.mp stepped
    cases ran
    exact accounted.expired kept delegate pending
  | returned =>
    obtain ⟨tm, rest, running, rfl⟩ := returned_eq_some.mp stepped
    rw [State.ended_eq (s := { s with running := rest }) kept.scheduled]
    intro n begun
    rcases accounted n begun with waiting | fired | superseded
    · have own := noRetry tm rest running n (kept.timer_of_valid waiting.1)
      exact absurd (by simp [running, own]) waiting.2
    · exact .inr (.inl fired)
    · exact .inr (.inr superseded)

/-- A retry that is on when `TimeoutGuardFired` returns is neither fired nor pending afterwards. -/
theorem not_accounted {s t : State} {action : Action} (kept : Kept s) (retry : ¬ NoRetry s action)
    (stepped : step s action = some t) : ¬ Accounted t := by
  cases action with
  | returned =>
    obtain ⟨own, outer, runs, rfl⟩ := returned_eq_some.mp stepped
    simp only [NoRetry, not_forall] at retry
    obtain ⟨tm, rest, running, n, held, other⟩ := retry
    rw [State.ended_eq (s := { s with running := outer }) kept.scheduled]
    intro accounted
    obtain ⟨begun, current⟩ := kept.current n held
    rcases accounted n begun with waiting | fired | superseded
    · cases waiting.1
    · have innermost := kept.innermost n held fired
      rw [running] at innermost
      exact other (Option.some.inj innermost).symm
    · exact current superseded
  | _ => exact absurd trivial retry

theorem step_delegate {s t : State} {action : Action} (kept : Kept s) (stepped : step s action = some t) :
    t.delegate = s.delegate := by
  cases action with
  | activate | refresh =>
    cases stepped
    simp only [State.refresh, State.activate_eq kept.scheduled]
  | deactivate =>
    cases stepped
    simp only [State.deactivate_eq kept.scheduled]
  | expired tm =>
    obtain ⟨_, ran⟩ := Option.ite_none_right_eq_some.mp stepped
    cases ran
    unfold State.expired
    split
    · rfl
    · rw [State.ended_eq kept.scheduled]
  | returned =>
    obtain ⟨tm, rest, _, rfl⟩ := returned_eq_some.mp stepped
    rw [State.ended_eq (s := { s with running := rest }) kept.scheduled]

/-- With a delegate, every activation of a run will be fired, has been fired or has been
    followed by a call, exactly when no `TimeoutGuardFired` returns while a retry is on. -/
theorem accounted_iff (actions : List Action) :
    Runs.Always step Accounted (.start true) actions ↔ Runs.Along step NoRetry (.start true) actions := by
  refine Runs.always_iff_along (I := fun s => Kept s ∧ s.delegate = true ∧ Accounted s) ?_ ?_ ?_ ?_ actions
  · exact fun _ inv => inv.2.2
  · rintro s action t ⟨kept, delegate, accounted⟩ noRetry stepped
    exact ⟨kept.step stepped, (step_delegate kept stepped).trans delegate, accounted.step kept delegate noRetry stepped⟩
  · exact fun s action t inv retry stepped => not_accounted inv.1 retry stepped
  · exact ⟨start_kept true, rfl, fun n begun => by simp [Begun, State.start] at begun⟩

/-- The first timer has expired, and the delegate has tried again before it returns. -/
def retried : State := ⟨true, true, some 1, [1], 2, [0], [.activate 0, .timeoutGuardFired 0, .activate 1]⟩

/-- Nobody is called for the second activation, and nobody has ended it. -/
theorem retry_cancelled : ¬ ∀ actions, Runs.Always step Accounted (.start true) actions := by
  intro claim
  have reached : Runs.exec step (.start true) [.activate, .expired 0, .activate] = some retried := by decide
  have kept : Kept retried := Runs.exec_invariant (fun _ _ _ kept stepped => kept.step stepped) (start_kept true) reached
  have retry : ¬ NoRetry retried .returned := by
    intro noRetry
    cases noRetry 0 [] rfl 1 rfl
  have accounted := (claim [.activate, .expired 0, .activate, .returned]).last rfl
  exact not_accounted kept retry rfl accounted

end SharedList.TimeoutGuard
