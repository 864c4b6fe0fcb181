import SharedList.AuthManager

/-!
What the calls of `LogIn` and `CreateUser` lead to. `AuthManager` with every
callback under way marked with the call it is for, and every call of a delegate
with what caused it. The state listener, once `TryAutoLogIn` has registered it,
follows each change of the user signed in, beside the blocks of the call that
made the change.
-/
namespace SharedList.AuthManager

/-- What a callback is for. The calls of the manager are numbered. -/
inductive Cause where
  /-- The session found at the start, or that there is none. -/
  | launch
  | logIn (n : Nat)
  | createUser (n : Nat)
  | logOut (n : Nat)
deriving DecidableEq

namespace Cause

/-- The delegate registered for the attempt stays until it gets the call. -/
def leaves : Cause → DelegateCall → Bool
  | .launch, .userLogedIn | .launch, .userLogInFailed | .logIn _, .userLogedIn | .logIn _, .userLogInFailed => true
  | .createUser _, .userRegistered | .createUser _, .userRegistrationFailed => true
  | _, _ => false

/-- An attempt made after the call of `LogOut` with the number. -/
def After (logOut : Nat) : Cause → Prop
  | .logIn n | .createUser n => logOut < n
  | .launch | .logOut _ => False

instance (logOut : Nat) : DecidablePred (After logOut)
  | .logIn _ | .createUser _ => inferInstanceAs (Decidable (_ < _))
  | .launch | .logOut _ => inferInstanceAs (Decidable False)

end Cause

/-- Something under way. -/
inductive Task where
  /-- The request of `signIn` at the server, then its completion block with the result. -/
  | signIn (n : Nat)
  | signInAnswered (n : Nat) (result : Option Key)
  | createUser (n : Nat) (name email : String)
  | createUserAnswered (n : Nat) (name email : String) (result : Option Key)
  /-- A read of `GetUserById`, by the block of `signIn` or of the state listener. -/
  | read (cause : Cause) (id : Key)
  /-- The write of `CreateUser`. -/
  | write (n : Nat) (user : User)
deriving DecidableEq

def Task.cause : Task → Cause
  | .signIn n | .signInAnswered n _ => .logIn n
  | .createUser n _ _ | .createUserAnswered n _ _ _ | .write n _ => .createUser n
  | .read cause _ => cause

structure Attempts where
  currentUser : Option User
  auth : Option Key
  /-- What left `auth` as it is. -/
  signedBy : Cause
  /-- The user that the state listener was last called with, if it was called. -/
  previous : Option (Option Key)
  notifications : Nat
  tasks : List Task
  /-- How many calls there were. -/
  made : Nat
  /-- Those of `LogIn` and `CreateUser`. -/
  attempts : List Cause
  /-- The calls of `LogIn` that the server accepted. -/
  succeeded : List Nat
  broadcasts : List (Cause × DelegateCall)
  /-- The delegates, by the attempt each was registered for. -/
  delegates : List Cause
  /-- The calls that each delegate got, with their causes. -/
  delivered : List (Cause × Cause × DelegateCall)

namespace Attempts

/-- After `TryAutoLogIn`, with the delegate of the first screen. -/
def start (persisted : Option Key) : Attempts where
  currentUser := none
  auth := persisted
  signedBy := .launch
  previous := none
  notifications := 1
  tasks := []
  made := 0
  attempts := []
  succeeded := []
  broadcasts := []
  delegates := [.launch]
  delivered := []

/-- `delegates.invokeDelegates`; the delegates whose attempt is over leave. -/
def tell (s : Attempts) (cause : Cause) (call : DelegateCall) : Attempts :=
  { s with broadcasts := s.broadcasts ++ [(cause, call)],
           delivered := s.delivered ++ s.delegates.map (fun delegate => (delegate, cause, call)),
           delegates := s.delegates.filter (fun delegate => !delegate.leaves call) }

def setAuth (s : Attempts) (auth : Option Key) (cause : Cause) : Attempts :=
  { s with auth := auth, signedBy := cause, notifications := s.notifications + 1 }

/-- A delegate is added and the call is made. -/
def attempt (s : Attempts) (cause : Nat → Cause) (task : Nat → Task) : Attempts :=
  { s with made := s.made + 1, attempts := s.attempts ++ [cause s.made], tasks := s.tasks ++ [task s.made],
           delegates := s.delegates ++ [cause s.made] }

def logIn (s : Attempts) : Attempts := s.attempt .logIn .signIn

def createUser (s : Attempts) (name email : String) : Attempts := s.attempt .createUser (fun n => .createUser n name email)

def logOut (s : Attempts) (throws : Bool) : Attempts :=
  let signedOut := if throws ∨ s.auth = none then s else s.setAuth none (.logOut s.made)
  { signedOut with currentUser := none, made := s.made + 1 }.tell (.logOut s.made) .userLogedOut

def replace (s : Attempts) (task next : Task) : Attempts := { s with tasks := s.tasks.erase task ++ [next] }

/-- A success signs the user in. -/
def signedIn (s : Attempts) (cause : Cause) : Option Key → Attempts
  | none => s
  | some uid => s.setAuth (some uid) cause

/-- The server answers a request. -/
def resolved (s : Attempts) (task : Task) (result : Option Key) : Option Attempts :=
  if task ∈ s.tasks then
    match task with
    | .signIn n =>
      let answered := { s.replace task (.signInAnswered n result) with
        succeeded := if result.isSome then s.succeeded ++ [n] else s.succeeded }
      some (answered.signedIn (.logIn n) result)
    | .createUser n name email =>
      some ((s.replace task (.createUserAnswered n name email result)).signedIn (.createUser n) result)
    | _ => none
  else none

def finished (s : Attempts) (task : Task) : Attempts := { s with tasks := s.tasks.erase task }

/-- The completion blocks of `signIn` and `createUser`. -/
def completed (s : Attempts) (task : Task) : Option Attempts :=
  if task ∈ s.tasks then
    match task with
    | .signInAnswered n none => some ((s.finished task).tell (.logIn n) .userLogInFailed)
    | .signInAnswered n (some uid) => some (s.replace task (.read (.logIn n) uid))
    | .createUserAnswered n _ _ none => some ((s.finished task).tell (.createUser n) .userRegistrationFailed)
    | .createUserAnswered n name email (some uId) => some (s.replace task (.write n ⟨uId, name, email⟩))
    | _ => none
  else none

/-- A block of the state listener. -/
def notified (s : Attempts) : Option Attempts :=
  match s.notifications with
  | 0 => none
  | waiting + 1 =>
    let heard := { s with notifications := waiting, previous := some s.auth }
    if s.previous = some s.auth then some heard
    else match s.auth with
      | some uid => some { heard with tasks := s.tasks ++ [.read s.signedBy uid] }
      | none => some (heard.tell s.signedBy .userLogInFailed)

/-- The block of `GetUserById`. -/
def userRead (s : Attempts) (cause : Cause) (id : Key) (userSnapshot : Snapshot) : Option Attempts :=
  if .read cause id ∈ s.tasks then do
    let user ← User.read id userSnapshot
    return { s.finished (.read cause id) with currentUser := some user }.tell cause .userLogedIn
  else none

/-- The completion block of `setValue`. -/
def userWritten (s : Attempts) (n : Nat) (user : User) (failed : Bool) : Option Attempts :=
  if .write n user ∈ s.tasks then
    let written := s.finished (.write n user)
    if failed then some (written.tell (.createUser n) .userRegistrationFailed)
    else some (({ written with
      currentUser := User.deserialize user.id (User.serialize user.name user.email) }.tell (.createUser n) .userRegistered).tell
      (.createUser n) .userLogedIn)
  else none

inductive Action where
  | logIn
  | createUser (name email : String)
  | logOut (throws : Bool)
  | resolved (task : Task) (result : Option Key)
  | completed (task : Task)
  | notified
  | userRead (cause : Cause) (id : Key) (userSnapshot : Snapshot)
  | userWritten (n : Nat) (user : User) (failed : Bool)

def step (s : Attempts) : Action → Option Attempts
  | .logIn => some s.logIn
  | .createUser name email => some (s.createUser name email)
  | .logOut throws => some (s.logOut throws)
  | .resolved task result => s.resolved task result
  | .completed task => s.completed task
  | .notified => s.notified
  | .userRead cause id userSnapshot => s.userRead cause id userSnapshot
  | .userWritten n user failed => s.userWritten n user failed

/-! ## Outcomes -/

/-- How many callbacks are under way for the cause. -/
def underWay (s : Attempts) (cause : Cause) : Nat := (s.tasks.map Task.cause).count cause

/-- The broadcasts that it led to. -/
def told (s : Attempts) (cause : Cause) : List DelegateCall :=
  (s.broadcasts.filter (fun broadcast => broadcast.1 = cause)).map Prod.snd

/-- What an attempt should lead to. -/
def Outcome (s : Attempts) : Cause → List DelegateCall → Prop
  | .logIn n, calls => calls = [if n ∈ s.succeeded then .userLogedIn else .userLogInFailed]
  | .createUser _, calls => calls = [.userRegistered, .userLogedIn] ∨ calls = [.userRegistrationFailed]
  | .launch, _ | .logOut _, _ => False

/-- One callback is under way for the attempt and nothing has been told, or the one outcome
    has been told and nothing more is under way. -/
def Once (s : Attempts) (cause : Cause) : Prop :=
  (s.underWay cause = 1 ∧ s.told cause = []) ∨ (s.underWay cause = 0 ∧ s.Outcome cause (s.told cause))

/-- No delegate of a later attempt has got the `UserLogInFailed` of a log-out. -/
def NotLate (s : Attempts) : Prop :=
  ∀ delegate logOut, (delegate, .logOut logOut, .userLogInFailed) ∈ s.delivered → ¬ delegate.After logOut

/-- Every attempt has one outcome, and no later one hears of a log-out. -/
structure Sound (s : Attempts) : Prop where
  once : ∀ cause ∈ s.attempts, s.Once cause
  notLate : s.NotLate

/-- The listener passes on no user that `LogIn` or `CreateUser` has signed in, and no
    log-out when there is a delegate of a later attempt. -/
def Unheard (s : Attempts) : Action → Prop
  | .notified => s.previous ≠ some s.auth →
    (s.auth.isSome → s.signedBy = .launch) ∧
      ∀ logOut, s.auth = none → s.signedBy = .logOut logOut → ∀ delegate ∈ s.delegates, ¬ delegate.After logOut
  | _ => True

/-! ## Callbacks and broadcasts -/

section
variable (s : Attempts) (cause : Cause) (call : DelegateCall)

@[simp] theorem tell_broadcasts : (s.tell cause call).broadcasts = s.broadcasts ++ [(cause, call)] := rfl

end

theorem told_append {s t : Attempts} {cause : Cause} {calls : List DelegateCall}
    (broadcasts : t.broadcasts = s.broadcasts ++ calls.map (fun call => (cause, call))) (other : Cause) :
    t.told other = if other = cause then s.told other ++ calls else s.told other := by
  have mapped : (calls.map (fun call => (cause, call))).filter (fun broadcast => broadcast.1 = other) =
      if other = cause then calls.map (fun call => (cause, call)) else [] := by
    by_cases same : other = cause
    · rw [if_pos same, List.filter_eq_self]
      simp [same]
    · rw [if_neg same, List.filter_eq_nil_iff]
      simp [Ne.symm same]
  rw [told, broadcasts, List.filter_append, mapped, List.map_append]
  by_cases same : other = cause
  · rw [if_pos same, if_pos same, List.map_map, told]
    congr 1
    exact List.map_id' calls
  · rw [if_neg same, if_neg same, List.map_nil, List.append_nil, told]

theorem NotLate.tell {s : Attempts} (notLate : s.NotLate) {cause : Cause} {call : DelegateCall}
    (timely : ∀ logOut, cause = .logOut logOut → call = .userLogInFailed → ∀ delegate ∈ s.delegates, ¬ delegate.After logOut) :
    (s.tell cause call).NotLate := by
  intro delegate logOut got
  rcases List.mem_append.mp got with before | now
  · exact notLate delegate logOut before
  · obtain ⟨other, registered, same⟩ := List.mem_map.mp now
    simp only [Prod.mk.injEq] at same
    obtain ⟨rfl, rfl, rfl⟩ := same
    exact timely logOut rfl rfl other registered

/-- The outcome of an attempt is nobody's log-out. -/
theorem NotLate.tell_attempt {s : Attempts} (notLate : s.NotLate) {cause : Cause} (attempt : ∀ n, cause ≠ .logOut n)
    (call : DelegateCall) : (s.tell cause call).NotLate :=
  notLate.tell fun logOut caused => absurd caused (attempt logOut)

/-- A callback that is under way is its attempt's only one, and nothing has been told. -/
theorem Once.pending {s : Attempts} {task : Task} (once : s.Once task.cause) (member : task ∈ s.tasks) :
    s.underWay task.cause = 1 ∧ s.told task.cause = [] := by
  refine once.resolve_right fun ended => ?_
  have := List.count_pos_iff.mpr (List.mem_map_of_mem (f := Task.cause) member)
  exact absurd ended.1 (Nat.ne_of_gt this)

theorem underWay_finished {s : Attempts} {task : Task} (member : task ∈ s.tasks) (cause : Cause) :
    (s.finished task).underWay cause + (if task.cause = cause then 1 else 0) = s.underWay cause := by
  have order := (List.perm_cons_erase member).map Task.cause
  have counted := order.count_eq cause
  rw [List.map_cons, List.count_cons] at counted
  simp only [underWay, finished, beq_iff_eq] at counted ⊢
  exact counted.symm

theorem underWay_replace {s : Attempts} {task next : Task} (member : task ∈ s.tasks) (same : next.cause = task.cause)
    (cause : Cause) : (s.replace task next).underWay cause = s.underWay cause := by
  rw [← underWay_finished member cause]
  simp only [underWay, replace, finished, List.map_append, List.map_cons, List.map_nil, List.count_append, same,
    List.count_singleton, beq_iff_eq]

/-! ## What holds in every state -/

/-- What a callback that is under way says of its attempt. -/
def Fits (s : Attempts) : Task → Prop
  | .signIn n => n ∉ s.succeeded
  | .signInAnswered n result => n ∈ s.succeeded ↔ result.isSome
  | .read (.logIn n) _ => n ∈ s.succeeded
  | .read (.createUser _) _ | .read (.logOut _) _ => False
  | .read .launch _ | .createUser .. | .createUserAnswered .. | .write .. => True

/-- A cause that is no attempt. -/
def Aside (cause : Cause) : Prop := cause = .launch ∨ ∃ n, cause = .logOut n

structure Kept (s : Attempts) : Prop where
  sound : s.Sound
  numbered : ∀ cause ∈ s.attempts, ∃ n < s.made, cause = .logIn n ∨ cause = .createUser n
  owned : ∀ task ∈ s.tasks, task.cause = .launch ∨ task.cause ∈ s.attempts
  broadcast : ∀ broadcast ∈ s.broadcasts, Aside broadcast.1 ∨ broadcast.1 ∈ s.attempts
  accepted : ∀ n ∈ s.succeeded, .logIn n ∈ s.attempts
  signed : s.auth.isSome → s.signedBy = .launch ∨ s.signedBy ∈ s.attempts
  signedOut : s.auth = none → Aside s.signedBy
  fits : ∀ task ∈ s.tasks, s.Fits task

theorem start_kept (persisted : Option Key) : Kept (start persisted) where
  sound := ⟨by simp [start], by simp [start, NotLate]⟩
  numbered := by simp [start]
  owned := by simp [start]
  broadcast := by simp [start]
  accepted := by simp [start]
  signed := fun _ => .inl rfl
  signedOut := fun _ => .inl rfl
  fits := by simp [start]

theorem Kept.not_aside {s : Attempts} (kept : Kept s) {cause : Cause} (member : cause ∈ s.attempts) : ¬ Aside cause := by
  obtain ⟨n, _, rfl | rfl⟩ := kept.numbered cause member
  · simp [Aside]
  · simp [Aside]

theorem Fits.congr {s t : Attempts} {task : Task} (fits : s.Fits task)
    (same : ∀ n, task.cause = .logIn n → (n ∈ t.succeeded ↔ n ∈ s.succeeded)) : t.Fits task := by
  cases task with
  | signIn n => exact fun succeeded => fits ((same n rfl).mp succeeded)
  | signInAnswered n result => exact (same n rfl).trans fits
  | read cause id =>
    cases cause with
    | logIn n => exact (same n rfl).mpr fits
    | _ => exact fits
  | _ => trivial

theorem Outcome.congr {s t : Attempts} {cause : Cause} {calls : List DelegateCall} (outcome : s.Outcome cause calls)
    (same : ∀ n, cause = .logIn n → (n ∈ t.succeeded ↔ n ∈ s.succeeded)) : t.Outcome cause calls := by
  cases cause with
  | logIn n =>
    have succeeded : (n ∈ t.succeeded) = (n ∈ s.succeeded) := propext (same n rfl)
    simp only [Outcome, succeeded]
    exact outcome
  | _ => exact outcome

/-! ## Each kind of step -/

/-- What neither a callback nor a broadcast changes. -/
structure Frame (s t : Attempts) : Prop where
  made : t.made = s.made
  attempts : t.attempts = s.attempts
  auth : t.auth = s.auth
  signedBy : t.signedBy = s.signedBy

theorem Kept.pending {s : Attempts} (kept : Kept s) {task : Task} (member : task ∈ s.tasks)
    (attempt : task.cause ∈ s.attempts) : s.underWay task.cause = 1 ∧ s.told task.cause = [] :=
  (kept.sound.once task.cause attempt).pending member

/-- No other callback of an attempt is under way. -/
theorem Kept.alone {s : Attempts} (kept : Kept s) {task other : Task} (member : task ∈ s.tasks)
    (attempt : task.cause ∈ s.attempts) (rest : other ∈ s.tasks.erase task) : other.cause ≠ task.cause := by
  intro same
  have one := underWay_finished member task.cause
  rw [(kept.pending member attempt).1, if_pos rfl] at one
  have waiting : 0 < (s.finished task).underWay task.cause :=
    List.count_pos_iff.mpr (same ▸ List.mem_map_of_mem (f := Task.cause) rest)
  omega

/-- A callback is followed by the next one of its attempt. -/
theorem Kept.replaced {s t : Attempts} (kept : Kept s) {task : Task} (member : task ∈ s.tasks) (next : Task)
    (same : next.cause = task.cause) (tasks : t.tasks = (s.replace task next).tasks) (frame : Frame s t)
    (broadcasts : t.broadcasts = s.broadcasts) (delivered : t.delivered = s.delivered)
    (succeeded : ∀ n, .logIn n ≠ task.cause → (n ∈ t.succeeded ↔ n ∈ s.succeeded))
    (accepted : ∀ n ∈ t.succeeded, .logIn n ∈ s.attempts) (fits : t.Fits next) : Kept t := by
  have sameWay : ∀ cause, t.underWay cause = s.underWay cause := by
    intro cause
    rw [underWay, tasks]
    exact underWay_replace member same cause
  have sameTold : ∀ cause, t.told cause = s.told cause := by
    intro cause
    rw [told, broadcasts, told]
  refine ⟨⟨?_, ?_⟩, ?_, ?_, ?_, ?_, ?_, ?_, ?_⟩
  · intro cause attempt
    rw [frame.attempts] at attempt
    rw [Once, sameWay, sameTold]
    refine (kept.sound.once cause attempt).imp_right fun ended => ⟨ended.1, ended.2.congr fun n logIn => succeeded n ?_⟩
    rintro mine
    rw [logIn, mine, underWay] at ended
    exact absurd ended.1 (Nat.ne_of_gt (List.count_pos_iff.mpr (List.mem_map_of_mem (f := Task.cause) member)))
  · rw [NotLate, delivered]
    exact kept.sound.notLate
  · rw [frame.attempts, frame.made]
    exact kept.numbered
  · intro other waiting
    rw [tasks] at waiting
    rw [frame.attempts]
    rcases List.mem_append.mp waiting with old | new
    · exact kept.owned other (List.mem_of_mem_erase old)
    · rw [List.mem_singleton.mp new, same]
      exact kept.owned task member
  · rw [broadcasts, frame.attempts]
    exact kept.broadcast
  · rw [frame.attempts]
    exact accepted
  · rw [frame.auth, frame.signedBy, frame.attempts]
    exact kept.signed
  · rw [frame.auth, frame.signedBy]
    exact kept.signedOut
  · intro other waiting
    rw [tasks] at waiting
    rcases List.mem_append.mp waiting with old | new
    · refine (kept.fits other (List.mem_of_mem_erase old)).congr fun n logIn => succeeded n ?_
      rintro mine
      rcases kept.owned task member with launch | attempt
      · cases mine.trans launch
      · exact kept.alone member attempt old (logIn.trans mine)
    · rw [List.mem_singleton.mp new]
      exact fits

/-- A callback ends, and its attempt with it. -/
theorem Kept.finish {s t : Attempts} (kept : Kept s) {task : Task} (member : task ∈ s.tasks) {calls : List DelegateCall}
    (tasks : t.tasks = s.tasks.erase task) (frame : Frame s t) (succeeded : t.succeeded = s.succeeded)
    (broadcasts : t.broadcasts = s.broadcasts ++ calls.map (fun call => (task.cause, call)))
    (outcome : task.cause ∈ s.attempts → s.Outcome task.cause calls)
    (notLate : t.NotLate) : Kept t := by
  have owner := kept.owned task member
  refine ⟨⟨?_, notLate⟩, ?_, ?_, ?_, ?_, ?_, ?_, ?_⟩
  · intro cause attempt
    rw [frame.attempts] at attempt
    have ended := underWay_finished member cause
    have sameWay : t.underWay cause = (s.finished task).underWay cause := by rw [underWay, tasks, underWay, finished]
    rw [Once, sameWay, told_append broadcasts]
    by_cases own : cause = task.cause
    · subst own
      obtain ⟨one, nothing⟩ := kept.pending member attempt
      rw [if_pos rfl] at ended
      rw [if_pos rfl, nothing, List.nil_append]
      exact .inr ⟨by omega, (outcome attempt).congr fun n _ => by rw [succeeded]⟩
    · rw [if_neg (Ne.symm own), Nat.add_zero] at ended
      rw [if_neg own, ended]
      exact (kept.sound.once cause attempt).imp_right fun ended => ⟨ended.1, ended.2.congr fun n _ => by rw [succeeded]⟩
  · rw [frame.attempts, frame.made]
    exact kept.numbered
  · intro other waiting
    rw [tasks] at waiting
    rw [frame.attempts]
    exact kept.owned other (List.mem_of_mem_erase waiting)
  · intro broadcast member
    rw [frame.attempts]
    rw [broadcasts] at member
    rcases List.mem_append.mp member with old | new
    · exact kept.broadcast broadcast old
    · obtain ⟨call, _, rfl⟩ := List.mem_map.mp new
      exact owner.imp_left .inl
  · rw [succeeded, frame.attempts]
    exact kept.accepted
  · rw [frame.auth, frame.signedBy, frame.attempts]
    exact kept.signed
  · rw [frame.auth, frame.signedBy]
    exact kept.signedOut
  · intro other waiting
    rw [tasks] at waiting
    exact (kept.fits other (List.mem_of_mem_erase waiting)).congr fun n _ => by rw [succeeded]

/-- A call is told that has no attempt for its cause. -/
theorem Kept.tell {s : Attempts} (kept : Kept s) {cause : Cause} (aside : Aside cause) {call : DelegateCall}
    (timely : ∀ logOut, cause = .logOut logOut → call = .userLogInFailed → ∀ delegate ∈ s.delegates, ¬ delegate.After logOut) :
    Kept (s.tell cause call) := by
  refine ⟨⟨?_, kept.sound.notLate.tell timely⟩, kept.numbered, kept.owned, ?_, kept.accepted, kept.signed, kept.signedOut, kept.fits⟩
  · intro other attempt
    have differ : other ≠ cause := by
      rintro rfl
      exact kept.not_aside attempt aside
    have sameTold : (s.tell cause call).told other = s.told other := by
      rw [@told_append s _ cause [call] (tell_broadcasts s cause call), if_neg differ]
    rw [Once, sameTold]
    exact kept.sound.once other attempt
  · intro broadcast member
    rcases List.mem_append.mp member with old | new
    · exact kept.broadcast broadcast old
    · rw [List.mem_singleton.mp new]
      exact .inl aside

theorem Kept.setAuth {s : Attempts} (kept : Kept s) {auth : Option Key} {cause : Cause}
    (signed : auth.isSome → cause = .launch ∨ cause ∈ s.attempts) (signedOut : auth = none → Aside cause) :
    Kept (s.setAuth auth cause) :=
  ⟨⟨kept.sound.once, kept.sound.notLate⟩, kept.numbered, kept.owned, kept.broadcast, kept.accepted, signed, signedOut, kept.fits⟩

theorem Kept.signedIn {s : Attempts} (kept : Kept s) {cause : Cause} (attempt : cause ∈ s.attempts) (result : Option Key) :
    Kept (s.signedIn cause result) := by
  cases result with
  | none => exact kept
  | some uid => exact kept.setAuth (fun _ => .inr attempt) (fun signedOut => by cases signedOut)

/-- The next number is not that of an attempt. -/
theorem Kept.fresh {s : Attempts} (kept : Kept s) {cause : Nat → Cause} (kind : cause = .logIn ∨ cause = .createUser) :
    cause s.made ∉ s.attempts := by
  intro old
  obtain ⟨n, before, same⟩ := kept.numbered _ old
  rcases kind with rfl | rfl
  · rcases same with same | same
    · cases same; exact Nat.lt_irrefl _ before
    · cases same
  · rcases same with same | same
    · cases same
    · cases same; exact Nat.lt_irrefl _ before

/-- What is neither an attempt nor aside has no callback and has not been told anything. -/
theorem Kept.untouched {s : Attempts} (kept : Kept s) {cause : Cause} (new : cause ∉ s.attempts) (notAside : ¬ Aside cause) :
    s.underWay cause = 0 ∧ s.told cause = [] := by
  constructor
  · rw [underWay, List.count_eq_zero]
    intro waiting
    obtain ⟨pending, member, same⟩ := List.mem_map.mp waiting
    rcases kept.owned pending member with launch | old
    · exact notAside (.inl (same.symm.trans launch))
    · exact new (same ▸ old)
  · refine List.map_eq_nil_iff.mpr (List.filter_eq_nil_iff.mpr fun broadcast member caused => ?_)
    have caused : broadcast.1 = cause := of_decide_eq_true caused
    rcases kept.broadcast broadcast member with aside | old
    · exact notAside (caused ▸ aside)
    · exact new (caused ▸ old)

theorem underWay_attempt (s : Attempts) {cause : Nat → Cause} {task : Nat → Task} (own : ∀ n, (task n).cause = cause n)
    (other : Cause) :
    (s.attempt cause task).underWay other = s.underWay other + (if cause s.made = other then 1 else 0) := by
  simp only [underWay, Attempts.attempt, List.map_append, List.map_cons, List.map_nil, List.count_append, own,
    List.count_singleton, beq_iff_eq]

/-- A new attempt. -/
theorem Kept.attempt {s : Attempts} (kept : Kept s) {cause : Nat → Cause} {task : Nat → Task}
    (kind : cause = .logIn ∨ cause = .createUser) (own : ∀ n, (task n).cause = cause n)
    (fits : s.Fits (task s.made)) : Kept (s.attempt cause task) := by
  have new := kept.fresh kind
  have notAside : ¬ Aside (cause s.made) := by
    rcases kind with rfl | rfl <;> simp [Aside]
  refine ⟨⟨?_, kept.sound.notLate⟩, ?_, ?_, ?_, ?_, ?_, kept.signedOut, ?_⟩
  · intro other attempt
    rw [Once, underWay_attempt s own]
    rcases List.mem_append.mp attempt with old | latest
    · have differ : cause s.made ≠ other := by
        rintro rfl
        exact new old
      rw [if_neg differ, Nat.add_zero]
      exact kept.sound.once other old
    · obtain rfl := List.mem_singleton.mp latest
      obtain ⟨idle, untold⟩ := kept.untouched new notAside
      rw [if_pos rfl, idle]
      exact .inl ⟨rfl, untold⟩
  · intro other attempt
    rcases List.mem_append.mp attempt with old | latest
    · obtain ⟨n, before, same⟩ := kept.numbered other old
      exact ⟨n, Nat.lt_succ_of_lt before, same⟩
    · rw [List.mem_singleton.mp latest]
      refine ⟨s.made, Nat.lt_succ_self _, ?_⟩
      rcases kind with rfl | rfl
      · exact .inl rfl
      · exact .inr rfl
  · intro other waiting
    rcases List.mem_append.mp waiting with old | latest
    · exact (kept.owned other old).imp_right (List.mem_append_left _)
    · rw [List.mem_singleton.mp latest, own]
      exact .inr (List.mem_append_right _ List.mem_cons_self)
  · intro broadcast member
    exact (kept.broadcast broadcast member).imp_right (List.mem_append_left _)
  · intro n succeeded
    exact List.mem_append_left _ (kept.accepted n succeeded)
  · intro signedIn
    exact (kept.signed signedIn).imp_right (List.mem_append_left _)
  · intro other waiting
    rcases List.mem_append.mp waiting with old | latest
    · exact (kept.fits other old).congr fun _ _ => Iff.rfl
    · rw [List.mem_singleton.mp latest]
      exact fits.congr fun _ _ => Iff.rfl

/-- A log-out has a number as well. -/
theorem Kept.numberedOn {s : Attempts} (kept : Kept s) : Kept { s with currentUser := none, made := s.made + 1 } := by
  refine ⟨⟨kept.sound.once, kept.sound.notLate⟩, ?_, kept.owned, kept.broadcast, kept.accepted, kept.signed, kept.signedOut, kept.fits⟩
  intro cause attempt
  obtain ⟨n, before, same⟩ := kept.numbered cause attempt
  exact ⟨n, Nat.lt_succ_of_lt before, same⟩

theorem Kept.logOut {s : Attempts} (kept : Kept s) (throws : Bool) : Kept (s.logOut throws) := by
  unfold Attempts.logOut
  by_cases stays : throws ∨ s.auth = none
  · simp only [if_pos stays]
    exact Kept.tell kept.numberedOn (.inr ⟨_, rfl⟩) (fun _ _ call => by cases call)
  · simp only [if_neg stays]
    have signedOut : Kept (s.setAuth none (.logOut s.made)) := kept.setAuth (by simp) (fun _ => .inr ⟨s.made, rfl⟩)
    exact Kept.tell signedOut.numberedOn (.inr ⟨_, rfl⟩) (fun _ _ call => by cases call)

theorem Kept.resolved {s t : Attempts} (kept : Kept s) {task : Task} {result : Option Key}
    (stepped : s.resolved task result = some t) : Kept t := by
  obtain ⟨member, stepped⟩ := Option.ite_none_right_eq_some.mp stepped
  cases task with
  | signIn n =>
    obtain rfl := Option.some.inj stepped
    have fresh : n ∉ s.succeeded := kept.fits _ member
    have attempt : .logIn n ∈ s.attempts := (kept.owned _ member).resolve_left (by simp [Task.cause])
    have next : Kept { s.replace (.signIn n) (.signInAnswered n result) with
        succeeded := if result.isSome then s.succeeded ++ [n] else s.succeeded } := by
      refine kept.replaced member (.signInAnswered n result) rfl rfl ⟨rfl, rfl, rfl, rfl⟩ rfl rfl ?_ ?_ ?_
      · intro m other
        have differ : m ≠ n := by
          rintro rfl
          exact other rfl
        cases result <;> simp [differ]
      · intro m succeeded
        cases result with
        | none => exact kept.accepted m succeeded
        | some uid =>
          rcases List.mem_append.mp succeeded with old | new
          · exact kept.accepted m old
          · rw [List.mem_singleton.mp new]
            exact attempt
      · cases result <;> simp [Fits, fresh]
    exact next.signedIn attempt result
  | createUser n name email =>
    obtain rfl := Option.some.inj stepped
    have attempt : .createUser n ∈ s.attempts := (kept.owned _ member).resolve_left (by simp [Task.cause])
    exact Kept.signedIn (kept.replaced member (.createUserAnswered n name email result) rfl rfl ⟨rfl, rfl, rfl, rfl⟩ rfl rfl
      (fun _ _ => Iff.rfl) kept.accepted trivial) attempt result
  | _ => cases stepped

theorem Kept.completed {s t : Attempts} (kept : Kept s) {task : Task} (stepped : s.completed task = some t) : Kept t := by
  obtain ⟨member, stepped⟩ := Option.ite_none_right_eq_some.mp stepped
  have notLate : ∀ n call, ((s.finished task).tell (.logIn n) call).NotLate := fun n call =>
    NotLate.tell_attempt kept.sound.notLate (by simp) call
  have notLate' : ∀ n call, ((s.finished task).tell (.createUser n) call).NotLate := fun n call =>
    NotLate.tell_attempt kept.sound.notLate (by simp) call
  cases task with
  | signInAnswered n result =>
    have succeeded : n ∈ s.succeeded ↔ result.isSome := kept.fits _ member
    cases result with
    | none =>
      obtain rfl := Option.some.inj stepped
      refine @Kept.finish s _ kept _ member [.userLogInFailed] rfl ⟨rfl, rfl, rfl, rfl⟩ rfl rfl ?_ (notLate n _)
      intro _
      simp [Task.cause, Outcome, succeeded]
    | some uid =>
      obtain rfl := Option.some.inj stepped
      exact kept.replaced member (.read (.logIn n) uid) rfl rfl ⟨rfl, rfl, rfl, rfl⟩ rfl rfl (fun _ _ => Iff.rfl) kept.accepted
        (succeeded.mpr rfl)
  | createUserAnswered n name email result =>
    cases result with
    | none =>
      obtain rfl := Option.some.inj stepped
      refine @Kept.finish s _ kept _ member [.userRegistrationFailed] rfl ⟨rfl, rfl, rfl, rfl⟩ rfl rfl ?_ (notLate' n _)
      exact fun _ => .inr rfl
    | some uId =>
      obtain rfl := Option.some.inj stepped
      exact kept.replaced member (.write n ⟨uId, name, email⟩) rfl rfl ⟨rfl, rfl, rfl, rfl⟩ rfl rfl (fun _ _ => Iff.rfl) kept.accepted
        trivial
  | _ => cases stepped

theorem Kept.userRead {s t : Attempts} (kept : Kept s) {cause : Cause} {id : Key} {userSnapshot : Snapshot}
    (stepped : s.userRead cause id userSnapshot = some t) : Kept t := by
  simp only [Attempts.userRead, Option.ite_none_right_eq_some, Option.bind_eq_bind, Option.bind_eq_some_iff,
    Option.pure_def, Option.some.injEq] at stepped
  obtain ⟨member, user, _, rfl⟩ := stepped
  have fits := kept.fits _ member
  have attempt : ∀ n, cause ≠ .logOut n := by
    rintro n rfl
    exact fits
  refine @Kept.finish s _ kept _ member [.userLogedIn] rfl ⟨rfl, rfl, rfl, rfl⟩ rfl rfl ?_ (NotLate.tell_attempt kept.sound.notLate attempt _)
  intro mine
  cases cause with
  | logIn n =>
    have succeeded : n ∈ s.succeeded := fits
    simp [Task.cause, Outcome, succeeded]
  | launch => exact absurd (.inl rfl) (kept.not_aside mine)
  | createUser n => exact fits.elim
  | logOut n => exact fits.elim

theorem Kept.userWritten {s t : Attempts} (kept : Kept s) {n : Nat} {user : User} {failed : Bool}
    (stepped : s.userWritten n user failed = some t) : Kept t := by
  obtain ⟨member, stepped⟩ := Option.ite_none_right_eq_some.mp stepped
  cases failed with
  | true =>
    obtain rfl := Option.some.inj stepped
    exact @Kept.finish s _ kept _ member [.userRegistrationFailed] rfl ⟨rfl, rfl, rfl, rfl⟩ rfl rfl (fun _ => .inr rfl)
      (NotLate.tell_attempt kept.sound.notLate (by simp) _)
  | false =>
    obtain rfl := Option.some.inj stepped
    refine @Kept.finish s _ kept _ member [.userRegistered, .userLogedIn] rfl ⟨rfl, rfl, rfl, rfl⟩ rfl ?_ (fun _ => .inl rfl) ?_
    · simp [finished, Task.cause]
    · exact NotLate.tell_attempt (NotLate.tell_attempt kept.sound.notLate (by simp) _) (by simp) _

/-- A read for the session found at the start is no attempt's. -/
theorem Kept.launchRead {s : Attempts} (kept : Kept s) {cause : Cause} (launched : cause = .launch) (uid : Key) :
    Kept { s with tasks := s.tasks ++ [.read cause uid] } := by
  subst launched
  refine ⟨⟨?_, kept.sound.notLate⟩, kept.numbered, ?_, kept.broadcast, kept.accepted, kept.signed, kept.signedOut, ?_⟩
  · intro cause attempt
    have other : Cause.launch ≠ cause := by
      rintro rfl
      exact kept.not_aside attempt (.inl rfl)
    have sameWay : Attempts.underWay { s with tasks := s.tasks ++ [.read .launch uid] } cause = s.underWay cause := by
      simp [Attempts.underWay, Task.cause, other]
    rw [Once, sameWay]
    exact kept.sound.once cause attempt
  · intro task waiting
    rcases List.mem_append.mp waiting with old | new
    · exact kept.owned task old
    · rw [List.mem_singleton.mp new]
      exact .inl rfl
  · intro task waiting
    rcases List.mem_append.mp waiting with old | new
    · exact (kept.fits task old).congr fun _ _ => Iff.rfl
    · rw [List.mem_singleton.mp new]
      trivial

theorem Kept.notified {s t : Attempts} (kept : Kept s) (unheard : s.Unheard .notified) (stepped : s.notified = some t) : Kept t := by
  have heard : ∀ waiting, Kept { s with notifications := waiting, previous := some s.auth } := fun waiting =>
    ⟨⟨kept.sound.once, kept.sound.notLate⟩, kept.numbered, kept.owned, kept.broadcast, kept.accepted, kept.signed, kept.signedOut, kept.fits⟩
  unfold Attempts.notified at stepped
  split at stepped
  · cases stepped
  · rename_i waiting _
    by_cases known : s.previous = some s.auth
    · simp only [if_pos known, Option.some.injEq] at stepped
      exact stepped ▸ heard waiting
    · obtain ⟨launched, timely⟩ := unheard known
      simp only [if_neg known] at stepped
      split at stepped
      · rename_i uid here
        obtain rfl := Option.some.inj stepped
        exact (heard waiting).launchRead (launched (by simp [here])) uid
      · rename_i nobody
        obtain rfl := Option.some.inj stepped
        exact (heard waiting).tell (kept.signedOut nobody) fun logOut caused _ => timely logOut nobody caused

theorem Kept.step {s t : Attempts} {action : Action} (kept : Kept s) (unheard : s.Unheard action)
    (stepped : Attempts.step s action = some t) : Kept t := by
  cases action with
  | logIn =>
    obtain rfl := Option.some.inj stepped
    refine kept.attempt (.inl rfl) (fun _ => rfl) fun succeeded => ?_
    obtain ⟨n, before, same | same⟩ := kept.numbered _ (kept.accepted _ succeeded)
    · cases same
      exact Nat.lt_irrefl _ before
    · cases same
  | createUser name email =>
    obtain rfl := Option.some.inj stepped
    exact kept.attempt (.inr rfl) (fun _ => rfl) trivial
  | logOut throws =>
    obtain rfl := Option.some.inj stepped
    exact kept.logOut throws
  | resolved task result => exact kept.resolved stepped
  | completed task => exact kept.completed stepped
  | notified => exact kept.notified unheard stepped
  | userRead cause id userSnapshot => exact kept.userRead stepped
  | userWritten n user failed => exact kept.userWritten stepped

/-- A second callback is too many for an attempt, whatever has become of it. -/
theorem not_once {s t : Attempts} {cause : Cause} (once : s.Once cause) (more : t.underWay cause = s.underWay cause + 1)
    (sameTold : t.told cause = s.told cause) : ¬ t.Once cause := by
  rintro (⟨one, nothing⟩ | ⟨nobody, _⟩)
  · rcases once with ⟨first, _⟩ | ⟨_, outcome⟩
    · omega
    · rw [sameTold] at nothing
      rw [nothing] at outcome
      cases cause <;> simp [Outcome] at outcome
  · omega

/-- What the listener passes on of an attempt or of a log-out is one thing too many. -/
theorem not_sound {s t : Attempts} {action : Action} (kept : Kept s) (passes : ¬ s.Unheard action)
    (stepped : step s action = some t) : ¬ t.Sound := by
  intro sound
  cases action with
  | notified =>
    simp only [Unheard, Classical.not_imp, not_and_or] at passes
    obtain ⟨changed, passes⟩ := passes
    change s.notified = some t at stepped
    unfold notified at stepped
    split at stepped
    · cases stepped
    · simp only [if_neg changed] at stepped
      split at stepped
      · rename_i uid here
        obtain rfl := Option.some.inj stepped
        rcases passes with passes | passes
        · obtain ⟨signedIn, attempted⟩ := passes
          have attempt := (kept.signed signedIn).resolve_left attempted
          refine absurd (sound.once _ attempt) (not_once (kept.sound.once _ attempt) ?_ ?_)
          · simp [underWay, Task.cause]
          · rfl
        · simp [here] at passes
      · rename_i nobody
        obtain rfl := Option.some.inj stepped
        rcases passes with passes | passes
        · simp [nobody] at passes
        · simp only [not_forall, not_not] at passes
          obtain ⟨logOut, _, caused, delegate, registered, later⟩ := passes
          refine sound.notLate delegate logOut ?_ later
          refine List.mem_append_right _ (List.mem_map.mpr ⟨delegate, registered, ?_⟩)
          rw [caused]
  | _ => exact passes trivial

/-- In every run each attempt has one outcome and nobody hears of an earlier log-out, exactly
    when the state listener never passes on what an attempt or a log-out has already told. -/
theorem sound_iff (persisted : Option Key) (actions : List Action) :
    Runs.Always step Sound (start persisted) actions ↔ Runs.Along step Unheard (start persisted) actions :=
  Runs.always_iff_along (fun _ (kept : Kept _) => kept.sound) (fun _ _ _ kept unheard stepped => kept.step unheard stepped)
    (fun _ _ _ kept passes stepped => not_sound kept passes stepped) (start_kept persisted) actions

/-- Alice logs in, and both the block of `LogIn` and the state listener read her record. -/
def toldTwiceRun : List Action :=
  open Sample in
  let record := User.serialize "Alice" "alice@mail"
  [.notified, .logIn, .resolved (.signIn 0) (some alice), .completed (.signInAnswered 0 (some alice)),
   .userRead (.logIn 0) alice record, .notified, .userRead (.logIn 0) alice record]

theorem logIn_told_twice : ¬ ∀ persisted actions, Runs.Always step Sound (start persisted) actions := by
  intro claim
  have passed : (Runs.exec step (start none) toldTwiceRun).any (fun s =>
      .logIn 0 ∈ s.attempts ∧ s.underWay (.logIn 0) = 0 ∧ s.told (.logIn 0) = [.userLogedIn, .userLogedIn]) = true := by
    decide +kernel
  obtain ⟨s, sound, wrong⟩ := (claim none toldTwiceRun).of_any passed
  obtain ⟨attempt, ended, told⟩ := of_decide_eq_true wrong
  rcases sound.once _ attempt with ⟨one, _⟩ | ⟨_, outcome⟩
  · rw [ended] at one
    cases one
  · simp [told, Outcome] at outcome

end Attempts
end SharedList.AuthManager
