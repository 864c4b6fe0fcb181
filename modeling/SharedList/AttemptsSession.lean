import SharedList.Attempts
import Mathlib.Data.List.Perm.Basic

/-!
`Attempts` is `Session` with marks. Each step of the one is a step of the other,
the callbacks under way being the same up to their order.
-/
namespace SharedList.AuthManager

namespace Task

def request? : Task → Option Request
  | .signIn _ => some .signIn
  | .createUser _ name email => some (.createUser name email)
  | _ => none

def completion? : Task → Option Completion
  | .signInAnswered _ result => some ⟨.signIn, result⟩
  | .createUserAnswered _ name email result => some ⟨.createUser name email, result⟩
  | _ => none

def userRead? : Task → Option Key
  | .read _ id => some id
  | _ => none

def userWrite? : Task → Option User
  | .write _ user => some user
  | _ => none

end Task

/-- The session is the marked one without its marks. -/
structure Follows (s : Session) (a : Attempts) : Prop where
  currentUser : s.currentUser = a.currentUser
  calls : s.calls = a.broadcasts.map Prod.snd
  auth : s.auth = a.auth
  listener : s.listener = some a.previous
  notifications : s.notifications = a.notifications
  requests : s.requests.Perm (a.tasks.filterMap Task.request?)
  completions : s.completions.Perm (a.tasks.filterMap Task.completion?)
  userReads : s.userReads.Perm (a.tasks.filterMap Task.userRead?)
  userWrites : s.userWrites.Perm (a.tasks.filterMap Task.userWrite?)

namespace Session

/-- A callback begins or ends. -/
def begin (s : Session) : Task → Session
  | .signIn _ => { s with requests := s.requests ++ [.signIn] }
  | .createUser _ name email => { s with requests := s.requests ++ [.createUser name email] }
  | .signInAnswered _ result => { s with completions := s.completions ++ [⟨.signIn, result⟩] }
  | .createUserAnswered _ name email result => { s with completions := s.completions ++ [⟨.createUser name email, result⟩] }
  | .read _ id => { s with userReads := s.userReads ++ [id] }
  | .write _ user => { s with userWrites := s.userWrites ++ [user] }

def drop (s : Session) : Task → Session
  | .signIn _ => { s with requests := s.requests.erase .signIn }
  | .createUser _ name email => { s with requests := s.requests.erase (.createUser name email) }
  | .signInAnswered _ result => { s with completions := s.completions.erase ⟨.signIn, result⟩ }
  | .createUserAnswered _ name email result => { s with completions := s.completions.erase ⟨.createUser name email, result⟩ }
  | .read _ id => { s with userReads := s.userReads.erase id }
  | .write _ user => { s with userWrites := s.userWrites.erase user }

end Session

section
variable {β : Type} {f : Task → Option β} {waiting : List β} {tasks : List Task} {task : Task}

theorem perm_append (same : waiting.Perm (tasks.filterMap f)) (next : Task) :
    (waiting ++ (f next).toList).Perm ((tasks ++ [next]).filterMap f) := by
  rw [List.filterMap_append]
  refine same.append ?_
  cases marked : f next <;> simp [marked]

theorem perm_erase [DecidableEq β] (same : waiting.Perm (tasks.filterMap f)) (member : task ∈ tasks) {x : β} (marked : f task = some x) :
    (waiting.erase x).Perm ((tasks.erase task).filterMap f) := by
  have order := same.trans ((List.perm_cons_erase member).filterMap f)
  rw [List.filterMap_cons_some marked] at order
  simpa using order.erase x

theorem perm_keep (same : waiting.Perm (tasks.filterMap f)) (member : task ∈ tasks) (other : f task = none) :
    waiting.Perm ((tasks.erase task).filterMap f) := by
  have order := same.trans ((List.perm_cons_erase member).filterMap f)
  rwa [List.filterMap_cons_none other] at order

end

namespace Follows
variable {s : Session} {a : Attempts}

theorem tell (follows : Follows s a) (cause : Cause) (call : DelegateCall) : Follows (s.tell call) (a.tell cause call) :=
  ⟨follows.currentUser, by simp [Session.tell, follows.calls], follows.auth, follows.listener, follows.notifications,
    follows.requests, follows.completions, follows.userReads, follows.userWrites⟩

theorem setAuth (follows : Follows s a) (auth : Option Key) (cause : Cause) : Follows (s.setAuth auth) (a.setAuth auth cause) := by
  refine ⟨follows.currentUser, follows.calls, rfl, follows.listener, ?_, follows.requests, follows.completions,
    follows.userReads, follows.userWrites⟩
  simp [Session.setAuth, Attempts.setAuth, follows.listener, follows.notifications]

theorem setCurrentUser (follows : Follows s a) (user : Option User) :
    Follows { s with currentUser := user } { a with currentUser := user } :=
  ⟨rfl, follows.calls, follows.auth, follows.listener, follows.notifications, follows.requests, follows.completions,
    follows.userReads, follows.userWrites⟩

/-- Numbers and outcomes are marks. -/
theorem mark (follows : Follows s a) (made : Nat) (attempts delegates : List Cause) (succeeded : List Nat) :
    Follows s { a with made := made, attempts := attempts, delegates := delegates, succeeded := succeeded } :=
  ⟨follows.currentUser, follows.calls, follows.auth, follows.listener, follows.notifications, follows.requests,
    follows.completions, follows.userReads, follows.userWrites⟩

theorem begin (follows : Follows s a) (task : Task) : Follows (s.begin task) { a with tasks := a.tasks ++ [task] } := by
  have requests := perm_append follows.requests task
  have completions := perm_append follows.completions task
  have userReads := perm_append follows.userReads task
  have userWrites := perm_append follows.userWrites task
  cases task <;> simp only [Task.request?, Task.completion?, Task.userRead?, Task.userWrite?, Option.toList_some,
    Option.toList_none, List.append_nil] at requests completions userReads userWrites <;>
    exact ⟨follows.currentUser, follows.calls, follows.auth, follows.listener, follows.notifications, requests, completions,
      userReads, userWrites⟩

theorem drop (follows : Follows s a) {task : Task} (member : task ∈ a.tasks) : Follows (s.drop task) (a.finished task) := by
  obtain ⟨currentUser, calls, auth, listener, notifications, requests, completions, userReads, userWrites⟩ := follows
  cases task with
  | signIn | createUser =>
    exact ⟨currentUser, calls, auth, listener, notifications, perm_erase requests member rfl, perm_keep completions member rfl,
      perm_keep userReads member rfl, perm_keep userWrites member rfl⟩
  | signInAnswered | createUserAnswered =>
    exact ⟨currentUser, calls, auth, listener, notifications, perm_keep requests member rfl, perm_erase completions member rfl,
      perm_keep userReads member rfl, perm_keep userWrites member rfl⟩
  | read =>
    exact ⟨currentUser, calls, auth, listener, notifications, perm_keep requests member rfl, perm_keep completions member rfl,
      perm_erase userReads member rfl, perm_keep userWrites member rfl⟩
  | write =>
    exact ⟨currentUser, calls, auth, listener, notifications, perm_keep requests member rfl, perm_keep completions member rfl,
      perm_keep userReads member rfl, perm_erase userWrites member rfl⟩

theorem signedIn (follows : Follows s a) (cause : Cause) (result : Option Key) :
    Follows (if result = none then s else s.setAuth result) (a.signedIn cause result) := by
  cases result with
  | none => exact follows
  | some uid => exact follows.setAuth (some uid) cause

theorem attempt (follows : Follows s a) (cause : Nat → Cause) (task : Nat → Task) :
    Follows (s.begin (task a.made)) (a.attempt cause task) :=
  (follows.begin (task a.made)).mark (a.made + 1) (a.attempts ++ [cause a.made]) (a.delegates ++ [cause a.made]) a.succeeded

theorem logOut (follows : Follows s a) (throws : Bool) : Follows (s.logOut throws) (a.logOut throws) := by
  have numbered {t : Session} {b : Attempts} (follows : Follows t b) :
      Follows ({ t with currentUser := none }.tell .userLogedOut)
        ({ b with currentUser := none, made := a.made + 1 }.tell (.logOut a.made) .userLogedOut) :=
    ((follows.setCurrentUser none).mark (a.made + 1) b.attempts b.delegates b.succeeded).tell _ _
  unfold Session.logOut Attempts.logOut
  rw [follows.auth]
  by_cases stays : throws ∨ a.auth = none
  · simp only [if_pos stays]
    exact numbered follows
  · simp only [if_neg stays]
    exact numbered (follows.setAuth none (.logOut a.made))

theorem resolved (follows : Follows s a) {task : Task} (member : task ∈ a.tasks) {request : Request}
    (marked : task.request? = some request) (result : Option Key) :
    ∃ t b, s.resolved request result = some t ∧ a.resolved task result = some b ∧ Follows t b := by
  have waiting : request ∈ s.requests :=
    follows.requests.mem_iff.mpr (List.mem_filterMap.mpr ⟨task, member, marked⟩)
  cases task with
  | signIn n =>
    cases marked
    have next := (follows.drop member).begin (.signInAnswered n result)
    have accepted := next.mark a.made a.attempts a.delegates (if result.isSome then a.succeeded ++ [n] else a.succeeded)
    exact ⟨_, _, if_pos waiting, if_pos member, accepted.signedIn (.logIn n) result⟩
  | createUser n name email =>
    cases marked
    have next := (follows.drop member).begin (.createUserAnswered n name email result)
    exact ⟨_, _, if_pos waiting, if_pos member, next.signedIn (.createUser n) result⟩
  | _ => cases marked

theorem completed (follows : Follows s a) {task : Task} (member : task ∈ a.tasks) {completion : Completion}
    (marked : task.completion? = some completion) :
    ∃ t b, s.completed completion = some t ∧ a.completed task = some b ∧ Follows t b := by
  have waiting : completion ∈ s.completions :=
    follows.completions.mem_iff.mpr (List.mem_filterMap.mpr ⟨task, member, marked⟩)
  have ended := follows.drop member
  cases task with
  | signInAnswered n result =>
    cases marked
    cases result with
    | none => exact ⟨_, _, if_pos waiting, if_pos member, ended.tell _ _⟩
    | some uid => exact ⟨_, _, if_pos waiting, if_pos member, ended.begin (.read (.logIn n) uid)⟩
  | createUserAnswered n name email result =>
    cases marked
    cases result with
    | none => exact ⟨_, _, if_pos waiting, if_pos member, ended.tell _ _⟩
    | some uId => exact ⟨_, _, if_pos waiting, if_pos member, ended.begin (.write n ⟨uId, name, email⟩)⟩
  | _ => cases marked

theorem userRead (follows : Follows s a) {cause : Cause} {id : Key} (member : .read cause id ∈ a.tasks) {userSnapshot : Snapshot}
    {user : User} (decoded : User.read id userSnapshot = some user) :
    ∃ t b, s.userRead id userSnapshot = some t ∧ a.userRead cause id userSnapshot = some b ∧ Follows t b := by
  have waiting : id ∈ s.userReads :=
    follows.userReads.mem_iff.mpr (List.mem_filterMap.mpr ⟨_, member, rfl⟩)
  refine ⟨_, _, ?_, ?_, ((follows.drop member).setCurrentUser (some user)).tell cause .userLogedIn⟩
  · rw [Session.userRead, if_pos waiting, decoded]
    rfl
  · rw [Attempts.userRead, if_pos member, decoded]
    rfl

theorem userWritten (follows : Follows s a) {n : Nat} {user : User} (member : .write n user ∈ a.tasks) (failed : Bool) :
    ∃ t b, s.userWritten user failed = some t ∧ a.userWritten n user failed = some b ∧ Follows t b := by
  have waiting : user ∈ s.userWrites :=
    follows.userWrites.mem_iff.mpr (List.mem_filterMap.mpr ⟨_, member, rfl⟩)
  have ended := follows.drop member
  cases failed with
  | true => exact ⟨_, _, if_pos waiting, if_pos member, ended.tell _ _⟩
  | false => exact ⟨_, _, if_pos waiting, if_pos member, ((ended.setCurrentUser _).tell _ _).tell _ _⟩

theorem notified (follows : Follows s a) : (s.notified = none ∧ a.notified = none) ∨
    ∃ t b, s.notified = some t ∧ a.notified = some b ∧ Follows t b := by
  have heard : ∀ waiting, Follows { s with auth := a.auth, notifications := waiting, listener := some (some a.auth) }
      { a with notifications := waiting, previous := some a.auth } := fun _ =>
    ⟨follows.currentUser, follows.calls, rfl, rfl, rfl, follows.requests, follows.completions, follows.userReads,
      follows.userWrites⟩
  unfold Session.notified Attempts.notified
  rw [follows.listener, follows.notifications]
  cases a.notifications with
  | zero => exact .inl ⟨rfl, rfl⟩
  | succ waiting =>
    right
    simp only
    rw [follows.auth]
    by_cases known : a.previous = some a.auth
    · simp only [if_pos known]
      exact ⟨_, _, rfl, rfl, heard waiting⟩
    · simp only [if_neg known]
      cases signedIn : a.auth with
      | none => exact ⟨_, _, rfl, rfl, (signedIn ▸ heard waiting).tell a.signedBy .userLogInFailed⟩
      | some uid => exact ⟨_, _, rfl, rfl, (signedIn ▸ heard waiting).begin (.read a.signedBy uid)⟩

end Follows

/-- A marked step is a step of the session. -/
theorem follows_step {s : Session} {a b : Attempts} {marked : Attempts.Action} (follows : Follows s a)
    (stepped : a.step marked = some b) : ∃ action t, s.step action = some t ∧ Follows t b := by
  cases marked with
  | logIn =>
    cases stepped
    exact ⟨.logIn, _, rfl, follows.attempt .logIn .signIn⟩
  | createUser name email =>
    cases stepped
    exact ⟨.createUser name email, _, rfl, follows.attempt .createUser (fun n => .createUser n name email)⟩
  | logOut throws =>
    cases stepped
    exact ⟨.logOut throws, _, rfl, follows.logOut throws⟩
  | resolved task result =>
    have taken : a.resolved task result = some b := stepped
    obtain ⟨member, _⟩ := Option.ite_none_right_eq_some.mp taken
    cases request : task.request? with
    | none => cases task <;> simp [Attempts.resolved, Task.request?] at taken request
    | some request' =>
      obtain ⟨t, b', ran, same, next⟩ := follows.resolved member request result
      cases taken.symm.trans same
      exact ⟨.resolved request' result, t, ran, next⟩
  | completed task =>
    have taken : a.completed task = some b := stepped
    obtain ⟨member, _⟩ := Option.ite_none_right_eq_some.mp taken
    cases completion : task.completion? with
    | none => cases task <;> simp [Attempts.completed, Task.completion?] at taken completion
    | some completion' =>
      obtain ⟨t, b', ran, same, next⟩ := follows.completed member completion
      cases taken.symm.trans same
      exact ⟨.completed completion', t, ran, next⟩
  | notified =>
    have taken : a.notified = some b := stepped
    rcases follows.notified with ⟨_, nothing⟩ | ⟨t, b', ran, same, next⟩
    · cases nothing.symm.trans taken
    · cases taken.symm.trans same
      exact ⟨.notified, t, ran, next⟩
  | userRead cause id userSnapshot =>
    have taken : a.userRead cause id userSnapshot = some b := stepped
    obtain ⟨member, rest⟩ := Option.ite_none_right_eq_some.mp taken
    obtain ⟨user, decoded, _⟩ := Option.bind_eq_some_iff.mp rest
    obtain ⟨t, b', ran, same, next⟩ := follows.userRead member decoded
    cases taken.symm.trans same
    exact ⟨.userRead id userSnapshot, t, ran, next⟩
  | userWritten n user failed =>
    have taken : a.userWritten n user failed = some b := stepped
    obtain ⟨member, _⟩ := Option.ite_none_right_eq_some.mp taken
    obtain ⟨t, b', ran, same, next⟩ := follows.userWritten member failed
    cases taken.symm.trans same
    exact ⟨.userWritten user failed, t, ran, next⟩

/-- Every step of the session is a marked one. -/
theorem step_followed {s t : Session} {a : Attempts} {action : Session.Action} (follows : Follows s a)
    (stepped : s.step action = some t) : ∃ marked b, a.step marked = some b ∧ Follows t b := by
  cases action with
  | tryAutoLogIn =>
    have taken : s.tryAutoLogIn = some t := stepped
    simp [Session.tryAutoLogIn, follows.listener] at taken
  | logIn =>
    cases stepped
    exact ⟨.logIn, _, rfl, follows.attempt .logIn .signIn⟩
  | createUser name email =>
    cases stepped
    exact ⟨.createUser name email, _, rfl, follows.attempt .createUser (fun n => .createUser n name email)⟩
  | logOut throws =>
    cases stepped
    exact ⟨.logOut throws, _, rfl, follows.logOut throws⟩
  | resolved request result =>
    have taken : s.resolved request result = some t := stepped
    obtain ⟨waiting, _⟩ := Option.ite_none_right_eq_some.mp taken
    obtain ⟨task, member, own⟩ := List.mem_filterMap.mp (follows.requests.mem_iff.mp waiting)
    obtain ⟨t', b, same, ran, next⟩ := follows.resolved member own result
    cases taken.symm.trans same
    exact ⟨.resolved task result, b, ran, next⟩
  | completed completion =>
    have taken : s.completed completion = some t := stepped
    obtain ⟨waiting, _⟩ := Option.ite_none_right_eq_some.mp taken
    obtain ⟨task, member, own⟩ := List.mem_filterMap.mp (follows.completions.mem_iff.mp waiting)
    obtain ⟨t', b, same, ran, next⟩ := follows.completed member own
    cases taken.symm.trans same
    exact ⟨.completed task, b, ran, next⟩
  | notified =>
    have taken : s.notified = some t := stepped
    rcases follows.notified with ⟨nothing, _⟩ | ⟨t', b, same, ran, next⟩
    · cases nothing.symm.trans taken
    · cases taken.symm.trans same
      exact ⟨.notified, b, ran, next⟩
  | userRead id userSnapshot =>
    have taken : s.userRead id userSnapshot = some t := stepped
    obtain ⟨waiting, rest⟩ := Option.ite_none_right_eq_some.mp taken
    obtain ⟨user, decoded, _⟩ := Option.bind_eq_some_iff.mp rest
    obtain ⟨task, member, own⟩ := List.mem_filterMap.mp (follows.userReads.mem_iff.mp waiting)
    cases task with
    | read cause other =>
      cases own
      obtain ⟨t', b, same, ran, next⟩ := follows.userRead member decoded
      cases taken.symm.trans same
      exact ⟨.userRead cause id userSnapshot, b, ran, next⟩
    | _ => cases own
  | userWritten user failed =>
    have taken : s.userWritten user failed = some t := stepped
    obtain ⟨waiting, _⟩ := Option.ite_none_right_eq_some.mp taken
    obtain ⟨task, member, own⟩ := List.mem_filterMap.mp (follows.userWrites.mem_iff.mp waiting)
    cases task with
    | write n other =>
      cases own
      obtain ⟨t', b, same, ran, next⟩ := follows.userWritten member failed
      cases taken.symm.trans same
      exact ⟨.userWritten n user failed, b, ran, next⟩
    | _ => cases own

theorem start_follows {persisted : Option Key} {s : Session} (registered : (Session.start persisted).tryAutoLogIn = some s) :
    Follows s (Attempts.start persisted) := by
  obtain rfl := Option.some.inj registered
  exact ⟨rfl, rfl, rfl, rfl, rfl, .nil, .nil, .nil, .nil⟩

/-- The sessions reached after `TryAutoLogIn` are the marked ones without their marks. -/
theorem sessions_are_attempts (persisted : Option Key) (s : Session)
    (registered : (Session.start persisted).tryAutoLogIn = some s) :
    (∀ actions t, Runs.exec Session.step s actions = some t →
      ∃ marked b, Runs.exec Attempts.step (Attempts.start persisted) marked = some b ∧ Follows t b) ∧
    ∀ marked b, Runs.exec Attempts.step (Attempts.start persisted) marked = some b →
      ∃ actions t, Runs.exec Session.step s actions = some t ∧ Follows t b := by
  constructor
  · intro actions t run
    exact Runs.exec_matched Follows (fun _ _ _ _ follows stepped => step_followed follows stepped) (start_follows registered) run
  · intro marked b run
    exact Runs.exec_matched (fun a s => Follows s a) (fun _ _ _ _ follows stepped => follows_step follows stepped)
      (start_follows registered) run

end SharedList.AuthManager
