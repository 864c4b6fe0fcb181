import SharedList.Runs
import SharedList.Users

/-!
`AuthManager` and Firebase Auth. Three kinds of blocks set `currentUser`: those
of the state listener and of `signIn` after a read of the user's record, that of
`createUser` after a write of it. None of them looks who is signed in by then,
and `LogOut` clears `currentUser` whether `signOut` throws or not.
-/
namespace SharedList.AuthManager

/-- The calls of `AuthManagerDelegate`. -/
inductive DelegateCall where
  | userRegistered | userRegistrationFailed | userLogedOut | userLogedIn | userLogInFailed
deriving DecidableEq

/-- A request to the Auth server, with what its completion block captures. -/
inductive Request where
  | signIn
  | createUser (name email : String)
deriving DecidableEq

/-- A completion block with its result: the signed-in user's uid, or an error. -/
structure Completion where
  request : Request
  result : Option Key
deriving DecidableEq

/-- The manager, `Auth.auth()`, and every callback, read and write under way. -/
structure Session where
  currentUser : Option User
  calls : List DelegateCall
  /-- `Auth.auth().currentUser?.uid`. -/
  auth : Option Key
  /-- The user of the persisted session is signed in and nobody has asked for it yet. -/
  restoring : Bool
  /-- Once registered, the state listener keeps the user it was last called with, if it was called. -/
  listener : Option (Option (Option Key))
  /-- Blocks of the state listener; each looks up who is signed in when it runs. -/
  notifications : Nat
  requests : List Request
  completions : List Completion
  /-- The reads of `GetUserById`. -/
  userReads : List Key
  /-- The writes of `CreateUser`. -/
  userWrites : List User
deriving DecidableEq

namespace Session

/-- The app starts, with the persisted session if there is one. -/
def start (persisted : Option Key) : Session := ⟨none, [], persisted, persisted.isSome, none, 0, [], [], [], []⟩

def tell (s : Session) (call : DelegateCall) : Session := { s with calls := s.calls ++ [call] }

def getUserById (s : Session) (id : Key) : Session := { s with userReads := s.userReads ++ [id] }

/-- Firebase Auth signs a user in or out and posts a notification. -/
def setAuth (s : Session) (auth : Option Key) : Session :=
  { s with auth := auth, restoring := false,
           notifications := if s.listener.isSome then s.notifications + 1 else s.notifications }

/-- `addStateDidChangeListener`: its block is called for the present user first. -/
def tryAutoLogIn (s : Session) : Option Session :=
  if s.listener = none then some { s with listener := some none, notifications := 1, restoring := false } else none

def logIn (s : Session) : Session := { s with requests := s.requests ++ [.signIn] }

def createUser (s : Session) (name email : String) : Session := { s with requests := s.requests ++ [.createUser name email] }

def logOut (s : Session) (throws : Bool) : Session :=
  let signedOut := if throws ∨ s.auth = none then s else s.setAuth none
  { signedOut with currentUser := none }.tell .userLogedOut

/-- The server answers a request, and a success signs the user in. -/
def resolved (s : Session) (request : Request) (result : Option Key) : Option Session :=
  if request ∈ s.requests then
    let answered := { s with requests := s.requests.erase request, completions := s.completions ++ [⟨request, result⟩] }
    some (if result = none then answered else answered.setAuth result)
  else none

/-- The completion blocks of `signIn` and `createUser`. -/
def completed (s : Session) (completion : Completion) : Option Session :=
  if completion ∈ s.completions then
    let running := { s with completions := s.completions.erase completion }
    match completion.request, completion.result with
    | .signIn, none => some (running.tell .userLogInFailed)
    | .signIn, some uid => some (running.getUserById uid)
    | .createUser _ _, none => some (running.tell .userRegistrationFailed)
    | .createUser name email, some uId => some { running with userWrites := running.userWrites ++ [⟨uId, name, email⟩] }
  else none

/-- A block of the state listener, which passes on only a change. -/
def notified (s : Session) : Option Session :=
  match s.listener, s.notifications with
  | some previous, waiting + 1 =>
    let heard := { s with notifications := waiting, listener := some (some s.auth) }
    if previous = some s.auth then some heard
    else match s.auth with
      | some uid => some (heard.getUserById uid)
      | none => some (heard.tell .userLogInFailed)
  | _, _ => none

/-- The answer to a read of `GetUserById`; both callers keep the user. -/
def userRead (s : Session) (id : Key) (userSnapshot : Snapshot) : Option Session :=
  if id ∈ s.userReads then do
    let user ← User.read id userSnapshot
    return { s with userReads := s.userReads.erase id, currentUser := some user }.tell .userLogedIn
  else none

/-- The completion block of `setValue` in `CreateUser`. -/
def userWritten (s : Session) (user : User) (failed : Bool) : Option Session :=
  if user ∈ s.userWrites then
    let written := { s with userWrites := s.userWrites.erase user }
    if failed then some (written.tell .userRegistrationFailed)
    else some (({ written with
      currentUser := User.deserialize user.id (User.serialize user.name user.email) }.tell .userRegistered).tell .userLogedIn)
  else none

inductive Action where
  | tryAutoLogIn
  | logIn
  | createUser (name email : String)
  | logOut (throws : Bool)
  | resolved (request : Request) (result : Option Key)
  | completed (completion : Completion)
  | notified
  | userRead (id : Key) (userSnapshot : Snapshot)
  | userWritten (user : User) (failed : Bool)

def step (s : Session) : Action → Option Session
  | .tryAutoLogIn => s.tryAutoLogIn
  | .logIn => some s.logIn
  | .createUser name email => some (s.createUser name email)
  | .logOut throws => some (s.logOut throws)
  | .resolved request result => s.resolved request result
  | .completed completion => s.completed completion
  | .notified => s.notified
  | .userRead id userSnapshot => s.userRead id userSnapshot
  | .userWritten user failed => s.userWritten user failed

/-- No callback, read or write is under way, and the persisted session has been asked for. -/
def Quiet (s : Session) : Prop :=
  s.restoring = false ∧ s.notifications = 0 ∧ s.requests = [] ∧ s.completions = [] ∧ s.userReads = [] ∧ s.userWrites = []
instance (s : Session) : Decidable s.Quiet := inferInstanceAs (Decidable (_ ∧ _ ∧ _ ∧ _ ∧ _ ∧ _))

/-- `currentUser` has the id of the user signed in, and is nil when nobody is. -/
def Agrees (s : Session) : Prop := s.currentUser.map User.id = s.auth
instance (s : Session) : Decidable s.Agrees := inferInstanceAs (Decidable (_ = _))

/-- Something is under way that will look at the user: a listener block that passes a
    change on, a completion block with the uid, a read or a write of the record. -/
def Awaited (s : Session) (u : Key) : Prop :=
  s.restoring = true ∨ (0 < s.notifications ∧ ∃ previous, s.listener = some previous ∧ previous ≠ some (some u)) ∨
    (∃ request, ⟨request, some u⟩ ∈ s.completions) ∨ u ∈ s.userReads ∨ ∃ user ∈ s.userWrites, user.id = u

/-- A record comes for the user signed in, or while that user is awaited; and what takes
    the user signed in away from `currentUser`, or fails to put it there, comes while it is awaited. -/
def InStep (s : Session) : Action → Prop
  | .userRead id _ => s.auth = some id ∨ ∃ u, s.auth = some u ∧ s.Awaited u
  | .userWritten user false => s.auth = some user.id ∨ ∃ u, s.auth = some u ∧ s.Awaited u
  | .userWritten user true => s.auth = some user.id →
      s.currentUser.map User.id = some user.id ∨ { s with userWrites := s.userWrites.erase user }.Awaited user.id
  | .logOut throws => throws = true → ∀ u, s.auth = some u → s.Awaited u
  | _ => True

instance (s : Session) (u : Key) : Decidable (s.Awaited u) :=
  have : Decidable (∃ previous, s.listener = some previous ∧ previous ≠ some (some u)) :=
    decidable_of_iff (s.listener.any (· ≠ some (some u)) = true) (by simp [Option.any_eq_true])
  have : Decidable (∃ request, ⟨request, some u⟩ ∈ s.completions) :=
    decidable_of_iff (∃ completion ∈ s.completions, completion.result = some u)
      ⟨fun ⟨completion, member, own⟩ => ⟨completion.request, own ▸ member⟩, fun ⟨_, member⟩ => ⟨_, member, rfl⟩⟩
  inferInstanceAs (Decidable (_ ∨ _ ∨ _ ∨ _ ∨ ∃ user ∈ s.userWrites, user.id = u))

instance (s : Session) (action : Action) : Decidable (s.InStep action) :=
  have : Decidable (∃ u, s.auth = some u ∧ s.Awaited u) :=
    decidable_of_iff (s.auth.any (s.Awaited ·) = true) (by simp [Option.any_eq_true])
  match action with
  | .userRead .. | .userWritten _ false => inferInstanceAs (Decidable (_ ∨ _))
  | .userWritten _ true => inferInstanceAs (Decidable (_ → _ ∨ _))
  | .logOut throws =>
    decidable_of_iff (throws = true → s.auth.all (s.Awaited ·) = true) (by simp [InStep, Option.all_eq_true])
  | .tryAutoLogIn | .logIn | .createUser .. | .resolved .. | .completed _ | .notified => isTrue trivial

/-- What holds in every state of a run in step. -/
structure Kept (s : Session) : Prop where
  nobody : s.auth = none → s.currentUser = none
  somebody : ∀ u, s.auth = some u → s.currentUser.map User.id = some u ∨ s.Awaited u

theorem start_kept (persisted : Option Key) : Kept (start persisted) where
  nobody := fun _ => rfl
  somebody := by
    intro u signedIn
    refine .inr (.inl ?_)
    show persisted.isSome = true
    rw [show persisted = some u from signedIn]
    rfl

theorem Kept.agrees {s : Session} (kept : Kept s) (quiet : s.Quiet) : s.Agrees := by
  obtain ⟨restored, heard, _, completed, read, written⟩ := quiet
  cases signedIn : s.auth with
  | none => rw [Agrees, signedIn, kept.nobody signedIn, Option.map_none]
  | some u =>
    rw [Agrees, signedIn]
    refine (kept.somebody u signedIn).resolve_right ?_
    rintro (waiting | ⟨waiting, _⟩ | ⟨request, waiting⟩ | waiting | ⟨user, waiting, _⟩)
    · rw [restored] at waiting; cases waiting
    · omega
    · rw [completed] at waiting; cases waiting
    · rw [read] at waiting; cases waiting
    · rw [written] at waiting; cases waiting

/-! ## What leaves a user awaited -/

/-- A user stays awaited where everything under way for that user stays under way. -/
theorem Awaited.mono {s t : Session} {u : Key} (awaited : s.Awaited u)
    (restoring : s.restoring = true → t.restoring = true)
    (notifications : (0 < s.notifications ∧ ∃ previous, s.listener = some previous ∧ previous ≠ some (some u)) →
      0 < t.notifications ∧ ∃ previous, t.listener = some previous ∧ previous ≠ some (some u))
    (completions : ∀ request, ⟨request, some u⟩ ∈ s.completions → ⟨request, some u⟩ ∈ t.completions)
    (userReads : u ∈ s.userReads → u ∈ t.userReads)
    (userWrites : ∀ user, user.id = u → user ∈ s.userWrites → user ∈ t.userWrites) : t.Awaited u := by
  rcases awaited with waiting | waiting | ⟨request, waiting⟩ | waiting | ⟨user, waiting, own⟩
  · exact .inl (restoring waiting)
  · exact .inr (.inl (notifications waiting))
  · exact .inr (.inr (.inl ⟨request, completions request waiting⟩))
  · exact .inr (.inr (.inr (.inl (userReads waiting))))
  · exact .inr (.inr (.inr (.inr ⟨user, userWrites user own waiting, own⟩)))

/-- The block that runs starts what it is awaited for. -/
theorem Awaited.completed {s : Session} {u : Key} (awaited : s.Awaited u) {completion : Completion}
    (started : ∀ uid, completion.result = some uid → uid ≠ u) :
    { s with completions := s.completions.erase completion }.Awaited u := by
  refine awaited.mono id id ?_ id (fun _ _ => id)
  intro request waiting
  refine (List.mem_erase_of_ne ?_).mpr waiting
  rintro rfl
  exact started u rfl rfl

theorem Awaited.read {s : Session} {u uid : Key} (awaited : s.Awaited u) (other : u ≠ uid) :
    { s with userReads := s.userReads.erase uid }.Awaited u := by
  refine awaited.mono id id (fun _ => id) ?_ (fun _ _ => id)
  exact (List.mem_erase_of_ne other).mpr

theorem Awaited.written {s : Session} {u : Key} {user : User} (awaited : s.Awaited u) (other : u ≠ user.id) :
    { s with userWrites := s.userWrites.erase user }.Awaited u := by
  refine awaited.mono id id (fun _ => id) id ?_
  intro own same waiting
  refine (List.mem_erase_of_ne ?_).mpr waiting
  rintro rfl
  exact other same.symm

/-- After a block for a change that it does not pass on, the user is awaited for another reason. -/
theorem Awaited.heard {s : Session} {u : Key} (awaited : s.Awaited u) (known : s.listener = some (some (some u)))
    (waiting : Nat) (listener : Option (Option (Option Key))) :
    { s with notifications := waiting, listener := listener }.Awaited u := by
  refine awaited.mono id ?_ (fun _ => id) id (fun _ _ => id)
  rintro ⟨_, previous, registered, changed⟩
  rw [known] at registered
  exact absurd (Option.some.inj registered).symm changed

/-! ## Each step -/

theorem Kept.resolved {s t : Session} (kept : Kept s) {request : Request} {result : Option Key}
    (stepped : s.resolved request result = some t) : Kept t := by
  obtain ⟨_, stepped⟩ := Option.ite_none_right_eq_some.mp stepped
  obtain rfl := Option.some.inj stepped
  cases result with
  | none =>
    rw [if_pos rfl]
    refine ⟨kept.nobody, fun u signedIn => (kept.somebody u signedIn).imp_right fun awaited => ?_⟩
    exact awaited.mono id id (fun _ => List.mem_append_left _) id (fun _ _ => id)
  | some uid =>
    rw [if_neg (by simp)]
    refine ⟨fun signedOut => (by cases signedOut), fun u signedIn => ?_⟩
    cases signedIn
    exact .inr (.inr (.inr (.inl ⟨request, List.mem_append_right _ List.mem_cons_self⟩)))

theorem Kept.completed {s t : Session} (kept : Kept s) {completion : Completion}
    (stepped : s.completed completion = some t) : Kept t := by
  obtain ⟨request, result⟩ := completion
  obtain ⟨_, stepped⟩ := Option.ite_none_right_eq_some.mp stepped
  cases result with
  | none =>
    have same : ∀ call, Kept ({ s with completions := s.completions.erase ⟨request, none⟩ }.tell call) := fun call =>
      ⟨kept.nobody, fun u signedIn => (kept.somebody u signedIn).imp_right fun awaited => awaited.completed (by simp)⟩
    cases request with
    | signIn => obtain rfl := Option.some.inj stepped; exact same _
    | createUser => obtain rfl := Option.some.inj stepped; exact same _
  | some uid =>
    have other : ∀ u, u ≠ uid → s.Awaited u → { s with completions := s.completions.erase ⟨request, some uid⟩ }.Awaited u := by
      intro u differs awaited
      refine awaited.completed ?_
      rintro _ ⟨⟩
      exact Ne.symm differs
    cases request with
    | signIn =>
      obtain rfl := Option.some.inj stepped
      refine ⟨kept.nobody, fun u signedIn => (kept.somebody u signedIn).imp_right fun awaited => ?_⟩
      by_cases same : u = uid
      · subst same
        exact .inr (.inr (.inr (.inl (List.mem_append_right _ List.mem_cons_self))))
      · exact (other u same awaited).mono id id (fun _ => id) (List.mem_append_left _) (fun _ _ => id)
    | createUser name email =>
      obtain rfl := Option.some.inj stepped
      refine ⟨kept.nobody, fun u signedIn => (kept.somebody u signedIn).imp_right fun awaited => ?_⟩
      by_cases same : u = uid
      · subst same
        exact .inr (.inr (.inr (.inr ⟨_, List.mem_append_right _ List.mem_cons_self, rfl⟩)))
      · exact (other u same awaited).mono id id (fun _ => id) id (fun _ _ => List.mem_append_left _)

theorem Kept.notified {s t : Session} (kept : Kept s) (stepped : s.notified = some t) : Kept t := by
  unfold Session.notified at stepped
  split at stepped
  · rename_i previous waiting registered _
    by_cases same : previous = some s.auth
    · simp only [if_pos same, Option.some.injEq] at stepped
      subst stepped
      refine ⟨kept.nobody, fun u signedIn => (kept.somebody u signedIn).imp_right fun awaited => ?_⟩
      refine awaited.heard ?_ _ _
      rw [registered, same, show s.auth = some u from signedIn]
    · simp only [if_neg same] at stepped
      split at stepped
      · rename_i uid here
        cases stepped
        refine ⟨kept.nobody, fun u signedIn => .inr (.inr (.inr (.inr (.inl ?_))))⟩
        obtain rfl : uid = u := Option.some.inj (here.symm.trans signedIn)
        exact List.mem_append_right _ List.mem_cons_self
      · rename_i nobody
        cases stepped
        exact ⟨kept.nobody, fun u signedIn => by cases nobody.symm.trans signedIn⟩
  · cases stepped

/-- A user who is set in step is the one signed in, or leaves that one awaited. -/
theorem kept_currentUser {s t : Session} {user : User}
    (inStep : s.auth = some user.id ∨ ∃ u, s.auth = some u ∧ s.Awaited u) (auth : t.auth = s.auth)
    (currentUser : t.currentUser = some user) (still : ∀ u, u ≠ user.id → s.Awaited u → t.Awaited u) : Kept t := by
  refine ⟨?_, fun u signedIn => ?_⟩
  · intro signedOut
    rw [auth] at signedOut
    simp [signedOut] at inStep
  · rw [auth] at signedIn
    rw [currentUser]
    by_cases same : u = user.id
    · exact .inl (congrArg some same.symm)
    · rcases inStep with own | ⟨other, here, awaited⟩
      · exact absurd (Option.some.inj (signedIn.symm.trans own)) same
      · obtain rfl : other = u := Option.some.inj (here.symm.trans signedIn)
        exact .inr (still other same awaited)

theorem kept_userRead {s t : Session} {id : Key} {userSnapshot : Snapshot}
    (inStep : s.InStep (.userRead id userSnapshot)) (stepped : s.userRead id userSnapshot = some t) : Kept t := by
  simp only [Session.userRead, Option.ite_none_right_eq_some, Option.bind_eq_bind, Option.bind_eq_some_iff,
    Option.pure_def, Option.some.injEq] at stepped
  obtain ⟨_, user, decoded, rfl⟩ := stepped
  obtain rfl := User.read_id decoded
  exact kept_currentUser inStep rfl rfl fun u other awaited => awaited.read other

theorem Kept.userWritten {s t : Session} (kept : Kept s) {user : User} {failed : Bool}
    (inStep : s.InStep (.userWritten user failed)) (stepped : s.userWritten user failed = some t) : Kept t := by
  obtain ⟨_, stepped⟩ := Option.ite_none_right_eq_some.mp stepped
  cases failed with
  | true =>
    obtain rfl := Option.some.inj stepped
    refine ⟨kept.nobody, fun u signedIn => ?_⟩
    by_cases same : u = user.id
    · subst same
      exact inStep signedIn
    · exact (kept.somebody u signedIn).imp_right fun awaited => awaited.written same
  | false =>
    obtain rfl := Option.some.inj stepped
    exact kept_currentUser inStep rfl rfl fun u other awaited => awaited.written other

theorem Kept.step {s t : Session} {action : Action} (kept : Kept s) (inStep : s.InStep action)
    (stepped : Session.step s action = some t) : Kept t := by
  cases action with
  | tryAutoLogIn =>
    obtain ⟨_, stepped⟩ := Option.ite_none_right_eq_some.mp stepped
    obtain rfl := Option.some.inj stepped
    exact ⟨kept.nobody, fun u _ => .inr (.inr (.inl ⟨Nat.one_pos, none, rfl, by simp⟩))⟩
  | logIn | createUser name email =>
    obtain rfl := Option.some.inj stepped
    exact ⟨kept.nobody, kept.somebody⟩
  | logOut throws =>
    obtain rfl := Option.some.inj stepped
    unfold Session.logOut
    by_cases stays : throws ∨ s.auth = none
    · simp only [if_pos stays]
      refine ⟨fun _ => rfl, fun u signedIn => .inr ?_⟩
      change s.auth = some u at signedIn
      exact inStep (stays.resolve_right (by simp [signedIn])) u signedIn
    · simp only [if_neg stays]
      exact ⟨fun _ => rfl, fun u signedIn => by cases signedIn⟩
  | resolved request result => exact kept.resolved stepped
  | completed completion => exact kept.completed stepped
  | notified => exact kept.notified stepped
  | userRead id userSnapshot => exact kept_userRead inStep stepped
  | userWritten user failed => exact kept.userWritten inStep stepped

/-- In every quiet state of a run in step `currentUser` is the user signed in. -/
theorem current_user_agrees {persisted : Option Key} {actions : List Action}
    (inStep : Runs.Along step InStep (start persisted) actions) :
    Runs.Always step (fun s => s.Quiet → s.Agrees) (start persisted) actions := by
  have always : Runs.Always step Kept (start persisted) actions :=
    Runs.always_of_invariant (fun _ _ _ kept inStep stepped => Kept.step kept inStep stepped) (start_kept persisted) inStep
  exact always.mono (fun _ kept quiet => kept.agrees quiet)

/-- The state listener and the completion of `LogIn` both read Alice's record; she
    logs out before the second answer. -/
def lateRecordRun : List Action :=
  open Sample in
  let record := User.serialize "Alice" "alice@mail"
  [.tryAutoLogIn, .notified, .logIn, .resolved .signIn (some alice), .notified, .completed ⟨.signIn, some alice⟩,
   .userRead alice record, .logOut false, .notified, .userRead alice record]

theorem user_kept_after_logOut :
    ¬ ∀ persisted actions, Runs.Always step (fun s => s.Quiet → s.Agrees) (start persisted) actions := by
  intro claim
  have passed : (Runs.exec step (start none) lateRecordRun).any (fun s => decide (s.Quiet ∧ ¬ s.Agrees)) = true := by
    decide +kernel
  obtain ⟨s, agrees, wrong⟩ := (claim none lateRecordRun).of_any passed
  obtain ⟨quiet, differs⟩ := of_decide_eq_true wrong
  exact differs (agrees quiet)

/-- Alice's persisted session is found again. She logs out and in, and after her Bob registers on the device. -/
def restoredRun : List Action :=
  open Sample in
  let record := User.serialize "Alice" "alice@mail"
  [.tryAutoLogIn, .notified, .userRead alice record, .logOut false, .notified,
   .logIn, .resolved .signIn (some alice), .notified, .completed ⟨.signIn, some alice⟩, .userRead alice record,
   .userRead alice record, .logOut false, .notified,
   .createUser "Bob" "bob@mail", .resolved (.createUser "Bob" "bob@mail") (some bob),
   .completed ⟨.createUser "Bob" "bob@mail", some bob⟩, .userWritten ⟨bob, "Bob", "bob@mail"⟩ false, .notified,
   .userRead bob (User.serialize "Bob" "bob@mail")]

theorem current_user_agrees_restoredRun :
    (Runs.exec step (start (some Sample.alice)) restoredRun).any (fun s => s.Quiet ∧ s.auth = some Sample.bob) = true ∧
      Runs.Always step (fun s => s.Quiet → s.Agrees) (start (some Sample.alice)) restoredRun :=
  ⟨by decide +kernel, current_user_agrees (by decide +kernel)⟩

end Session
end SharedList.AuthManager
