import SharedList.AuthManager

/-!
`AuthManager` and the user records. Firebase creates the account and signs it in,
the block of `CreateUser` then starts the write of the record, and the write may
fail. Both the state listener and `LogIn` read the record of the user they find.
A client's own write that is under way shows in its reads at once, and no more
once the server has rejected it.
-/
namespace SharedList.UserRecords
open FrbUtils AuthManager

/-- What the database holds for a user. -/
def record (db : Database) (id : Key) : Snapshot := db.sub (userDbRef id.val)

structure World where
  session : Session
  /-- The uids that Firebase Auth knows. -/
  accounts : List Key
  db : Database
  /-- The writes of `CreateUser` that the server has not answered. -/
  writing : List User
  /-- Their outcomes, until the completion blocks run; `true` is an error. -/
  outcomes : List (User × Bool)
  /-- The answers to the reads of `GetUserById`, until their blocks run. -/
  answers : List (Key × Snapshot)
  /-- The database as it was at the start. -/
  initial : Database
  /-- The users whose records `CreateUser` has stored. -/
  confirmed : List Key
  /-- A forced cast of `GetUserById` or of `User.Deserialize` has failed. -/
  stopped : Bool

namespace World

def start (persisted : Option Key) (accounts : List Key) (db : Database) : World where
  session := Session.start persisted
  accounts := accounts
  db := db
  writing := []
  outcomes := []
  answers := []
  initial := db
  confirmed := []
  stopped := false

/-- What the client sees of a user's record. -/
def userSnapshot (w : World) (id : Key) : Snapshot :=
  match w.writing.find? (fun user => user.id = id) with
  | some user => User.serialize user.name user.email
  | none => record w.db id

/-- The write that a completion block starts. -/
def startedWrites : Session.Action → List User
  | .completed ⟨.createUser name email, some uId⟩ => [⟨uId, name, email⟩]
  | _ => []

/-- An account is created once, and a user signs in to an account that is there. -/
def Admits (w : World) : Session.Action → Prop
  | .resolved .signIn (some uid) => uid ∈ w.accounts
  | .resolved (.createUser _ _) (some uid) => uid ∉ w.accounts
  | _ => True

def newAccounts : Session.Action → List Key
  | .resolved (.createUser _ _) (some uid) => [uid]
  | _ => []

instance (w : World) : DecidablePred w.Admits
  | .resolved .signIn (some _) => inferInstanceAs (Decidable (_ ∈ _))
  | .resolved (.createUser _ _) (some _) => inferInstanceAs (Decidable (_ ∉ _))
  | .resolved .signIn none | .resolved (.createUser _ _) none | .tryAutoLogIn | .logIn | .createUser _ _ | .logOut _
  | .completed _ | .notified | .userRead _ _ | .userWritten _ _ => inferInstanceAs (Decidable True)

/-- The block of `GetUserById` runs with its answer. -/
def userRead (w : World) (id : Key) (snapshot : Snapshot) : Option World :=
  if (id, snapshot) ∈ w.answers ∧ id ∈ w.session.userReads then
    match w.session.step (.userRead id snapshot) with
    | some session => some { w with session := session, answers := w.answers.erase (id, snapshot) }
    | none => some { w with stopped := true }
  else none

def userWritten (w : World) (user : User) (failed : Bool) : Option World :=
  if (user, failed) ∈ w.outcomes then
    (w.session.step (.userWritten user failed)).map (fun session =>
      { w with session := session, outcomes := w.outcomes.erase (user, failed) })
  else none

/-- Any other action of the manager or of Firebase Auth. -/
def acts (w : World) (action : Session.Action) : Option World :=
  if w.Admits action then
    (w.session.step action).map (fun session =>
      { w with session := session, accounts := w.accounts ++ newAccounts action, writing := w.writing ++ startedWrites action })
  else none

def perform (w : World) : Session.Action → Option World
  | .userRead id snapshot => w.userRead id snapshot
  | .userWritten user failed => w.userWritten user failed
  | action => w.acts action

/-- A read of `GetUserById` gets its answer. -/
def answered (w : World) (id : Key) : Option World :=
  if (w.answers.map Prod.fst).count id < w.session.userReads.count id then
    some { w with answers := w.answers ++ [(id, w.userSnapshot id)] }
  else none

/-- The server takes a write of `CreateUser`, or rejects it. -/
def settled (w : World) (user : User) (rejected : Bool) : Option World :=
  if user ∈ w.writing then
    let settled := { w with writing := w.writing.erase user, outcomes := w.outcomes ++ [(user, rejected)] }
    some (if rejected then settled
      else { settled with db := createUserRecord w.db user.id user.name user.email, confirmed := user.id :: w.confirmed })
  else none

inductive Action where
  | session (action : Session.Action)
  | answered (id : Key)
  | settled (user : User) (rejected : Bool)

def step (w : World) (action : Action) : Option World :=
  if w.stopped then none
  else match action with
    | .session action => w.perform action
    | .answered id => w.answered id
    | .settled user rejected => w.settled user rejected

/-- Every answer to `GetUserById` is a dictionary, as the block casts it to one; it is not absent. -/
def AllRead (w : World) : Prop := ∀ answer ∈ w.answers, (dictionary? answer.2).isSome

/-- The record was there at the start, or a write of it has succeeded or is under way. -/
def Written (w : World) (id : Key) : Prop :=
  (dictionary? (record w.initial id)).isSome ∨ id ∈ w.confirmed ∨ ∃ user ∈ w.writing, user.id = id

/-- A read is answered after the write. -/
def WriteFirst (w : World) : Action → Prop
  | .answered id => w.Written id
  | _ => True

/-! ## The records -/

/-- The records in the database are those of the start and those stored since. -/
def Recorded (w : World) : Prop :=
  ∀ id, (dictionary? (record w.db id)).isSome ↔ (dictionary? (record w.initial id)).isSome ∨ id ∈ w.confirmed

theorem userDbRef_key (u : Key) : userDbRef u.val = [Keys.users, u] := by
  simp [-String.reduceAppend, userDbRef, userPath, child, dbRef]

theorem record_stored (db : Database) (id : Key) (name email : String) :
    record (createUserRecord db id name email) id = User.serialize name email := Tree.sub_put ..

theorem record_other (db : Database) {id other : Key} (differ : id ≠ other) (name email : String) :
    record (createUserRecord db other name email) id = record db id := by
  refine sub_createUserRecord db name email ?_
  rw [userDbRef_key, userDbRef_key]
  simp [Apart, differ, Ne.symm differ]

theorem userSnapshot_dictionary {w : World} (recorded : w.Recorded) (id : Key) :
    (dictionary? (w.userSnapshot id)).isSome ↔ w.Written id := by
  unfold userSnapshot Written
  cases pending : w.writing.find? (fun user => user.id = id) with
  | some user =>
    have own : user.id = id := by simpa using List.find?_some pending
    exact iff_of_true rfl (.inr (.inr ⟨user, List.mem_of_find?_eq_some pending, own⟩))
  | none =>
    have idle : ¬ ∃ user ∈ w.writing, user.id = id := by
      rintro ⟨user, member, own⟩
      exact absurd own (by simpa using List.find?_eq_none.mp pending user member)
    simp only [recorded id, idle, or_false]

theorem Recorded.stored {w : World} (recorded : w.Recorded) (user : User) :
    Recorded { w with db := createUserRecord w.db user.id user.name user.email, confirmed := user.id :: w.confirmed } := by
  intro id
  by_cases own : id = user.id
  · subst own
    refine iff_of_true ?_ (.inr List.mem_cons_self)
    rw [record_stored]
    rfl
  · simp only [record_other w.db own, List.mem_cons, own, false_or]
    exact recorded id

/-! ## Each step -/

/-- What holds in every state of a run whose reads are answered after the writes. -/
structure Kept (w : World) : Prop where
  recorded : w.Recorded
  reads : w.AllRead

theorem start_kept (persisted : Option Key) (accounts : List Key) (db : Database) : Kept (start persisted accounts db) :=
  ⟨fun _ => by simp [start], by simp [start, AllRead]⟩

theorem Kept.acts {w v : World} {action : Session.Action} (kept : Kept w) (acted : w.acts action = some v) : Kept v := by
  obtain ⟨_, ran⟩ := Option.ite_none_right_eq_some.mp acted
  obtain ⟨session, _, rfl⟩ := Option.map_eq_some_iff.mp ran
  exact ⟨kept.recorded, kept.reads⟩

theorem Kept.perform {w v : World} {action : Session.Action} (kept : Kept w) (performed : w.perform action = some v) : Kept v := by
  cases action with
  | userRead id snapshot =>
    obtain ⟨_, ran⟩ := Option.ite_none_right_eq_some.mp performed
    split at ran
    · obtain rfl := Option.some.inj ran
      exact ⟨kept.recorded, fun answer member => kept.reads answer (List.mem_of_mem_erase member)⟩
    · obtain rfl := Option.some.inj ran
      exact ⟨kept.recorded, kept.reads⟩
  | userWritten user failed =>
    obtain ⟨_, ran⟩ := Option.ite_none_right_eq_some.mp performed
    obtain ⟨session, _, rfl⟩ := Option.map_eq_some_iff.mp ran
    exact ⟨kept.recorded, kept.reads⟩
  | _ => exact kept.acts performed

theorem Kept.step {w v : World} {action : Action} (kept : Kept w) (writeFirst : w.WriteFirst action)
    (stepped : World.step w action = some v) : Kept v := by
  obtain ⟨_, stepped⟩ := Option.ite_none_left_eq_some.mp stepped
  cases action with
  | session action => exact kept.perform stepped
  | answered id =>
    obtain ⟨_, answered⟩ := Option.ite_none_right_eq_some.mp stepped
    obtain rfl := Option.some.inj answered
    refine ⟨kept.recorded, fun answer member => ?_⟩
    rcases List.mem_append.mp member with old | new
    · exact kept.reads answer old
    · rw [List.mem_singleton.mp new]
      exact (userSnapshot_dictionary kept.recorded id).mpr writeFirst
  | settled user rejected =>
    obtain ⟨_, settled⟩ := Option.ite_none_right_eq_some.mp stepped
    obtain rfl := Option.some.inj settled
    cases rejected with
    | true => exact ⟨kept.recorded, kept.reads⟩
    | false => exact ⟨kept.recorded.stored user, kept.reads⟩

theorem not_allRead {w v : World} {action : Action} (kept : Kept w) (early : ¬ w.WriteFirst action)
    (stepped : step w action = some v) : ¬ v.AllRead := by
  intro reads
  cases action with
  | answered id =>
    obtain ⟨_, stepped⟩ := Option.ite_none_left_eq_some.mp stepped
    obtain ⟨_, answered⟩ := Option.ite_none_right_eq_some.mp stepped
    obtain rfl := Option.some.inj answered
    have decoded := reads (id, w.userSnapshot id) (List.mem_append_right _ List.mem_cons_self)
    exact early ((userSnapshot_dictionary kept.recorded id).mp decoded)
  | _ => exact early trivial

/-- In every run every read of `GetUserById` finds a record exactly when each is
    answered after the record's write has been started and not rejected. -/
theorem all_read_iff (persisted : Option Key) (accounts : List Key) (db : Database) (actions : List Action) :
    Runs.Always step AllRead (start persisted accounts db) actions ↔ Runs.Along step WriteFirst (start persisted accounts db) actions :=
  Runs.always_iff_along (fun _ (kept : Kept _) => kept.reads) (fun _ _ _ kept writeFirst stepped => kept.step writeFirst stepped)
    (fun _ _ _ kept early stepped => not_allRead kept early stepped) (start_kept persisted accounts db) actions

/-- Alice's account is created and her record rejected; then she logs in. -/
def rejectedRecordRun : List Action :=
  open Sample in
  let creation := Request.createUser "Alice" "alice@mail"
  let record : User := ⟨alice, "Alice", "alice@mail"⟩
  [.session (.createUser "Alice" "alice@mail"), .session (.resolved creation (some alice)),
   .session (.completed ⟨creation, some alice⟩), .settled record true, .session (.userWritten record true),
   .session .logIn, .session (.resolved .signIn (some alice)), .session (.completed ⟨.signIn, some alice⟩), .answered alice]

theorem rejected_record_read : ¬ ∀ persisted accounts db actions,
    Runs.Always step AllRead (start persisted accounts db) actions := by
  intro claim
  have passed : (Runs.exec step (start none [] Tree.empty) rejectedRecordRun).any
      (fun w => w.answers = [(Sample.alice, Tree.empty)]) = true := by
    decide +kernel
  obtain ⟨w, reads, absent⟩ := (claim none [] Tree.empty rejectedRecordRun).of_any passed
  have decoded := reads (Sample.alice, Tree.empty) (by simp [of_decide_eq_true absent])
  exact absurd decoded (by decide +kernel)

end World
end SharedList.UserRecords
