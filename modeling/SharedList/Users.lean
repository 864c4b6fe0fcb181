import SharedList.Writes

/-!
The user records: what `CreateUser` stores under `users/<uid>` and what
`GetUserById` reads there.
-/
namespace SharedList
open FrbUtils

/-- `class User`. -/
structure User where
  id : Key
  name : String
  email : String
deriving DecidableEq

namespace User

def serialize (name email : String) : Snapshot :=
  (Tree.empty.put [Keys.name] (string name)).put [Keys.email] (string email)

def deserialize (id : Key) (data : Snapshot) : Option User := do
  let name ← stringAt data Keys.name
  let email ← stringAt data Keys.email
  return ⟨id, name, email⟩

/-- The block of `GetUserById`, with the snapshot it gets. -/
def read (id : Key) (userSnapshot : Snapshot) : Option User := (dictionary? userSnapshot).bind (deserialize id)

theorem read_id {id : Key} {userSnapshot : Snapshot} {user : User} (decoded : read id userSnapshot = some user) :
    user.id = id := by
  simp only [read, deserialize, Option.bind_eq_bind, Option.pure_def, Option.bind_eq_some_iff, Option.some.injEq] at decoded
  obtain ⟨_, _, _, _, _, _, rfl⟩ := decoded
  rfl

/-- What `CreateUser` keeps without a read. -/
theorem deserialize_serialize (id : Key) (name email : String) :
    deserialize id (serialize name email) = some ⟨id, name, email⟩ := rfl

end User

/-- `DatabaseReference.setValue`. -/
def setValue (db : Database) (ref : Reference) (value : Snapshot) : Database := db.update [(ref, value)]

/-- The write of `CreateUser`. -/
def createUserRecord (db : Database) (uId : Key) (name email : String) : Database :=
  setValue db (userDbRef uId.val) (User.serialize name email)

/-- `GetUserById`, answered from the database. -/
def getUserById (id : Key) (db : Database) : Option User := User.read id (db.sub (userDbRef id.val))

/-- The record of a user that `CreateUser` has stored is read back as the user. -/
theorem getUserById_createUserRecord (db : Database) (id : Key) (name email : String) :
    getUserById id (createUserRecord db id name email) = some ⟨id, name, email⟩ := by
  have stored : (createUserRecord db id name email).sub (userDbRef id.val) = User.serialize name email := Tree.sub_put ..
  rw [getUserById, stored]
  rfl

/-- The other records stay. -/
theorem sub_createUserRecord (db : Database) {id : Key} (name email : String) {p : List Key}
    (other : Apart p (userDbRef id.val)) : (createUserRecord db id name email).sub p = db.sub p := by
  refine Tree.sub_update db ?_
  rintro c member
  rw [List.mem_singleton.mp member]
  exact other

end SharedList
