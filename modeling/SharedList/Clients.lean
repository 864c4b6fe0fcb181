import SharedList.Tables
import SharedList.Runs

/-!
The shared database and its clients. A client works on objects it has read
before, however old; it issues writes, which stay in flight until the server
applies or rejects each of them as a whole, in any order. Auto ids are handed
out once. Every client may use every object that some client has loaded, which
includes all that a real client can do with its own.
-/
namespace SharedList
open FrbUtils

structure World where
  db : Database
  /-- Writes issued and not yet answered by the server. -/
  inflight : List Write
  /-- Reads of `lists/<id>/users` that `RemoveList` waits for. -/
  removals : List ListObject
  /-- The `List` objects read from the database so far. -/
  loaded : List ListObject
  /-- The calls of `AddNewList` so far, with the auto ids they got. -/
  calls : List NewList
  /-- The auto ids of the calls of `AddNewItem` so far. -/
  itemKeys : List Key

namespace World

def autoIds (w : World) : List Key :=
  w.calls.flatMap (fun call => [call.newListKey, call.newItemsKey]) ++ w.itemKeys
def issue (w : World) (write : Write) : World := { w with inflight := w.inflight ++ [write] }
/-- Some client has a `SingleListManager` for the item table. -/
def Open (w : World) (itemsId : String) : Prop := ∃ list ∈ w.loaded, list.items_id = itemsId
instance (w : World) (itemsId : String) : Decidable (w.Open itemsId) :=
  inferInstanceAs (Decidable (∃ list ∈ w.loaded, list.items_id = itemsId))

end World

/-- `queryOrdered(byChild: "email").queryEqual(toValue:)` under `users`. -/
def usersWithEmail (db : Database) (email : String) : List Key :=
  (db.sub [Keys.users]).childKeys.filter (fun u => db.at? [Keys.users, u, Keys.email] = some (.string email))

/-- The write issued by the completion block of a write, which runs whether the
    write was applied or rejected; `RemoveInvitation` asks for the user signed in then. -/
def completion (write : Write) (signedIn : Option Key) : List Write :=
  match write, signedIn with
  | .acceptInvitation _ listId, some userId => [.removeInvitation userId listId]
  | _, _ => []

inductive Action where
  | loadList (id : Key)
  | addNewList (call : NewList)
  | removeList (list : ListObject)
  /-- The answer to the read of `RemoveList`. -/
  | removeListUsers (list : ListObject)
  | addNewItem (list : ListObject) (title : String) (authorId newItemKey : Key)
  | removeItem (item : Item)
  | reverseChecked (item : Item) (userId : Key)
  | sendInvitation (destinationUserEmail : String) (destinationUserId listId : Key) (myEmail message : String)
  | acceptInvitation (userId listId : Key)
  | removeInvitation (userId listId : Key)
  | applied (write : Write) (signedIn : Option Key)
  | rejected (write : Write) (signedIn : Option Key)

/-- One step of the system; `none` where the action is not possible or where
    the client that takes it stops at a failing cast. -/
def step (w : World) : Action → Option World
  | .loadList id => do
    let list ← ListObject.read id (w.db.sub (listDbRef id.val))
    return { w with loaded := list :: w.loaded }
  | .addNewList call =>
    if call.newListKey ∉ w.autoIds ∧ call.newItemsKey ∉ w.autoIds ∧ call.newListKey ≠ call.newItemsKey then
      some ({ w with calls := call :: w.calls }.issue (.addNewList call))
    else none
  | .removeList list => if list ∈ w.loaded then some { w with removals := list :: w.removals } else none
  | .removeListUsers list => do
    if list ∈ w.removals then
      let usersDict ← dictionary? (w.db.sub (listUsersDbRef list.id.val))
      return { w with removals := w.removals.erase list }.issue (.removeList list usersDict.childKeys)
    else none
  | .addNewItem list title authorId newItemKey =>
    if list ∈ w.loaded ∧ newItemKey ∉ w.autoIds then
      some ({ w with itemKeys := newItemKey :: w.itemKeys }.issue (.addNewItem list newItemKey title authorId))
    else none
  | .removeItem item => if w.Open item.itemsId then some (w.issue (.removeItem item)) else none
  | .reverseChecked item userId => if w.Open item.itemsId then some (w.issue (.reverseChecked item userId)) else none
  | .sendInvitation destinationUserEmail destinationUserId listId myEmail message =>
    if destinationUserId ∈ usersWithEmail w.db destinationUserEmail then
      some (w.issue (.sendInvitation destinationUserId listId myEmail message))
    else none
  | .acceptInvitation userId listId => some (w.issue (.acceptInvitation userId listId))
  | .removeInvitation userId listId => some (w.issue (.removeInvitation userId listId))
  | .applied write signedIn =>
    if write ∈ w.inflight then
      some { w with db := write.apply w.db, inflight := w.inflight.erase write ++ completion write signedIn }
    else none
  | .rejected write signedIn =>
    if write ∈ w.inflight then
      some { w with inflight := w.inflight.erase write ++ completion write signedIn }
    else none

/-- Before any operation of the program: user records, and no lists. -/
structure Initial (w : World) : Prop where
  users : ∀ l ∈ w.db.leaves, ∃ u field r, l.1 = Keys.users :: u :: field :: r ∧ field ≠ Keys.lists
  inflight : w.inflight = []
  removals : w.removals = []
  loaded : w.loaded = []
  calls : w.calls = []
  itemKeys : w.itemKeys = []

/-- One registered user, before any operation. -/
def World.registered (userId : Key) (email : String) : World :=
  ⟨Tree.empty.put [Keys.users, userId, Keys.email] (string email), [], [], [], [], []⟩

theorem initial_registered (userId : Key) (email : String) : Initial (World.registered userId email) where
  users := by simp [World.registered, Tree.put, Tree.empty]
  inflight := rfl
  removals := rfl
  loaded := rfl
  calls := rfl
  itemKeys := rfl

namespace Sample
/-- Alice, who is signed in with her name, makes a list. -/
def aliceCall : NewList := ⟨alice, some "Alice", "Groceries", groceries, groceryItems⟩
end Sample

/-- The states that the clients can reach. -/
def Reachable (w : World) : Prop := ∃ start actions, Initial start ∧ Runs.exec step start actions = some w

theorem step_applied {w t : World} {write : Write} {signedIn : Option Key}
    (stepped : step w (.applied write signedIn) = some t) : write ∈ w.inflight ∧
      t = { w with db := write.apply w.db, inflight := w.inflight.erase write ++ completion write signedIn } := by
  simp only [step, Option.ite_none_right_eq_some, Option.some.injEq] at stepped
  exact ⟨stepped.1, stepped.2.symm⟩

/-- A check in flight was in flight before the step, or the step issues it. -/
theorem step_reverseChecked {w t : World} {action : Action} (stepped : step w action = some t) {item : Item}
    {userId : Key} (waiting : .reverseChecked item userId ∈ t.inflight) :
    .reverseChecked item userId ∈ w.inflight ∨ action = .reverseChecked item userId := by
  have noCompletion : ∀ write signedIn, .reverseChecked item userId ∉ completion write signedIn := by
    intro write signedIn
    unfold completion
    split <;> simp
  cases action with
  | applied write signedIn | rejected write signedIn =>
    simp only [step, Option.ite_none_right_eq_some, Option.some.injEq] at stepped
    obtain ⟨_, rfl⟩ := stepped
    exact .inl (List.mem_of_mem_erase ((List.mem_append.mp waiting).resolve_right (noCompletion _ _)))
  | loadList id =>
    simp only [step, Option.bind_eq_bind, Option.bind_eq_some_iff, Option.pure_def, Option.some.injEq] at stepped
    obtain ⟨_, _, rfl⟩ := stepped
    exact .inl waiting
  | removeListUsers list =>
    simp only [step, Option.bind_eq_bind, Option.pure_def, Option.ite_none_right_eq_some,
      Option.bind_eq_some_iff, Option.some.injEq] at stepped
    obtain ⟨_, _, _, rfl⟩ := stepped
    exact .inl (by simpa [World.issue] using waiting)
  | removeList list =>
    simp only [step, Option.ite_none_right_eq_some, Option.some.injEq] at stepped
    obtain ⟨_, rfl⟩ := stepped
    exact .inl waiting
  | reverseChecked other by_ =>
    simp only [step, Option.ite_none_right_eq_some, Option.some.injEq] at stepped
    obtain ⟨_, rfl⟩ := stepped
    rcases List.mem_append.mp waiting with old | new
    · exact .inl old
    · obtain ⟨rfl, rfl⟩ : item = other ∧ userId = by_ := by simpa using new
      exact .inr rfl
  | acceptInvitation | removeInvitation => cases stepped; exact .inl (by simpa [World.issue] using waiting)
  | _ =>
    simp only [step, Option.ite_none_right_eq_some, Option.some.injEq] at stepped
    obtain ⟨_, rfl⟩ := stepped
    exact .inl (by simpa [World.issue] using waiting)

/-- A step makes a call of `AddNewList`, applies a write in flight, or leaves the
    database and the calls as they were. -/
theorem step_cases {w t : World} {action : Action} (stepped : step w action = some t) :
    (∃ call, action = .addNewList call ∧ t = World.issue { w with calls := call :: w.calls } (.addNewList call)) ∨
      (∃ write signedIn, action = .applied write signedIn ∧ write ∈ w.inflight) ∨
      (t.db = w.db ∧ t.calls = w.calls) := by
  cases action with
  | addNewList call =>
    simp only [step, Option.ite_none_right_eq_some, Option.some.injEq] at stepped
    exact .inl ⟨call, rfl, stepped.2.symm⟩
  | applied write signedIn => exact .inr (.inl ⟨write, signedIn, rfl, (step_applied stepped).1⟩)
  | loadList id =>
    simp only [step, Option.bind_eq_bind, Option.bind_eq_some_iff, Option.pure_def, Option.some.injEq] at stepped
    obtain ⟨_, _, rfl⟩ := stepped
    exact .inr (.inr ⟨rfl, rfl⟩)
  | removeListUsers list =>
    simp only [step, Option.bind_eq_bind, Option.pure_def, Option.ite_none_right_eq_some,
      Option.bind_eq_some_iff, Option.some.injEq] at stepped
    obtain ⟨_, _, _, rfl⟩ := stepped
    exact .inr (.inr ⟨rfl, rfl⟩)
  | acceptInvitation | removeInvitation => cases stepped; exact .inr (.inr ⟨rfl, rfl⟩)
  | _ =>
    simp only [step, Option.ite_none_right_eq_some, Option.some.injEq] at stepped
    obtain ⟨_, rfl⟩ := stepped
    exact .inr (.inr ⟨rfl, rfl⟩)

theorem step_db {w t : World} {action : Action} (stepped : step w action = some t) :
    t.db = w.db ∨ ∃ write signedIn, action = .applied write signedIn ∧ write ∈ w.inflight := by
  rcases step_cases stepped with ⟨call, rfl, rfl⟩ | applied | same
  · exact .inl rfl
  · exact .inr applied
  · exact .inl same.1

end SharedList
