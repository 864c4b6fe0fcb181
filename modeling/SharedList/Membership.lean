import SharedList.ListRecords

/-!
Membership is stored twice: the key `users/u/lists/L` on the user's side and
the name `lists/L/users/u` on the list's side. The list's side always implies
the user's. The converse, which every start-up of the app relies on, holds as
long as no acceptance makes a key for a user whom the list does not name.
-/
namespace SharedList
open FrbUtils

/-- Every key of a user leads to a record that decodes and that names the user. -/
def KeysBacked (db : Database) : Prop :=
  ∀ u L : Key, db.Present (child (userListsDbRef u.val) L.val) →
    (ListObject.read L (db.sub (listDbRef L.val))).isSome ∧
    ∃ name, stringAt (db.sub (listUsersDbRef L.val)) u = some name

/-- The write makes no key but for a user whom the record names: a new list is
    stored with its owner's name, and an invitation is accepted by a member. -/
def BacksKeys (w : World) : Action → Prop
  | .applied (.addNewList call) _ => call.name.isSome
  | .applied (.acceptInvitation userId listId) _ => w.db.Present (child (listUsersDbRef listId.val) userId.val)
  | _ => True

/-- Every record is complete and names its owner among its users, every user it
    names holds the list's key, and no two records share their item table. -/
structure ListsComplete (db : Database) : Prop where
  complete : ∀ L : Key, db.Present (listDbRef L.val) →
    ∃ list, ListObject.read L (db.sub (listDbRef L.val)) = some list ∧
      ∃ owner : Key, owner.val = list.owner_id ∧ ∃ name, stringAt (db.sub (listUsersDbRef L.val)) owner = some name
  held : ∀ L u : Key, db.Present (child (listUsersDbRef L.val) u.val) →
    db.at? (child (userListsDbRef u.val) L.val) = some (.bool true)
  tables : ∀ L M : Key, ∀ list other, ListObject.read L (db.sub (listDbRef L.val)) = some list →
    ListObject.read M (db.sub (listDbRef M.val)) = some other → list.items_id = other.items_id → L = M

/-- `AddNewList` runs with `authManager.currentUser` set. -/
def Named : World → Action → Prop
  | _, .addNewList call => call.name.isSome
  | _, _ => True

/-- The call for a list whose record is stored with `u` as its one member. -/
def MemberCall (w : World) (u L : Key) (call : NewList) : Prop :=
  call ∈ w.calls ∧ call.newListKey = L ∧ call.userId = u ∧ call.name.isSome ∧ w.db.Present [Keys.lists, L]

namespace Sound

theorem named_iff {w : World} (sound : Sound w) {u L : Key} :
    (∃ name, stringAt (w.db.sub (listUsersDbRef L.val)) u = some name) ↔ ∃ call, MemberCall w u L call := by
  simp only [stringAt_eq_some, Tree.mem_sub, listUsersDbRef_key]
  constructor
  · rintro ⟨name, leaf⟩
    obtain ⟨call, called, rfl, _⟩ := sound.stored _ _ _ leaf
    obtain ⟨present, rfl, name, named, _⟩ := (sound.member_iff called).mp leaf
    exact ⟨call, called, rfl, rfl, by simp [named], present⟩
  · rintro ⟨call, called, rfl, rfl, named, present⟩
    obtain ⟨name, named⟩ := Option.isSome_iff_exists.mp named
    exact ⟨name, (sound.member_iff called).mpr ⟨present, rfl, name, named, rfl⟩⟩

theorem present_member {w : World} (sound : Sound w) {u L : Key} :
    w.db.Present (child (listUsersDbRef L.val) u.val) ↔ ∃ call, MemberCall w u L call := by
  rw [← sound.named_iff, child_key, listUsersDbRef_key]
  simp only [stringAt_eq_some, Tree.mem_sub]
  constructor
  · intro present
    obtain ⟨r, v, leaf⟩ := Tree.present_iff.mp present
    obtain ⟨call, called, rfl, inRecord⟩ := sound.stored _ _ _ leaf
    simp [serializedList_leaves] at inRecord
    obtain ⟨name, _, ⟨rfl, rfl⟩, rfl⟩ := inRecord
    exact ⟨name, leaf⟩
  · rintro ⟨name, leaf⟩
    exact Tree.present_iff.mpr ⟨[], _, leaf⟩

/-- In a sound state a key is backed exactly when it is the member's. -/
theorem keysBacked_iff {w : World} (sound : Sound w) :
    KeysBacked w.db ↔ ∀ u L : Key, w.db.Present (child (userListsDbRef u.val) L.val) → ∃ call, MemberCall w u L call := by
  refine forall₂_congr fun u L => imp_congr_right fun _ => ?_
  rw [sound.named_iff]
  constructor
  · exact fun backed => backed.2
  · rintro ⟨call, called, rfl, user, named, present⟩
    refine ⟨?_, call, called, rfl, user, named, present⟩
    rw [listDbRef_key, sound.read_object called present]
    rfl

/-- A member stays a member until the list's record is removed. -/
theorem memberCall_applied {w t : World} (sound : Sound w) {write : Write} {signedIn : Option Key}
    (stepped : SharedList.step w (.applied write signedIn) = some t) {u L : Key} {call : NewList} (member : MemberCall w u L call)
    (kept : ∀ list us, write = .removeList list us → list.id ≠ L) : MemberCall t u L call := by
  obtain ⟨inFlight, rfl⟩ := step_applied stepped
  obtain ⟨called, key, user, named, present⟩ := member
  refine ⟨called, key, user, named, ?_⟩
  rw [sound.present_apply inFlight]
  cases write with
  | addNewList => exact .inr present
  | removeList list us => exact ⟨kept list us rfl, present⟩
  | _ => exact present

end Sound

/-- A step that makes no unbacked key keeps the keys backed. -/
theorem keysBacked_step {w t : World} {action : Action} (sound : Sound w) (backed : KeysBacked w.db)
    (backs : BacksKeys w action) (stepped : step w action = some t) : KeysBacked t.db := by
  rcases step_db stepped with same | ⟨write, signedIn, rfl, inFlight⟩
  · rwa [same]
  · rw [(sound.step stepped).keysBacked_iff]
    obtain ⟨_, after⟩ := step_applied stepped
    have before := sound.keysBacked_iff.mp backed
    intro u L present
    obtain ⟨r, v, leaf⟩ := present_key.mp present
    rw [after, Write.mem_keys_apply (sound.valid inFlight)] at leaf
    -- A key that was there before is a member's, and stays one unless its list goes.
    have old : (Keys.users :: u :: Keys.lists :: L :: r, v) ∈ w.db.leaves →
        (∀ list us, write = .removeList list us → list.id ≠ L) → ∃ call, MemberCall t u L call := by
      intro oldLeaf kept
      obtain ⟨call, member⟩ := before u L (present_key.mpr ⟨r, v, oldLeaf⟩)
      exact ⟨call, sound.memberCall_applied stepped member kept⟩
    cases write with
    | addNewList call =>
      rcases leaf with ⟨⟨rfl, rfl⟩, _⟩ | ⟨_, oldLeaf⟩
      · subst after
        exact ⟨call, sound.issued _ inFlight, rfl, rfl, backs, (sound.present_apply inFlight).mpr (.inl rfl)⟩
      · exact old oldLeaf (by simp)
    | removeList list us =>
      obtain ⟨untouched, oldLeaf⟩ := leaf
      refine old oldLeaf ?_
      rintro _ _ ⟨rfl, rfl⟩ rfl
      obtain ⟨call, called, key, user, _⟩ := before u _ (present_key.mpr ⟨r, v, oldLeaf⟩)
      obtain ⟨inLoaded, _, members⟩ := sound.issued _ inFlight
      obtain ⟨other, otherCalled, rfl, _⟩ := sound.known _ inLoaded
      obtain rfl := sound.listKeys call called other otherCalled key
      exact untouched ⟨rfl, (members u).mpr (by rw [← user]; rfl)⟩
    | acceptInvitation userId listId =>
      rcases leaf with ⟨⟨rfl, rfl⟩, _⟩ | ⟨_, oldLeaf⟩
      · obtain ⟨call, member⟩ := sound.present_member.mp backs
        exact ⟨call, sound.memberCall_applied stepped member (by simp)⟩
      · exact old oldLeaf (by simp)
    | _ => exact old leaf (by simp)

/-- A step that makes an unbacked key leaves it in the database. -/
theorem keysBacked_broken {w t : World} {action : Action} (sound : Sound w) (outside : ¬ BacksKeys w action)
    (stepped : step w action = some t) : ¬ KeysBacked t.db := by
  unfold BacksKeys at outside
  split at outside
  · rename_i call signedIn
    rw [(sound.step stepped).keysBacked_iff]
    obtain ⟨inFlight, rfl⟩ := step_applied stepped
    intro backed
    obtain ⟨other, called, key, _, named, _⟩ := backed call.userId call.newListKey
      (present_key.mpr ⟨[], .bool true, (Write.mem_keys_apply (sound.valid inFlight)).mpr (.inl ⟨⟨rfl, rfl⟩, rfl, rfl⟩)⟩)
    obtain rfl := sound.listKeys other called call (sound.issued _ inFlight) key
    exact outside named
  · rename_i userId listId signedIn
    rw [(sound.step stepped).keysBacked_iff]
    obtain ⟨inFlight, rfl⟩ := step_applied stepped
    intro backed
    obtain ⟨call, called, key, user, named, present⟩ := backed userId listId
      (present_key.mpr ⟨[], .bool true, (Write.mem_keys_apply (sound.valid inFlight)).mpr (.inl ⟨⟨rfl, rfl⟩, rfl, rfl⟩)⟩)
    rw [sound.present_apply inFlight] at present
    exact outside (sound.present_member.mpr ⟨call, called, key, user, named, present⟩)
  · exact absurd trivial outside

/-- In a run from a database without lists every key is backed in every state
    exactly when no write makes an unbacked one. -/
theorem keys_backed_iff {start : World} (initial : Initial start) (actions : List Action) :
    Runs.Always step (fun w => KeysBacked w.db) start actions ↔ Runs.Along step BacksKeys start actions := by
  refine @Runs.always_iff_along _ _ _ _ (fun w => Sound w ∧ KeysBacked w.db) _ (fun _ inv => inv.2) ?_ ?_ _ ?_ actions
  · exact fun w action t inv backs stepped => ⟨inv.1.step stepped, keysBacked_step inv.1 inv.2 backs stepped⟩
  · exact fun w action t inv outside stepped => keysBacked_broken inv.1 outside stepped
  · refine ⟨Sound.start initial, ?_⟩
    intro u L present
    obtain ⟨r, v, leaf⟩ := present_key.mp present
    obtain ⟨_, field, _, path, noLists⟩ := initial.users _ leaf
    simp at path
    exact absurd path.2.1.symm noLists

/-! ## A key of a user whom the list does not name -/

section
open Sample

/-- Bob accepts Alice's invitation to her list. -/
def acceptRun : List Action :=
  [.addNewList aliceCall, .applied (.addNewList aliceCall) (some alice), .loadList groceries,
   .sendInvitation "bob@mail" bob groceries "alice@mail" "Join", .applied (.sendInvitation bob groceries "alice@mail" "Join") (some alice),
   .acceptInvitation bob groceries, .applied (.acceptInvitation bob groceries) (some bob)]

theorem accepted_key_unbacked : ¬ ∀ start actions, Initial start → Runs.Always step (fun w => KeysBacked w.db) start actions := by
  intro claim
  have always := claim (World.registered bob "bob@mail") acceptRun (initial_registered ..)
  have passed : (Runs.exec step (World.registered bob "bob@mail") acceptRun).any (fun w => decide
      (w.db.Present (child (userListsDbRef bob.val) groceries.val) ∧
        stringAt (w.db.sub (listUsersDbRef groceries.val)) bob = none)) = true := by
    decide +kernel
  obtain ⟨w, backed, unbacked⟩ := always.of_any passed
  obtain ⟨present, unnamed⟩ := of_decide_eq_true unbacked
  obtain ⟨_, name, named⟩ := backed bob groceries present
  simp [unnamed] at named

theorem keys_backed_iff_acceptRun :
    Runs.Always step (fun w => KeysBacked w.db) (World.registered bob "bob@mail") acceptRun ↔
      Runs.Along step BacksKeys (World.registered bob "bob@mail") acceptRun :=
  keys_backed_iff (initial_registered bob "bob@mail") acceptRun
end

/-! ## Complete lists -/

/-- The calls store their user's name, and the user of a stored list holds its key. -/
structure Held (w : World) : Prop where
  sound : Sound w
  named : ∀ call ∈ w.calls, call.name.isSome
  keys : ∀ call ∈ w.calls, w.db.Present [Keys.lists, call.newListKey] →
    (Keys.users :: call.userId :: Keys.lists :: [call.newListKey], Value.bool true) ∈ w.db.leaves

theorem Held.listsComplete {w : World} (held : Held w) : ListsComplete w.db where
  complete := by
    intro L present
    rw [listDbRef_key] at present ⊢
    obtain ⟨call, called, rfl⟩ := held.sound.called_of_present present
    refine ⟨call.object, held.sound.read_object called present, call.userId, rfl, ?_⟩
    exact held.sound.named_iff.mpr ⟨call, called, rfl, rfl, held.named call called, present⟩
  held := by
    intro L u present
    obtain ⟨call, called, rfl, rfl, _, stored⟩ := held.sound.present_member.mp present
    rw [child_key, userListsDbRef_key]
    exact Tree.at?_eq_some.mpr (held.keys call called stored)
  tables := by
    intro L M list other first second same
    rw [listDbRef_key] at first second
    obtain ⟨a, aCalled, rfl, _⟩ := held.sound.read_stored first
    obtain ⟨b, bCalled, rfl, _⟩ := held.sound.read_stored second
    obtain rfl := held.sound.itemsKeys a aCalled b bCalled (Key.val_injective same)
    have key := (ListObject.deserialize_eq_some.mp (ListObject.read_eq_some.mp first)).1
    have otherKey := (ListObject.deserialize_eq_some.mp (ListObject.read_eq_some.mp second)).1
    exact key.symm.trans otherKey

/-- Applying a write in flight takes no key from the user of a list that stays. -/
theorem Held.applied {w t : World} {write : Write} {signedIn : Option Key} (held : Held w)
    (stepped : step w (.applied write signedIn) = some t) : Held t := by
  have sound := held.sound.step stepped
  obtain ⟨inFlight, rfl⟩ := step_applied stepped
  refine ⟨sound, held.named, ?_⟩
  intro call called present
  rw [held.sound.present_apply inFlight] at present
  rw [Write.mem_keys_apply (held.sound.valid inFlight)]
  cases write with
  | addNewList other =>
    by_cases same : other = call
    · subst same
      exact .inl ⟨⟨rfl, rfl⟩, rfl, rfl⟩
    · have differs : other.newListKey ≠ call.newListKey := fun key =>
        same (held.sound.listKeys other (held.sound.issued _ inFlight) call called key)
      exact .inr ⟨fun both => differs both.2, held.keys call called (present.resolve_left differs)⟩
  | removeList list us => exact ⟨fun both => present.1 both.1, held.keys call called present.2⟩
  | acceptInvitation userId listId =>
    by_cases same : userId = call.userId ∧ listId = call.newListKey
    · exact .inl ⟨same, rfl, rfl⟩
    · exact .inr ⟨same, held.keys call called present⟩
  | _ => exact held.keys call called present

theorem Held.step {w t : World} {action : Action} (held : Held w) (named : Named w action)
    (stepped : step w action = some t) : Held t := by
  have sound := held.sound.step stepped
  rcases step_cases stepped with ⟨call, rfl, rfl⟩ | ⟨write, signedIn, rfl, _⟩ | ⟨sameDb, sameCalls⟩
  · refine ⟨sound, List.forall_mem_cons.mpr ⟨named, held.named⟩, ?_⟩
    intro other called present
    rcases List.mem_cons.mp called with rfl | called
    · exact absurd present (sound.absent other (by simp [World.issue]))
    · exact held.keys other called present
  · exact held.applied stepped
  · refine ⟨sound, ?_, ?_⟩
    · rw [sameCalls]
      exact held.named
    · rw [sameCalls, sameDb]
      exact held.keys

/-- In a run whose calls of `AddNewList` have `currentUser` set every list is complete in every state. -/
theorem lists_complete {start : World} (initial : Initial start) {actions : List Action}
    (named : Runs.Along step Named start actions) :
    Runs.Always step (fun w => ListsComplete w.db) start actions := by
  have held : Held start := ⟨Sound.start initial, by simp [initial.calls], by simp [initial.calls]⟩
  have always := Runs.always_of_invariant (fun _ _ _ held named stepped => Held.step held named stepped) held named
  exact always.mono fun _ held => held.listsComplete

theorem lists_complete_acceptRun :
    Runs.Always step (fun w => ListsComplete w.db) (World.registered Sample.bob "bob@mail") acceptRun := by
  refine lists_complete (initial_registered Sample.bob "bob@mail") ?_
  simp [Runs.Along, acceptRun, Named, Sample.aliceCall]

end SharedList
