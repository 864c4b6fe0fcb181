import SharedList.Acceptance
import SharedList.RoundTrips

/-!
`SendInvitation`. The receiver is found by a query for the e-mail address; the
block casts the answer to a dictionary and takes one of its keys, whichever
comes first. Where no user has the address there is no dictionary, and where the
ids of those who have it are the numbers of an array the answer is an array.
-/
namespace SharedList
open FrbUtils

/-- The user's record has the e-mail address. -/
def HasEmail (db : Database) (email : String) (userId : Key) : Prop :=
  db.at? [Keys.users, userId, Keys.email] = some (.string email)

/-- The answer to `child("users").queryOrdered(byChild: "email").queryEqual(toValue:)`. -/
def usersQuery (db : Database) (email : String) : Snapshot :=
  (db.sub [Keys.users]).restrict (fun userId => userId ∈ usersWithEmail db email)

/-- `SendInvitation` by the user with the address `myEmail`; the dictionary that the
    query answers with has its keys in any order. `none` is a failing cast or unwrap. -/
def sendInvitation (db : Database) (destinationUserEmail : String) (listId : Key) (message : String)
    (myEmail : Option String) (keys : List Key) : Option Database := do
  let snapshotDict ← dictionary? (usersQuery db destinationUserEmail)
  if keys.Perm snapshotDict.childKeys then
    let destinationUserId ← keys.head?
    let myEmail ← myEmail
    return (Write.sendInvitation destinationUserId listId myEmail message).apply db
  else none

/-- One user with the address has the invitation, and nothing else has changed. -/
def Delivered (db after : Database) (email : String) (invitation : Invitation) : Prop :=
  ∃ v, HasEmail db email v ∧
    Invitation.read invitation.list_id (after.sub (invitationDbRef v invitation.list_id)) = some invitation ∧
    Untouched db after [invitationDbRef v invitation.list_id]

/-- The invitation is delivered when some user has the address, and otherwise the
    database is as before; in neither case does the block fail. -/
def Precise (db : Database) (email : String) (invitation : Invitation) (result : Option Database) : Prop :=
  ((∃ v, HasEmail db email v) → ∃ after, result = some after ∧ Delivered db after email invitation) ∧
    ((∀ v, ¬ HasEmail db email v) → result = some db)

/-! ## The query -/

theorem mem_usersWithEmail {db : Database} {email : String} {v : Key} :
    v ∈ usersWithEmail db email ↔ HasEmail db email v := by
  simp only [usersWithEmail, List.mem_filter, Tree.mem_childKeys, Tree.present_sub, decide_eq_true_eq, HasEmail]
  constructor
  · exact fun found => found.2
  · intro has
    exact ⟨Tree.present_of_below [Keys.email] (Tree.present_of_at? has), has⟩

theorem mem_usersQuery {db : Database} {email : String} {v : Key} :
    v ∈ (usersQuery db email).childKeys ↔ HasEmail db email v := by
  rw [Tree.mem_childKeys, usersQuery, Tree.present_restrict, decide_eq_true_eq, mem_usersWithEmail, Tree.present_sub]
  constructor
  · exact fun found => found.1
  · intro has
    exact ⟨has, Tree.present_of_below [Keys.email] (Tree.present_of_at? has)⟩

/-- The answer is a dictionary when some user has the address and their ids make no array. -/
theorem usersQuery_dictionary {db : Database} {email : String} {v : Key} (has : HasEmail db email v)
    (noArray : ¬ ExportsArray (usersQuery db email)) : dictionary? (usersQuery db email) = some (usersQuery db email) := by
  refine @dictionary?_of_leaf _ v [Keys.email] (.string email) ?_ noArray
  refine Tree.mem_restrict.mpr ⟨decide_eq_true (mem_usersWithEmail.mpr has), ?_⟩
  exact Tree.mem_sub.mpr (Tree.at?_eq_some.mp has)

/-- Where no user has it the cast fails. -/
theorem usersQuery_none {db : Database} {email : String} (none : ∀ v, ¬ HasEmail db email v) :
    dictionary? (usersQuery db email) = Option.none := by
  cases read : dictionary? (usersQuery db email) with
  | none => rfl
  | some snapshotDict =>
    obtain ⟨_, filled⟩ := dictionary?_eq_some read
    obtain ⟨⟨path, value⟩, leaf⟩ := List.exists_mem_of_ne_nil _ filled
    cases path with
    | nil => simp [usersQuery, Tree.restrict] at leaf
    | cons v r =>
      refine absurd (mem_usersQuery.mp ?_) (none v)
      exact Tree.mem_childKeys.mpr (Tree.present_iff.mpr ⟨r, value, leaf⟩)

/-! ## The invitation -/

theorem delivered_sendInvitation {db : Database} {email : String} {v : Key} (has : HasEmail db email v)
    (invitation : Invitation) : Delivered db
      ((Write.sendInvitation v invitation.list_id invitation.user_email invitation.message).apply db) email invitation := by
  refine ⟨v, has, ?_, ?_⟩
  · rw [Write.sendInvitation_apply, Tree.sub_put]
    exact Invitation.read_record invitation.list_id invitation.user_email invitation.message
  · intro p apart
    have changed : (Write.sendInvitation v invitation.list_id invitation.user_email invitation.message).data.changes =
        [(invitationDbRef v invitation.list_id, Invitation.record invitation.user_email invitation.message)] := by
      rw [invitationDbRef_key, ← segments_invitationPath]
      rfl
    refine Tree.sub_update db ?_
    rw [changed]
    simpa using apart

/-- `SendInvitation` delivers or does nothing, as it should, exactly when some user has the address
    and the ids of those who have it make no array. -/
theorem invitation_sent_iff (db : Database) (email : String) (invitation : Invitation) {keys : List Key}
    (order : keys.Perm (usersQuery db email).childKeys) :
    Precise db email invitation
        (sendInvitation db email invitation.list_id invitation.message (some invitation.user_email) keys) ↔
      (∃ v, HasEmail db email v) ∧ ¬ ExportsArray (usersQuery db email) := by
  constructor
  · intro precise
    by_cases someone : ∃ v, HasEmail db email v
    · refine ⟨someone, ?_⟩
      intro array
      -- The cast of an array fails, although there is a receiver.
      obtain ⟨after, sent, _⟩ := precise.1 someone
      rw [sendInvitation, dictionary?, if_pos (.inr (.inr array))] at sent
      cases sent
    · have noUser : ∀ v, ¬ HasEmail db email v := not_exists.mp someone
      have sent := precise.2 noUser
      rw [sendInvitation, usersQuery_none noUser] at sent
      cases sent
  · rintro ⟨⟨v, has⟩, noArray⟩
    refine ⟨fun _ => ?_, fun none => absurd has (none v)⟩
    have nonempty : keys ≠ [] := List.ne_nil_of_mem (order.mem_iff.mpr (mem_usersQuery.mpr has))
    obtain ⟨first, rest, rfl⟩ := List.exists_cons_of_ne_nil nonempty
    have firstHas := mem_usersQuery.mp (order.mem_iff.mp List.mem_cons_self)
    refine ⟨_, ?_, delivered_sendInvitation firstHas invitation⟩
    simp only [sendInvitation, usersQuery_dictionary has noArray, Option.bind_eq_bind, Option.bind_some, if_pos order,
      List.head?_cons, Option.pure_def]

/-- Alice invites an address that nobody has. -/
theorem unknown_address_stops : ¬ ∀ (db : Database) (email : String) (invitation : Invitation) (keys : List Key),
    keys.Perm (usersQuery db email).childKeys → Precise db email invitation
      (sendInvitation db email invitation.list_id invitation.message (some invitation.user_email) keys) := by
  intro claim
  have precise := claim (World.registered Sample.alice "alice@mail").db "bob@mail" ⟨Sample.groceries, "alice@mail", "Join"⟩ []
    (by decide +kernel)
  have nobody : usersWithEmail (World.registered Sample.alice "alice@mail").db "bob@mail" = [] := by decide +kernel
  have noUser : ∀ v, ¬ HasEmail (World.registered Sample.alice "alice@mail").db "bob@mail" v := by
    intro v has
    have found := mem_usersWithEmail.mpr has
    rw [nobody] at found
    cases found
  have sent := precise.2 noUser
  rw [sendInvitation, usersQuery_none noUser] at sent
  cases sent

/-- Bob invites Alice. -/
theorem invitation_sent_iff_registered :
    Precise (World.registered Sample.alice "alice@mail").db "alice@mail" ⟨Sample.groceries, "bob@mail", "Join"⟩
      (sendInvitation (World.registered Sample.alice "alice@mail").db "alice@mail" Sample.groceries "Join" (some "bob@mail")
        [Sample.alice]) := by
  have found : (usersQuery (World.registered Sample.alice "alice@mail").db "alice@mail").childKeys = [Sample.alice] := by
    decide +kernel
  refine (invitation_sent_iff _ "alice@mail" ⟨Sample.groceries, "bob@mail", "Join"⟩ (found ▸ List.Perm.refl _)).mpr ⟨?_, ?_⟩
  · exact ⟨Sample.alice, mem_usersQuery.mp (found ▸ List.mem_cons_self)⟩
  · decide +kernel

end SharedList
