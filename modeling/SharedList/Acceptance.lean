import SharedList.Clients

/-!
Accepting an invitation. `AcceptInvitation` writes the list's key for the user
and, when the server has answered, issues the removal of the invitation for the
user signed in by then; its completion block does so whether the key has been
written or not. Other writes of any kind come in between.
-/
namespace SharedList
open FrbUtils

/-- `users/<userId>/invitations/<listId>`. -/
def invitationDbRef (userId listId : Key) : Reference := child dbRef (invitationPath userId listId)

@[simp] theorem invitationDbRef_key (userId listId : Key) :
    invitationDbRef userId listId = [Keys.users, userId, Keys.invitations, listId] := by
  rw [invitationDbRef, child, segments_invitationPath]
  rfl

/-- Whatever the ids are, the path of an item starts at `items`. -/
theorem segments_itemPath_items (itemsId itemId : String) :
    segments (itemPath itemsId itemId) = Keys.items :: (segments itemsId ++ Keys.items :: segments itemId) := by
  simp [-String.reduceAppend, itemPath, itemsInItemsPath, itemsTablePath]

namespace Write

/-- The key under `users/<u>/lists` that a write sets. -/
def listKey? : Write → Option (Key × Key)
  | .addNewList call => some (call.userId, call.newListKey)
  | .acceptInvitation userId listId => some (userId, listId)
  | _ => none

/-- A write that neither sends nor removes an invitation leaves it as it was. -/
theorem invitation_frame {write : Write} {u L : Key} (db : Database)
    (sends : ∀ myEmail message, write ≠ .sendInvitation u L myEmail message) (removes : write ≠ .removeInvitation u L) :
    (write.apply db).sub (invitationDbRef u L) = db.sub (invitationDbRef u L) := by
  refine Tree.sub_update db ?_
  rw [invitationDbRef_key]
  cases write with
  | addNewList call => simp [data, addNewList_changes, Apart]
  | removeList list usersDict => simp [data, removeList_changes, Apart]
  | addNewItem => simp [data, Update.changes, Item.serialize, Item.path, segments_itemPath_items, Apart]
  | removeItem => simp [data, Update.changes, segments_itemPath_items, Apart]
  | reverseChecked =>
    simp [data, Update.changes, reverseCheckedUpdate, Item.pathForKey, Item.path, segments_itemPath_items, Apart]
  | sendInvitation v M myEmail message =>
    have other : v = u → M ≠ L := by
      rintro rfl rfl
      exact sends myEmail message rfl
    simp [data, Update.changes, segments_invitationPath, Apart]
    tauto
  | acceptInvitation => simp [-String.reduceAppend, data, Update.changes, Apart]
  | removeInvitation v M =>
    have other : v = u → M ≠ L := by
      rintro rfl rfl
      exact removes rfl
    simp [data, Update.changes, segments_invitationPath, Apart]
    tauto

theorem sendInvitation_apply (db : Database) (u L : Key) (myEmail message : String) :
    (Write.sendInvitation u L myEmail message).apply db = db.put (invitationDbRef u L) (Invitation.record myEmail message) := by
  rw [invitationDbRef_key, ← segments_invitationPath]
  rfl

theorem removeInvitation_apply (db : Database) (u L : Key) :
    (Write.removeInvitation u L).apply db = db.put (invitationDbRef u L) null := by
  rw [invitationDbRef_key, ← segments_invitationPath]
  rfl

theorem sendInvitation_present (db : Database) (u L : Key) (myEmail message : String) :
    ((Write.sendInvitation u L myEmail message).apply db).Present (invitationDbRef u L) := by
  rw [sendInvitation_apply, Tree.present_put]
  exact ⟨([Keys.message], .string message), List.mem_append_right _ List.mem_cons_self, List.nil_prefix⟩

theorem removeInvitation_gone (db : Database) (u L : Key) :
    ¬ ((Write.removeInvitation u L).apply db).Present (invitationDbRef u L) := by
  rw [removeInvitation_apply, Tree.present_put]
  rintro ⟨l, member, _⟩
  cases member

/-- Removing an invitation that is not there leaves the database exactly as it was. -/
theorem removeInvitation_absent {db : Database} {u L : Key} (absent : ¬ db.Present (invitationDbRef u L)) :
    (Write.removeInvitation u L).apply db = db := by
  rw [removeInvitation_apply]
  exact Tree.put_empty absent

theorem present_invitation_apply {write : Write} {db : Database} {u L : Key}
    (present : (write.apply db).Present (invitationDbRef u L)) :
    (∃ myEmail message, write = .sendInvitation u L myEmail message) ∨ db.Present (invitationDbRef u L) := by
  by_cases sends : ∃ myEmail message, write = .sendInvitation u L myEmail message
  · exact .inl sends
  · right
    have removes : write ≠ .removeInvitation u L := by
      rintro rfl
      exact removeInvitation_gone db u L present
    have same := invitation_frame db (fun myEmail message equal => sends ⟨myEmail, message, equal⟩) removes
    exact (Tree.present_congr same).mp present

end Write

namespace Acceptance

/-- Who issued a write: a caller, or the completion block of an acceptance. -/
inductive Origin where
  | call
  | acceptance (failed : Bool)
deriving DecidableEq

structure Sent where
  write : Write
  origin : Origin
deriving DecidableEq

/-- The removal of an invitation that an acceptance has issued and that has changed the database. -/
structure Taking where
  userId : Key
  listId : Key
  failed : Bool
deriving DecidableEq

structure State where
  db : Database
  inflight : List Sent
  /-- The keys under `users/<u>/lists` that have been written so far. -/
  written : List (Key × Key)
  taken : List Taking

inductive Action where
  | issue (write : Write)
  | applied (sent : Sent) (signedIn : Option Key)
  | rejected (sent : Sent) (signedIn : Option Key)

/-- What the completion block of a write issues. -/
def followUp (write : Write) (signedIn : Option Key) (failed : Bool) : List Sent :=
  (completion write signedIn).map (⟨·, .acceptance failed⟩)

def taking (db : Database) : Sent → Option Taking
  | ⟨.removeInvitation userId listId, .acceptance failed⟩ =>
    if (Write.removeInvitation userId listId).apply db = db then none else some ⟨userId, listId, failed⟩
  | _ => none

def State.start (db : Database) (written : List (Key × Key)) : State := ⟨db, [], written, []⟩

def step (s : State) : Action → Option State
  | .issue write => some { s with inflight := s.inflight ++ [⟨write, .call⟩] }
  | .applied sent signedIn =>
    if sent ∈ s.inflight then
      some { db := sent.write.apply s.db, inflight := s.inflight.erase sent ++ followUp sent.write signedIn false,
             written := sent.write.listKey?.toList ++ s.written, taken := (taking s.db sent).toList ++ s.taken }
    else none
  | .rejected sent signedIn =>
    if sent ∈ s.inflight then
      some { s with inflight := s.inflight.erase sent ++ followUp sent.write signedIn true }
    else none

/-- An acceptance has taken invitations only of users who have got the list's key,
    and a failed one has left the database as it was. -/
def Kept (s : State) : Prop := ∀ x ∈ s.taken, x.failed = false ∧ (x.userId, x.listId) ∈ s.written

/-- An acceptance whose key is not written, or not for the user signed in at its
    completion, finds no invitation that its removal could take. -/
def Harmless (s : State) : Action → Prop
  | .rejected ⟨.acceptInvitation _ L, _⟩ (some u) => ¬ s.db.Present (invitationDbRef u L)
  | .applied ⟨.acceptInvitation v L, _⟩ (some u) =>
    v = u ∨ (u, L) ∈ s.written ∨ ¬ s.db.Present (invitationDbRef u L)
  | .applied ⟨.sendInvitation u L _ _, _⟩ _ =>
    ∀ failed, ⟨.removeInvitation u L, .acceptance failed⟩ ∈ s.inflight → failed = false ∧ (u, L) ∈ s.written
  | _ => True

/-- No removal on its way can take an invitation whose user has not got the key. -/
structure Safe (s : State) : Prop where
  kept : Kept s
  underWay : ∀ u L failed, ⟨.removeInvitation u L, .acceptance failed⟩ ∈ s.inflight →
    s.db.Present (invitationDbRef u L) → failed = false ∧ (u, L) ∈ s.written

theorem taking_eq_some {db : Database} {sent : Sent} {x : Taking} (took : taking db sent = some x) :
    sent = ⟨.removeInvitation x.userId x.listId, .acceptance x.failed⟩ ∧ db.Present (invitationDbRef x.userId x.listId) := by
  unfold taking at took
  split at took
  · rename_i userId listId failed
    simp only [Option.ite_none_left_eq_some, Option.some.injEq] at took
    obtain ⟨changed, rfl⟩ := took
    exact ⟨rfl, by_contra fun absent => changed (Write.removeInvitation_absent absent)⟩
  · cases took

theorem mem_followUp {write : Write} {signedIn : Option Key} {failed other : Bool} {u L : Key} :
    ⟨.removeInvitation u L, .acceptance other⟩ ∈ followUp write signedIn failed ↔
      (∃ v, write = .acceptInvitation v L) ∧ signedIn = some u ∧ other = failed := by
  unfold followUp completion
  split
  · simp only [List.map_cons, List.map_nil, List.mem_singleton, Sent.mk.injEq, Write.removeInvitation.injEq,
      Origin.acceptance.injEq, Write.acceptInvitation.injEq, Option.some.injEq]
    constructor
    · rintro ⟨⟨rfl, rfl⟩, rfl⟩
      exact ⟨⟨_, rfl, rfl⟩, rfl, rfl⟩
    · rintro ⟨⟨_, _, rfl⟩, rfl, rfl⟩
      exact ⟨⟨rfl, rfl⟩, rfl⟩
  · rename_i others
    simp only [List.map_nil, List.not_mem_nil, false_iff]
    rintro ⟨⟨v, rfl⟩, rfl, _⟩
    exact others v L u rfl rfl

theorem Safe.step {s t : State} {action : Action} (safe : Safe s) (harmless : Harmless s action)
    (stepped : Acceptance.step s action = some t) : Safe t := by
  cases action with
  | issue write =>
    cases stepped
    refine ⟨safe.kept, ?_⟩
    intro u L failed sent
    exact safe.underWay u L failed (by simpa using sent)
  | rejected sent signedIn =>
    simp only [Acceptance.step, Option.ite_none_right_eq_some, Option.some.injEq] at stepped
    obtain ⟨_, rfl⟩ := stepped
    refine ⟨safe.kept, ?_⟩
    intro u L failed removal present
    rcases List.mem_append.mp removal with old | new
    · exact safe.underWay u L failed (List.mem_of_mem_erase old) present
    · obtain ⟨write, origin⟩ := sent
      obtain ⟨⟨v, rfl⟩, rfl, rfl⟩ := mem_followUp.mp new
      exact absurd present harmless
  | applied sent signedIn =>
    simp only [Acceptance.step, Option.ite_none_right_eq_some, Option.some.injEq] at stepped
    obtain ⟨inFlight, rfl⟩ := stepped
    refine ⟨?_, ?_⟩
    · intro x took
      rcases List.mem_append.mp took with new | old
      · obtain ⟨rfl, present⟩ := taking_eq_some (Option.mem_toList.mp new)
        obtain ⟨accepted, written⟩ := safe.underWay _ _ _ inFlight present
        exact ⟨accepted, List.mem_append_right _ written⟩
      · obtain ⟨accepted, written⟩ := safe.kept x old
        exact ⟨accepted, List.mem_append_right _ written⟩
    · intro u L failed removal present
      obtain ⟨write, origin⟩ := sent
      rcases List.mem_append.mp removal with old | new
      · have wasThere := List.mem_of_mem_erase old
        rcases Write.present_invitation_apply present with ⟨myEmail, message, rfl⟩ | before
        · obtain ⟨accepted, written⟩ := harmless failed wasThere
          exact ⟨accepted, List.mem_append_right _ written⟩
        · obtain ⟨accepted, written⟩ := safe.underWay u L failed wasThere before
          exact ⟨accepted, List.mem_append_right _ written⟩
      · obtain ⟨⟨v, rfl⟩, rfl, rfl⟩ := mem_followUp.mp new
        refine ⟨rfl, ?_⟩
        rcases harmless with rfl | written | absent
        · exact List.mem_append_left _ (by simp [Write.listKey?])
        · exact List.mem_append_right _ written
        · obtain ⟨_, _, sends⟩ | before := Write.present_invitation_apply present
          · cases sends
          · exact absurd before absent

/-- After any other step some removal on its way can take such an invitation. -/
theorem not_safe {s t : State} {action : Action} (outside : ¬ Harmless s action) (stepped : step s action = some t) :
    ¬ Safe t := by
  intro safe
  unfold Harmless at outside
  split at outside
  · rename_i v L origin u
    simp only [step, Option.ite_none_right_eq_some, Option.some.injEq] at stepped
    obtain ⟨_, rfl⟩ := stepped
    have removal := (@mem_followUp (.acceptInvitation v L) (some u) true true u L).mpr ⟨⟨v, rfl⟩, rfl, rfl⟩
    obtain ⟨accepted, _⟩ := safe.underWay u L true (List.mem_append_right _ removal) (not_not.mp outside)
    cases accepted
  · rename_i v L origin u
    simp only [step, Option.ite_none_right_eq_some, Option.some.injEq] at stepped
    obtain ⟨_, rfl⟩ := stepped
    simp only [not_or, not_not] at outside
    obtain ⟨other, unwritten, present⟩ := outside
    have removal := (@mem_followUp (.acceptInvitation v L) (some u) false false u L).mpr ⟨⟨v, rfl⟩, rfl, rfl⟩
    have stays : ((Write.acceptInvitation v L).apply s.db).Present (invitationDbRef u L) := by
      have same := @Write.invitation_frame (.acceptInvitation v L) u L s.db (by simp) (by simp)
      exact (Tree.present_congr same).mpr present
    obtain ⟨_, written⟩ := safe.underWay u L false (List.mem_append_right _ removal) stays
    simp [Write.listKey?, Ne.symm other, unwritten] at written
  · rename_i u L myEmail message origin signedIn
    simp only [step, Option.ite_none_right_eq_some, Option.some.injEq] at stepped
    obtain ⟨_, rfl⟩ := stepped
    simp only [not_forall] at outside
    obtain ⟨failed, removal, unfit⟩ := outside
    have kept := List.mem_append_left (followUp (.sendInvitation u L myEmail message) signedIn false)
      ((List.mem_erase_of_ne (by simp : Sent.mk (.removeInvitation u L) (.acceptance failed) ≠
        ⟨.sendInvitation u L myEmail message, origin⟩)).mpr removal)
    have stored := Write.sendInvitation_present s.db u L myEmail message
    exact unfit (by simpa [Write.listKey?] using safe.underWay u L failed kept stored)
  · exact absurd trivial outside

/-- In a run from any database no removal on its way can ever take an invitation
    without membership exactly when every step is harmless. -/
theorem always_safe_iff (db : Database) (written : List (Key × Key)) (actions : List Action) :
    Runs.Always step Safe (State.start db written) actions ↔ Runs.Along step Harmless (State.start db written) actions :=
  Runs.always_iff_along (fun _ safe => safe) (fun _ _ _ safe harmless stepped => safe.step harmless stepped)
    (fun _ _ _ _ outside stepped => not_safe outside stepped)
    ⟨by simp [Kept, State.start], by simp [State.start]⟩ actions

/-- From any database, in a run whose steps are harmless no acceptance ever takes an
    invitation without membership. -/
theorem invitations_kept {db : Database} {written : List (Key × Key)} {actions : List Action}
    (harmless : Runs.Along step Harmless (State.start db written) actions) :
    Runs.Always step Kept (State.start db written) actions :=
  ((always_safe_iff db written actions).mpr harmless).mono (fun _ safe => safe.kept)

/-- Bob's pending invitation. -/
def invitedDb : Database := (Write.sendInvitation Sample.bob Sample.groceries "alice@mail" "Join").apply Tree.empty

/-- The server rejects Bob's acceptance and applies the removal that follows. -/
def rejectedRun : List Action :=
  open Sample in
  [.issue (.acceptInvitation bob groceries), .rejected ⟨.acceptInvitation bob groceries, .call⟩ (some bob),
   .applied ⟨.removeInvitation bob groceries, .acceptance true⟩ none]

theorem rejected_acceptance_loses_invitation : ¬ ∀ (db : Database) (written : List (Key × Key)) (actions : List Action),
    Runs.Always step Kept (State.start db written) actions := by
  intro claim
  have passed : (Runs.exec step (State.start invitedDb []) rejectedRun).any
      (fun s => decide (s.taken = [⟨Sample.bob, Sample.groceries, true⟩])) = true := by decide +kernel
  obtain ⟨s, kept, lost⟩ := (claim invitedDb [] rejectedRun).of_any passed
  have took := of_decide_eq_true lost
  have accepted := (kept ⟨Sample.bob, Sample.groceries, true⟩ (by simp [took])).1
  cases accepted

/-- Bob accepts, and both writes are applied. -/
def acceptedRun : List Action :=
  open Sample in
  [.issue (.acceptInvitation bob groceries), .applied ⟨.acceptInvitation bob groceries, .call⟩ (some bob),
   .applied ⟨.removeInvitation bob groceries, .acceptance false⟩ none]

theorem invitations_kept_acceptedRun : Runs.Always step Kept (State.start invitedDb []) acceptedRun :=
  invitations_kept (fun t issued => by
    cases issued
    refine ⟨trivial, fun u applied => ?_⟩
    simp only [step, Option.ite_none_right_eq_some, Option.some.injEq] at applied
    obtain ⟨_, rfl⟩ := applied
    exact ⟨.inl rfl, fun _ _ => ⟨trivial, trivial⟩⟩)

end Acceptance
end SharedList
