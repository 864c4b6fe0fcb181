import SharedList.ItemRecords
import SharedList.Acceptance

/-!
Where what is stored comes from. Every write in flight was put there by an
action, and what lies in the database was there from the start or is part of a
write that was applied; so in a run from a database without lists, everything
under `users/<u>/lists`, `lists` and `items` leads back to actions of the run.
-/
namespace SharedList
open FrbUtils

/-- The writes that an action puts in flight. -/
inductive Issues (w : World) : Action → Write → Prop where
  | addNewList (call : NewList) : Issues w (.addNewList call) (.addNewList call)
  | removeListUsers (list : ListObject) (usersDict : Snapshot)
      (read : dictionary? (w.db.sub (listUsersDbRef list.id.val)) = some usersDict) :
      Issues w (.removeListUsers list) (.removeList list usersDict.childKeys)
  | addNewItem (list : ListObject) (title : String) (authorId newItemKey : Key) :
      Issues w (.addNewItem list title authorId newItemKey) (.addNewItem list newItemKey title authorId)
  | removeItem (item : Item) : Issues w (.removeItem item) (.removeItem item)
  | reverseChecked (item : Item) (userId : Key) : Issues w (.reverseChecked item userId) (.reverseChecked item userId)
  | sendInvitation (destinationUserEmail : String) (destinationUserId listId : Key) (myEmail message : String)
      (found : destinationUserId ∈ usersWithEmail w.db destinationUserEmail) :
      Issues w (.sendInvitation destinationUserEmail destinationUserId listId myEmail message)
        (.sendInvitation destinationUserId listId myEmail message)
  | acceptInvitation (userId listId : Key) : Issues w (.acceptInvitation userId listId) (.acceptInvitation userId listId)
  | removeInvitation (userId listId : Key) : Issues w (.removeInvitation userId listId) (.removeInvitation userId listId)
  | applied (userId listId signedIn : Key) :
      Issues w (.applied (.acceptInvitation userId listId) (some signedIn)) (.removeInvitation signedIn listId)
  | rejected (userId listId signedIn : Key) :
      Issues w (.rejected (.acceptInvitation userId listId) (some signedIn)) (.removeInvitation signedIn listId)

/-- What a step leaves of the writes in flight. -/
def remaining (w : World) : Action → List Write
  | .applied write _ | .rejected write _ => w.inflight.erase write
  | _ => w.inflight

theorem remaining_sublist (w : World) (action : Action) : (remaining w action).Sublist w.inflight := by
  unfold remaining
  split
  · exact List.erase_sublist
  · exact List.erase_sublist
  · exact List.Sublist.refl _

/-- What is in flight after a step: what is left, and a write that the step has issued. -/
def InFlight (w : World) (action : Action) (inflight : List Write) : Prop :=
  ∃ issued : Option Write, (∀ write ∈ issued, Issues w action write) ∧ inflight = remaining w action ++ issued.toList

theorem InFlight.nothing (w : World) (action : Action) : InFlight w action (remaining w action) :=
  ⟨none, by simp, (List.append_nil _).symm⟩

theorem InFlight.issue {w : World} {action : Action} {write : Write} (issues : Issues w action write) :
    InFlight w action (remaining w action ++ [write]) := by
  refine ⟨some write, ?_, rfl⟩
  rintro _ ⟨⟩
  exact issues

theorem completion_toList (write : Write) (signedIn : Option Key) : ∃ issued : Option Write,
    completion write signedIn = issued.toList ∧
      ∀ later ∈ issued, ∃ userId listId user, write = .acceptInvitation userId listId ∧ signedIn = some user ∧
        later = .removeInvitation user listId := by
  unfold completion
  split
  · rename_i userId listId user
    exact ⟨some (.removeInvitation user listId), rfl, fun later same => ⟨userId, listId, user, rfl, rfl, (Option.some.inj same).symm⟩⟩
  · exact ⟨none, rfl, by simp⟩

theorem step_inFlight {w t : World} {action : Action} (stepped : step w action = some t) : InFlight w action t.inflight := by
  cases action with
  | applied write signedIn =>
    simp only [step, Option.ite_none_right_eq_some, Option.some.injEq] at stepped
    obtain ⟨_, rfl⟩ := stepped
    obtain ⟨issued, same, origin⟩ := completion_toList write signedIn
    refine ⟨issued, fun later member => ?_, congrArg _ same⟩
    obtain ⟨userId, listId, user, rfl, rfl, rfl⟩ := origin later member
    exact .applied userId listId user
  | rejected write signedIn =>
    simp only [step, Option.ite_none_right_eq_some, Option.some.injEq] at stepped
    obtain ⟨_, rfl⟩ := stepped
    obtain ⟨issued, same, origin⟩ := completion_toList write signedIn
    refine ⟨issued, fun later member => ?_, congrArg _ same⟩
    obtain ⟨userId, listId, user, rfl, rfl, rfl⟩ := origin later member
    exact .rejected userId listId user
  | loadList id =>
    simp only [step, Option.bind_eq_bind, Option.bind_eq_some_iff, Option.pure_def, Option.some.injEq] at stepped
    obtain ⟨_, _, rfl⟩ := stepped
    exact .nothing w _
  | removeList list =>
    simp only [step, Option.ite_none_right_eq_some, Option.some.injEq] at stepped
    obtain ⟨_, rfl⟩ := stepped
    exact .nothing w _
  | removeListUsers list =>
    simp only [step, Option.bind_eq_bind, Option.pure_def, Option.ite_none_right_eq_some,
      Option.bind_eq_some_iff, Option.some.injEq] at stepped
    obtain ⟨_, usersDict, read, rfl⟩ := stepped
    exact .issue (.removeListUsers list usersDict read)
  | sendInvitation destinationUserEmail destinationUserId listId myEmail message =>
    simp only [step, Option.ite_none_right_eq_some, Option.some.injEq] at stepped
    obtain ⟨found, rfl⟩ := stepped
    exact .issue (.sendInvitation destinationUserEmail destinationUserId listId myEmail message found)
  | addNewList call =>
    simp only [step, Option.ite_none_right_eq_some, Option.some.injEq] at stepped
    obtain ⟨_, rfl⟩ := stepped
    exact .issue (.addNewList call)
  | addNewItem list title authorId newItemKey =>
    simp only [step, Option.ite_none_right_eq_some, Option.some.injEq] at stepped
    obtain ⟨_, rfl⟩ := stepped
    exact .issue (.addNewItem list title authorId newItemKey)
  | removeItem item =>
    simp only [step, Option.ite_none_right_eq_some, Option.some.injEq] at stepped
    obtain ⟨_, rfl⟩ := stepped
    exact .issue (.removeItem item)
  | reverseChecked item userId =>
    simp only [step, Option.ite_none_right_eq_some, Option.some.injEq] at stepped
    obtain ⟨_, rfl⟩ := stepped
    exact .issue (.reverseChecked item userId)
  | acceptInvitation userId listId =>
    cases stepped
    exact .issue (.acceptInvitation userId listId)
  | removeInvitation userId listId =>
    cases stepped
    exact .issue (.removeInvitation userId listId)

/-- A write in flight was in flight before the step, or the step has issued it. -/
theorem step_issued {w t : World} {action : Action} (stepped : step w action = some t) {write : Write}
    (waiting : write ∈ t.inflight) : write ∈ w.inflight ∨ Issues w action write := by
  obtain ⟨issued, origin, same⟩ := step_inFlight stepped
  rw [same, List.mem_append, Option.mem_toList] at waiting
  exact waiting.imp (fun left => (remaining_sublist w action).subset left) (origin write)

/-! ## Who asked for it -/

/-- One of the actions asks for the write. -/
def Asked (done : List Action) : Write → Prop
  | .addNewList call => .addNewList call ∈ done
  | .addNewItem list newItemKey title authorId => .addNewItem list title authorId newItemKey ∈ done
  | .reverseChecked item userId => .reverseChecked item userId ∈ done
  | .sendInvitation userId listId myEmail message =>
      ∃ email, .sendInvitation email userId listId myEmail message ∈ done
  | .acceptInvitation userId listId => .acceptInvitation userId listId ∈ done
  | .removeList .. | .removeItem _ | .removeInvitation .. => True

theorem Asked.mono {done more : List Action} (earlier : ∀ action ∈ done, action ∈ more) {write : Write}
    (asked : Asked done write) : Asked more write := by
  cases write with
  | addNewList | addNewItem | reverseChecked | acceptInvitation => exact earlier _ asked
  | sendInvitation =>
    obtain ⟨email, member⟩ := asked
    exact ⟨email, earlier _ member⟩
  | removeList | removeItem | removeInvitation => trivial

theorem Issues.asked {w : World} {action : Action} {write : Write} (issues : Issues w action write) {done : List Action}
    (member : action ∈ done) : Asked done write := by
  cases issues with
  | addNewList | addNewItem | reverseChecked | acceptInvitation => exact member
  | sendInvitation email => exact ⟨email, member⟩
  | removeListUsers | removeItem | removeInvitation | applied | rejected => trivial

/-- The user made the list or accepted an invitation to it. -/
def Joined (done : List Action) (u L : Key) : Prop :=
  (∃ call, .addNewList call ∈ done ∧ call.userId = u ∧ call.newListKey = L) ∨ .acceptInvitation u L ∈ done

/-- Title and author of the item are those of one call of `AddNewItem`. -/
def Authored (done : List Action) (db : Database) (I k : Key) : Prop :=
  (∀ r v, (Keys.items :: I :: Keys.items :: k :: Keys.title :: r, v) ∉ db.leaves ∧
    (Keys.items :: I :: Keys.items :: k :: Keys.author_id :: r, v) ∉ db.leaves) ∨
  ∃ list title authorId, .addNewItem list title authorId k ∈ done ∧ list.items_id = I.val ∧
    (∀ r v, (Keys.items :: I :: Keys.items :: k :: Keys.title :: r, v) ∈ db.leaves → r = [] ∧ v = .string title) ∧
    ∀ r v, (Keys.items :: I :: Keys.items :: k :: Keys.author_id :: r, v) ∈ db.leaves → r = [] ∧ v = .string authorId.val

/-- Where the item is checked, the user who is named checked a copy that was not. -/
def CheckedBy (done : List Action) (db : Database) (I k : Key) : Prop :=
  ∃ b s, (∀ r v, (Keys.items :: I :: Keys.items :: k :: Keys.checked :: r, v) ∈ db.leaves → v = .bool b) ∧
    (∀ r v, (Keys.items :: I :: Keys.items :: k :: Keys.checked_by_id :: r, v) ∈ db.leaves → v = .string s) ∧
    (b = true → ∃ copy userId, .reverseChecked copy userId ∈ done ∧ copy.itemsId = I.val ∧ copy.id = k ∧
      copy.checked = false ∧ s = userId.val)

/-- The invitation is as it was at the start, is not there, or is the record of one call of `SendInvitation`. -/
def Invited (start : Database) (done : List Action) (db : Database) (u L : Key) : Prop :=
  db.sub (invitationDbRef u L) = start.sub (invitationDbRef u L) ∨ db.sub (invitationDbRef u L) = null ∨
    ∃ email myEmail message, .sendInvitation email u L myEmail message ∈ done ∧
      db.sub (invitationDbRef u L) = Invitation.record myEmail message

/-- Everything in flight or stored was asked for by the actions so far. -/
structure Accounted (start : Database) (done : List Action) (w : World) : Prop where
  sound : Sound w
  asked : ∀ write ∈ w.inflight, Asked done write
  calls : ∀ call ∈ w.calls, .addNewList call ∈ done
  joined : ∀ u L r v, (Keys.users :: u :: Keys.lists :: L :: r, v) ∈ w.db.leaves → Joined done u L
  authored : ∀ I k, Authored done w.db I k
  checkedBy : ∀ I k, CheckedBy done w.db I k
  invited : ∀ u L, Invited start done w.db u L

theorem Joined.mono {done more : List Action} (earlier : ∀ action ∈ done, action ∈ more) {u L : Key}
    (joined : Joined done u L) : Joined more u L := by
  rcases joined with ⟨call, member, own⟩ | member
  · exact .inl ⟨call, earlier _ member, own⟩
  · exact .inr (earlier _ member)

theorem Authored.mono {done more : List Action} (earlier : ∀ action ∈ done, action ∈ more) {db : Database} {I k : Key}
    (authored : Authored done db I k) : Authored more db I k := by
  rcases authored with none | ⟨list, title, authorId, member, rest⟩
  · exact .inl none
  · exact .inr ⟨list, title, authorId, earlier _ member, rest⟩

theorem CheckedBy.mono {done more : List Action} (earlier : ∀ action ∈ done, action ∈ more) {db : Database} {I k : Key}
    (checkedBy : CheckedBy done db I k) : CheckedBy more db I k := by
  obtain ⟨b, s, checked, named, origin⟩ := checkedBy
  refine ⟨b, s, checked, named, fun isChecked => ?_⟩
  obtain ⟨copy, userId, member, rest⟩ := origin isChecked
  exact ⟨copy, userId, earlier _ member, rest⟩

theorem Invited.mono {start : Database} {done more : List Action} (earlier : ∀ action ∈ done, action ∈ more) {db : Database}
    {u L : Key} (invited : Invited start done db u L) : Invited start more db u L := by
  rcases invited with same | none | ⟨email, myEmail, message, member, record⟩
  · exact .inl same
  · exact .inr (.inl none)
  · exact .inr (.inr ⟨email, myEmail, message, earlier _ member, record⟩)

/-! ## What a write stores -/

theorem Joined.apply {done : List Action} {db : Database} {write : Write} (valid : write.Valid) (asked : Asked done write)
    (joined : ∀ u L r v, (Keys.users :: u :: Keys.lists :: L :: r, v) ∈ db.leaves → Joined done u L) (u L : Key)
    (r : List Key) (v : Value) (leaf : (Keys.users :: u :: Keys.lists :: L :: r, v) ∈ (write.apply db).leaves) :
    Joined done u L := by
  rw [Write.mem_keys_apply valid] at leaf
  cases write with
  | addNewList call =>
    rcases leaf with ⟨own, _⟩ | ⟨_, old⟩
    · exact .inl ⟨call, asked, own⟩
    · exact joined u L r v old
  | acceptInvitation userId listId =>
    rcases leaf with ⟨⟨rfl, rfl⟩, _⟩ | ⟨_, old⟩
    · exact .inr asked
    · exact joined u L r v old
  | removeList list usersDict => exact joined u L r v leaf.2
  | _ => exact joined u L r v leaf

theorem Authored.apply {done : List Action} {db : Database} {write : Write} (valid : write.Valid) (asked : Asked done write)
    {I k : Key} (authored : Authored done db I k) : Authored done (write.apply db) I k := by
  have effect := fun r v => @Write.mem_items_apply write db I k r v valid
  unfold Authored at authored ⊢
  simp only [effect]
  cases write with
  | removeList list us =>
    by_cases here : list.items_id = I.val
    · simp [here]
    · simpa [here] using authored
  | removeItem item =>
    by_cases here : item.itemsId = I.val ∧ item.id = k
    · simp [here]
    · simpa only [here, false_and, not_false_eq_true, true_and, false_or] using authored
  | addNewItem list newItemKey title authorId =>
    by_cases here : list.items_id = I.val ∧ newItemKey = k
    · refine .inr ⟨list, title, authorId, here.2 ▸ asked, here.1, ?_⟩
      simp [here, itemFields]
    · simpa only [here, false_and, not_false_eq_true, true_and, false_or] using authored
  | reverseChecked item userId =>
    by_cases here : item.itemsId = I.val ∧ item.id = k
    · simpa [here, reversedFields] using authored
    · simpa only [here, false_and, not_false_eq_true, true_and, false_or] using authored
  | _ => exact authored

theorem CheckedBy.apply {done : List Action} {db : Database} {write : Write} (valid : write.Valid) (asked : Asked done write)
    {I k : Key} (checkedBy : CheckedBy done db I k) : CheckedBy done (write.apply db) I k := by
  have effect := fun r v => @Write.mem_items_apply write db I k r v valid
  unfold CheckedBy at checkedBy ⊢
  simp only [effect]
  cases write with
  | removeList list us =>
    by_cases here : list.items_id = I.val
    · exact ⟨false, "", by simp [here]⟩
    · simpa [here] using checkedBy
  | removeItem item =>
    by_cases here : item.itemsId = I.val ∧ item.id = k
    · exact ⟨false, "", by simp [here]⟩
    · simpa only [here, false_and, not_false_eq_true, true_and, false_or] using checkedBy
  | addNewItem list newItemKey title authorId =>
    by_cases here : list.items_id = I.val ∧ newItemKey = k
    · exact ⟨false, "NONE", by simp [here, itemFields]⟩
    · simpa only [here, false_and, not_false_eq_true, true_and, false_or] using checkedBy
  | reverseChecked item userId =>
    by_cases here : item.itemsId = I.val ∧ item.id = k
    · refine ⟨!item.checked, if !item.checked then userId.val else "NONE", by simp [here, reversedFields],
        by simp [here, reversedFields], fun isChecked => ?_⟩
      refine ⟨item, userId, asked, here.1, here.2, by simpa using isChecked, if_pos isChecked⟩
    · simpa only [here, false_and, not_false_eq_true, true_and, false_or] using checkedBy
  | _ => exact checkedBy

theorem Invited.apply {start : Database} {done : List Action} {db : Database} {write : Write} (asked : Asked done write)
    {u L : Key} (invited : Invited start done db u L) : Invited start done (write.apply db) u L := by
  by_cases sends : ∃ myEmail message, write = .sendInvitation u L myEmail message
  · obtain ⟨myEmail, message, rfl⟩ := sends
    obtain ⟨email, member⟩ := asked
    refine .inr (.inr ⟨email, myEmail, message, member, ?_⟩)
    simp only [Write.apply, Write.data, updateChildValues, Update.changes, Tree.update, List.map_cons, List.map_nil,
      List.foldl_cons, List.foldl_nil, segments_invitationPath, invitationDbRef_key, Tree.sub_put]
    rfl
  · by_cases removes : write = .removeInvitation u L
    · subst removes
      refine .inr (.inl ?_)
      simp only [Write.apply, Write.data, updateChildValues, Update.changes, Tree.update, List.map_cons, List.map_nil,
        List.foldl_cons, List.foldl_nil, segments_invitationPath, invitationDbRef_key, Tree.sub_put]
    · have frame := Write.invitation_frame db (fun myEmail message same => sends ⟨myEmail, message, same⟩) removes
      unfold Invited
      rw [frame]
      exact invited

namespace Accounted

theorem start {w : World} (initial : Initial w) : Accounted w.db [] w := by
  have nowhere : ∀ {q : List Key} {v : Value}, (q, v) ∈ w.db.leaves →
      (∃ I r, q = Keys.items :: I :: Keys.items :: r) ∨ (∃ u r, q = Keys.users :: u :: Keys.lists :: r) → False := by
    intro q v leaf path
    obtain ⟨u, field, s, same, notLists⟩ := initial.users _ leaf
    rcases path with ⟨I, r, rfl⟩ | ⟨other, r, rfl⟩
    · simp at same
    · simp at same
      exact notLists same.2.1.symm
  refine ⟨Sound.start initial, by simp [initial.inflight], by simp [initial.calls], ?_, ?_, ?_, fun u L => .inl rfl⟩
  · exact fun u L r v leaf => (nowhere leaf (.inr ⟨_, _, rfl⟩)).elim
  · exact fun I k => .inl fun r v => ⟨fun leaf => nowhere leaf (.inl ⟨_, _, rfl⟩), fun leaf => nowhere leaf (.inl ⟨_, _, rfl⟩)⟩
  · refine fun I k => ⟨false, "", ?_, ?_, by simp⟩
    · exact fun r v leaf => (nowhere leaf (.inl ⟨_, _, rfl⟩)).elim
    · exact fun r v leaf => (nowhere leaf (.inl ⟨_, _, rfl⟩)).elim

theorem step {begun : Database} {done : List Action} {w t : World} {action : Action} (accounted : Accounted begun done w)
    (stepped : SharedList.step w action = some t) : Accounted begun (done ++ [action]) t := by
  have earlier : ∀ other ∈ done, other ∈ done ++ [action] := fun _ member => List.mem_append_left _ member
  have now : action ∈ done ++ [action] := by simp
  have asked : ∀ write ∈ t.inflight, Asked (done ++ [action]) write := by
    intro write waiting
    rcases step_issued stepped waiting with old | issues
    · exact (accounted.asked write old).mono earlier
    · exact issues.asked now
  have calls : ∀ call ∈ t.calls, .addNewList call ∈ done ++ [action] := by
    intro call called
    rcases step_cases stepped with ⟨other, rfl, rfl⟩ | ⟨write, signedIn, rfl, _⟩ | same
    · rcases List.mem_cons.mp called with rfl | old
      · exact now
      · exact earlier _ (accounted.calls call old)
    · obtain ⟨_, rfl⟩ := step_applied stepped
      exact earlier _ (accounted.calls call called)
    · rw [same.2] at called
      exact earlier _ (accounted.calls call called)
  rcases step_db stepped with same | ⟨write, signedIn, rfl, inFlight⟩
  · refine ⟨accounted.sound.step stepped, asked, calls, ?_, ?_, ?_, ?_⟩
    all_goals rw [same]
    · exact fun u L r v leaf => (accounted.joined u L r v leaf).mono earlier
    · exact fun I k => (accounted.authored I k).mono earlier
    · exact fun I k => (accounted.checkedBy I k).mono earlier
    · exact fun u L => (accounted.invited u L).mono earlier
  · obtain ⟨_, rfl⟩ := step_applied stepped
    have valid := accounted.sound.valid inFlight
    have origin := accounted.asked write inFlight
    refine ⟨accounted.sound.step stepped, asked, calls, ?_, ?_, ?_, ?_⟩
    · exact fun u L r v leaf => (Joined.apply valid origin accounted.joined u L r v leaf).mono earlier
    · exact fun I k => ((accounted.authored I k).apply valid origin).mono earlier
    · exact fun I k => ((accounted.checkedBy I k).apply valid origin).mono earlier
    · exact fun u L => ((accounted.invited u L).apply origin).mono earlier

end Accounted

/-- Whoever has a list made it or accepted it; every list record is that of a call of `AddNewList`,
    every item that of a call of `AddNewItem` and checked by a user who checked it, and every
    invitation that was not there from the start is that of a call of `SendInvitation`. -/
theorem stored_as_asked {start t : World} (initial : Initial start) {actions : List Action}
    (run : Runs.exec step start actions = some t) :
    (∀ u L : Key, t.db.Present (child (userListsDbRef u.val) L.val) → Joined actions u L) ∧
    (∀ (L : Key) list, ListObject.read L (t.db.sub (listDbRef L.val)) = some list →
      ∃ call, .addNewList call ∈ actions ∧ list = call.object) ∧
    (∀ (I k : Key) item, Item.deserialize I.val k (t.db.sub (itemDbRef I.val k.val)) = some item →
      (∃ list authorId, .addNewItem list item.title authorId k ∈ actions ∧ list.items_id = I.val ∧ item.authorId = authorId.val) ∧
      (item.checked = true → ∃ copy userId, .reverseChecked copy userId ∈ actions ∧ copy.itemsId = I.val ∧ copy.id = k ∧
        copy.checked = false ∧ item.checkedById = userId.val)) ∧
    ∀ (u L : Key) invitation, Invitation.read L (t.db.sub (invitationDbRef u L)) = some invitation →
      Invitation.read L (start.db.sub (invitationDbRef u L)) = some invitation ∨
      ∃ email, .sendInvitation email u L invitation.user_email invitation.message ∈ actions := by
  have accounted : Accounted start.db actions t :=
    Runs.exec_history (fun _ _ _ _ accounted stepped => Accounted.step accounted stepped) _ (Accounted.start initial) run
  refine ⟨?_, ?_, ?_, ?_⟩
  · intro u L present
    obtain ⟨r, v, leaf⟩ := present_key.mp present
    exact accounted.joined u L r v leaf
  · intro L list read
    rw [listDbRef_key] at read
    obtain ⟨call, called, rfl, _⟩ := accounted.sound.read_stored read
    exact ⟨call, accounted.calls call called, rfl⟩
  · intro I k item decoded
    have fields : ∀ f : ItemKeys, (Keys.items :: I :: Keys.items :: k :: [f.rawValue], item.field f) ∈ t.db.leaves := by
      intro f
      have stored := Tree.at?_eq_some.mp (Item.at?_of_deserialize decoded f)
      rw [Tree.mem_sub, itemDbRef_key] at stored
      exact stored
    constructor
    · rcases accounted.authored I k with none | ⟨list, title, authorId, member, table, atTitle, atAuthor⟩
      · exact absurd (fields .title) (none [] _).1
      · obtain rfl : item.title = title := Value.string.inj (atTitle [] _ (fields .title)).2
        exact ⟨list, authorId, member, table, Value.string.inj (atAuthor [] _ (fields .author_id)).2⟩
    · intro isChecked
      obtain ⟨b, s, atChecked, atBy, origin⟩ := accounted.checkedBy I k
      obtain rfl : item.checked = b := Value.bool.inj (atChecked [] _ (fields .checked))
      obtain ⟨copy, userId, member, table, own, unchecked, name⟩ := origin isChecked
      refine ⟨copy, userId, member, table, own, unchecked, ?_⟩
      rw [← name]
      exact Value.string.inj (atBy [] _ (fields .checked_by_id))
  · intro u L invitation read
    rcases accounted.invited u L with same | none | ⟨email, myEmail, message, member, record⟩
    · rw [same] at read
      exact .inl read
    · rw [none, Invitation.read_of_no_leaves rfl] at read
      cases read
    · rw [record, Invitation.read_record] at read
      cases read
      exact .inr ⟨email, member⟩

/-- Alice makes a list, puts milk on it and checks it. -/
def checkedMilkRun : List Action :=
  open Sample in
  [.addNewList aliceCall, .applied (.addNewList aliceCall) (some alice), .loadList groceries,
   .addNewItem aliceCall.object "Milk" alice milk, .applied (.addNewItem aliceCall.object milk "Milk" alice) (some alice),
   .reverseChecked milkItem alice, .applied (.reverseChecked milkItem alice) (some alice)]

theorem stored_as_asked_checkedMilkRun :
    let actions := checkedMilkRun ++ open Sample in
      [.sendInvitation "alice@mail" alice groceries "alice@mail" "Join", .applied (.sendInvitation alice groceries "alice@mail" "Join") none]
    ∃ t, Runs.exec step (World.registered Sample.alice "alice@mail") actions = some t ∧
      Joined actions Sample.alice Sample.groceries ∧
      (∃ call, .addNewList call ∈ actions ∧ Sample.groceryList = call.object) ∧
      (∃ list authorId, .addNewItem list "Milk" authorId Sample.milk ∈ actions ∧ list.items_id = "groceryItems" ∧ "alice" = authorId.val) ∧
      (∃ copy userId, .reverseChecked copy userId ∈ actions ∧ copy.itemsId = "groceryItems" ∧ copy.id = Sample.milk ∧
        copy.checked = false ∧ "alice" = userId.val) ∧
      ∃ email, .sendInvitation email Sample.alice Sample.groceries "alice@mail" "Join" ∈ actions := by
  intro actions
  let checkedMilk : Item := { Sample.milkItem with checked := true, checkedById := "alice" }
  have reached : (Runs.exec step (World.registered Sample.alice "alice@mail") actions).any (fun t => decide (
      t.db.Present (child (userListsDbRef Sample.alice.val) Sample.groceries.val) ∧
      ListObject.read Sample.groceries (t.db.sub (listDbRef Sample.groceries.val)) = some Sample.groceryList ∧
      Item.deserialize Sample.groceryItems.val Sample.milk (t.db.sub (itemDbRef Sample.groceryItems.val Sample.milk.val)) = some checkedMilk ∧
      Invitation.read Sample.groceries (t.db.sub (invitationDbRef Sample.alice Sample.groceries)) =
        some ⟨Sample.groceries, "alice@mail", "Join"⟩)) = true := by
    decide +kernel
  have notBefore : Invitation.read Sample.groceries
      ((World.registered Sample.alice "alice@mail").db.sub (invitationDbRef Sample.alice Sample.groceries)) = none := by
    decide +kernel
  obtain ⟨t, run, shown⟩ := (Option.any_eq_true _ _).mp reached
  obtain ⟨present, read, decoded, invited⟩ := of_decide_eq_true shown
  obtain ⟨joined, lists, items, invitations⟩ := stored_as_asked (initial_registered Sample.alice "alice@mail") run
  obtain ⟨added, checked⟩ := items _ _ _ decoded
  refine ⟨t, run, joined _ _ present, lists _ _ read, added, checked rfl, ?_⟩
  refine (invitations _ _ _ invited).resolve_left ?_
  rw [notBefore]
  simp

end SharedList
