import SharedList.Clients

/-!
The records under `lists` in every reachable state: each is exactly what one
call of `AddNewList` stored, the calls never share an id, and every `List`
object, pending removal and write in flight belongs to such a call.
-/
namespace SharedList
open FrbUtils

/-- What the state says of a write in flight. -/
def Issued (w : World) : Write → Prop
  | .addNewList call => call ∈ w.calls
  | .removeList list usersDict => list ∈ w.loaded ∧ usersDict.Nodup ∧ ∀ u, u ∈ usersDict ↔ u.val = list.owner_id
  | .addNewItem list _ _ _ => list ∈ w.loaded
  | .removeItem item => w.Open item.itemsId
  | .reverseChecked item _ => w.Open item.itemsId
  | _ => True

structure Sound (w : World) : Prop where
  listKeys : ∀ a ∈ w.calls, ∀ b ∈ w.calls, a.newListKey = b.newListKey → a = b
  itemsKeys : ∀ a ∈ w.calls, ∀ b ∈ w.calls, a.newItemsKey = b.newItemsKey → a = b
  /-- Nothing else lies under `lists/L` than the record of the call for `L`. -/
  stored : ∀ L r v, (Keys.lists :: L :: r, v) ∈ w.db.leaves →
    ∃ call ∈ w.calls, call.newListKey = L ∧ (r, v) ∈ call.serializedList.leaves
  complete : ∀ call ∈ w.calls, w.db.Present [Keys.lists, call.newListKey] →
    ∀ r v, (r, v) ∈ call.serializedList.leaves → (Keys.lists :: call.newListKey :: r, v) ∈ w.db.leaves
  issued : ∀ write ∈ w.inflight, Issued w write
  once : ∀ call, w.inflight.count (.addNewList call) ≤ 1
  absent : ∀ call, .addNewList call ∈ w.inflight → ¬ w.db.Present [Keys.lists, call.newListKey]
  known : ∀ list ∈ w.loaded, ∃ call ∈ w.calls, list = call.object ∧ .addNewList call ∉ w.inflight
  reading : ∀ list ∈ w.removals, list ∈ w.loaded

theorem present_lists {db : Database} {L : Key} :
    db.Present [Keys.lists, L] ↔ ∃ r v, (Keys.lists :: L :: r, v) ∈ db.leaves := Tree.present_iff

/-- What is said of a write stays true while calls and loaded objects are added. -/
theorem Issued.mono {w t : World} (calls : ∀ call ∈ w.calls, call ∈ t.calls)
    (loaded : ∀ list ∈ w.loaded, list ∈ t.loaded) {write : Write} (issued : Issued w write) : Issued t write := by
  cases write with
  | addNewList call => exact calls call issued
  | removeList list usersDict => exact ⟨loaded list issued.1, issued.2⟩
  | addNewItem list => exact loaded list issued
  | removeItem item =>
    obtain ⟨list, member, table⟩ := issued
    exact ⟨list, loaded list member, table⟩
  | reverseChecked item =>
    obtain ⟨list, member, table⟩ := issued
    exact ⟨list, loaded list member, table⟩
  | sendInvitation | acceptInvitation | removeInvitation => trivial

namespace Sound

theorem start {w : World} (initial : Initial w) : Sound w where
  listKeys := by simp [initial.calls]
  itemsKeys := by simp [initial.calls]
  stored := by
    intro L r v member
    obtain ⟨u, field, s, path, _⟩ := initial.users _ member
    simp at path
  complete := by simp [initial.calls]
  issued := by simp [initial.inflight]
  once := by simp [initial.inflight]
  absent := by simp [initial.inflight]
  known := by simp [initial.loaded]
  reading := by simp [initial.removals]

theorem open_table {w : World} (sound : Sound w) {itemsId : String} (isOpen : w.Open itemsId) :
    ∃ I : Key, itemsId = I.val := by
  obtain ⟨list, member, rfl⟩ := isOpen
  obtain ⟨call, _, rfl, _⟩ := sound.known list member
  exact ⟨call.newItemsKey, rfl⟩

theorem valid {w : World} (sound : Sound w) {write : Write} (member : write ∈ w.inflight) : write.Valid := by
  have issued := sound.issued write member
  cases write with
  | removeList list usersDict => exact ⟨sound.open_table ⟨list, issued.1, rfl⟩, issued.2.1⟩
  | addNewItem list => exact sound.open_table ⟨list, issued, rfl⟩
  | removeItem item => exact sound.open_table issued
  | reverseChecked item => exact sound.open_table issued
  | addNewList | sendInvitation | acceptInvitation | removeInvitation => trivial

/-- Under the id of a call lies nothing but its record. -/
theorem record {w : World} (sound : Sound w) {call : NewList} (called : call ∈ w.calls) {r : List Key} {v : Value}
    (member : (Keys.lists :: call.newListKey :: r, v) ∈ w.db.leaves) : (r, v) ∈ call.serializedList.leaves := by
  obtain ⟨other, otherCalled, key, inRecord⟩ := sound.stored _ _ _ member
  rwa [sound.listKeys other otherCalled call called key] at inRecord

/-- A stored record decodes to the object of its call. -/
theorem read_stored {w : World} (sound : Sound w) {L : Key} {list : ListObject}
    (read : ListObject.read L (w.db.sub [Keys.lists, L]) = some list) :
    ∃ call ∈ w.calls, list = call.object ∧ w.db.Present [Keys.lists, L] := by
  obtain ⟨rfl, title, owner, items⟩ := ListObject.deserialize_eq_some.mp (ListObject.read_eq_some.mp read)
  rw [stringAt_eq_some, Tree.mem_sub] at title owner items
  obtain ⟨call, called, key, _⟩ := sound.stored _ _ _ title
  refine ⟨call, called, ?_, _, title, ⟨_, rfl⟩⟩
  simp only [List.cons_append, List.nil_append, ← key] at title owner items
  have inRecord := sound.record called title
  have ownerInRecord := sound.record called owner
  have itemsInRecord := sound.record called items
  simp [serializedList_leaves] at inRecord ownerInRecord itemsInRecord
  cases list
  simp_all [NewList.object]

/-- The record of a call, where it is stored, decodes to the call's object. -/
theorem read_object {w : World} (sound : Sound w) {call : NewList} (called : call ∈ w.calls)
    (present : w.db.Present [Keys.lists, call.newListKey]) :
    ListObject.read call.newListKey (w.db.sub [Keys.lists, call.newListKey]) = some call.object := by
  have stored := sound.complete call called present
  rw [ListObject.read_eq_some, ListObject.deserialize_eq_some]
  simp only [stringAt_eq_some, Tree.mem_sub]
  refine ⟨rfl, stored _ _ ?_, stored _ _ ?_, stored _ _ ?_⟩
  · simp [serializedList_leaves, NewList.object]
  · simp [serializedList_leaves, NewList.object]
  · simp [serializedList_leaves, NewList.object]

/-- A stored record is that of some call. -/
theorem called_of_present {w : World} (sound : Sound w) {L : Key} (present : w.db.Present [Keys.lists, L]) :
    ∃ call ∈ w.calls, call.newListKey = L := by
  obtain ⟨r, v, leaf⟩ := present_lists.mp present
  obtain ⟨call, called, key, _⟩ := sound.stored L r v leaf
  exact ⟨call, called, key⟩

/-- Whom the users map of a stored record names, and how. -/
theorem member_iff {w : World} (sound : Sound w) {call : NewList} (called : call ∈ w.calls) {u : Key} {v : Value} :
    (Keys.lists :: call.newListKey :: Keys.users :: [u], v) ∈ w.db.leaves ↔
      w.db.Present [Keys.lists, call.newListKey] ∧ u = call.userId ∧ ∃ name, call.name = some name ∧ v = .string name := by
  constructor
  · intro leaf
    have inRecord := sound.record called leaf
    simp [serializedList_leaves] at inRecord
    obtain ⟨name, named, rfl, rfl⟩ := inRecord
    exact ⟨present_lists.mpr ⟨_, _, leaf⟩, rfl, name, named, rfl⟩
  · rintro ⟨present, rfl, name, named, rfl⟩
    exact sound.complete call called present _ _ (by simp [serializedList_leaves, named])

/-- The users map that `RemoveList` reads names the owner and nobody else. -/
theorem users_stored {w : World} (sound : Sound w) {call : NewList} (called : call ∈ w.calls) {usersDict : Snapshot}
    (read : dictionary? (w.db.sub [Keys.lists, call.newListKey, Keys.users]) = some usersDict) (u : Key) :
    u ∈ usersDict.childKeys ↔ u = call.userId := by
  obtain ⟨rfl, nonempty⟩ := dictionary?_eq_some read
  have named : ∀ q v, (Keys.lists :: call.newListKey :: Keys.users :: q, v) ∈ w.db.leaves → q = [call.userId] := by
    intro q v member
    have inRecord := sound.record called member
    simp [serializedList_leaves] at inRecord
    obtain ⟨_, _, path, _⟩ := inRecord
    exact path.symm
  rw [Tree.mem_childKeys, Tree.present_sub, Tree.present_iff]
  constructor
  · rintro ⟨r, v, member⟩
    have only := named (u :: r) v member
    simp at only
    exact only.1
  · rintro rfl
    obtain ⟨⟨q, v⟩, member⟩ := List.exists_mem_of_ne_nil _ nonempty
    rw [Tree.mem_sub] at member
    rw [named q v member] at member
    exact ⟨[], v, member⟩

/-- Issuing a write other than `AddNewList` keeps the state sound. -/
theorem issue {w : World} (sound : Sound w) {write : Write} (fresh : ∀ call, write ≠ .addNewList call)
    (issued : Issued w write) : Sound (w.issue write) := by
  have sameAdds : ∀ call, .addNewList call ∈ (w.issue write).inflight → .addNewList call ∈ w.inflight := by
    intro call member
    rcases List.mem_append.mp member with old | new
    · exact old
    · exact absurd (List.mem_singleton.mp new).symm (fresh call)
  refine { sound with issued := ?_, once := ?_, absent := ?_, known := ?_ }
  · intro other member
    rcases List.mem_append.mp member with old | new
    · exact (sound.issued other old).mono (fun _ h => h) (fun _ h => h)
    · rw [List.mem_singleton.mp new]
      exact issued.mono (fun _ h => h) (fun _ h => h)
  · intro call
    have none : [write].count (.addNewList call) = 0 := by simp [fresh call]
    simpa [World.issue, List.count_append, none] using sound.once call
  · exact fun call member => sound.absent call (sameAdds call member)
  · intro list member
    obtain ⟨call, called, rfl, done⟩ := sound.known list member
    exact ⟨call, called, rfl, fun waiting => done (sameAdds call waiting)⟩

/-- What applying a write in flight leaves under `lists`. -/
theorem present_apply {w : World} (sound : Sound w) {write : Write} {L : Key} : write ∈ w.inflight →
    ((write.apply w.db).Present [Keys.lists, L] ↔
      match write with
      | .addNewList call => call.newListKey = L ∨ w.db.Present [Keys.lists, L]
      | .removeList list _ => list.id ≠ L ∧ w.db.Present [Keys.lists, L]
      | _ => w.db.Present [Keys.lists, L]) := by
  intro member
  have effect := fun r v => @Write.mem_lists_apply write w.db L r v (sound.valid member)
  simp only [present_lists, effect]
  cases write with
  | addNewList call =>
    by_cases same : call.newListKey = L
    · have filled : ([Keys.title], Value.string call.title) ∈ call.serializedList.leaves := by
        simp [serializedList_leaves]
      simp only [same, true_and, true_or, iff_true]
      exact ⟨_, _, .inl filled⟩
    · simp [same]
  | removeList list usersDict => simp only [ne_eq, exists_and_left]
  | _ => rfl

/-- Taking a write out of flight keeps the state sound. -/
theorem rejected {w : World} (sound : Sound w) (write : Write) :
    Sound { w with inflight := w.inflight.erase write } := by
  refine { sound with issued := ?_, once := ?_, absent := ?_, known := ?_ }
  · exact fun other inRest => sound.issued other (List.mem_of_mem_erase inRest)
  · exact fun call => (List.Sublist.count_le _ List.erase_sublist).trans (sound.once call)
  · exact fun call waiting => sound.absent call (List.mem_of_mem_erase waiting)
  · intro list inLoaded
    obtain ⟨call, called, rfl, done⟩ := sound.known list inLoaded
    exact ⟨call, called, rfl, fun waiting => done (List.mem_of_mem_erase waiting)⟩

/-- Applying a write in flight keeps the state sound. -/
theorem applied {w : World} (sound : Sound w) {write : Write} (member : write ∈ w.inflight) :
    Sound { w with db := write.apply w.db, inflight := w.inflight.erase write } := by
  have effect := fun L r v => @Write.mem_lists_apply write w.db L r v (sound.valid member)
  refine { sound.rejected write with stored := ?_, complete := ?_, absent := ?_ }
  · intro L r v leaf
    rw [effect] at leaf
    cases write with
    | addNewList call =>
      rcases leaf with ⟨rfl, inRecord⟩ | ⟨_, old⟩
      · exact ⟨call, sound.issued _ member, rfl, inRecord⟩
      · exact sound.stored L r v old
    | removeList list usersDict => exact sound.stored L r v leaf.2
    | _ => exact sound.stored L r v leaf
  · intro call called present r v inRecord
    rw [sound.present_apply member] at present
    rw [effect]
    cases write with
    | addNewList other =>
      by_cases same : other.newListKey = call.newListKey
      · rw [sound.listKeys other (sound.issued _ member) call called same]
        exact .inl ⟨rfl, inRecord⟩
      · exact .inr ⟨same, sound.complete call called (present.resolve_left same) r v inRecord⟩
    | removeList list usersDict => exact ⟨present.1, sound.complete call called present.2 r v inRecord⟩
    | _ => exact sound.complete call called present r v inRecord
  · intro call waiting
    have inFlight := List.mem_of_mem_erase waiting
    rw [sound.present_apply member]
    cases write with
    | addNewList other =>
      rintro (same | present)
      · -- The applied write was the only one for this id.
        obtain rfl := sound.listKeys other (sound.issued _ member) call (sound.issued _ inFlight) same
        have alone := sound.once other
        have remains := List.count_pos_iff.mpr waiting
        rw [List.count_erase_self] at remains
        omega
      · exact sound.absent call inFlight present
    | removeList list usersDict => exact fun present => sound.absent call inFlight present.2
    | _ => exact sound.absent call inFlight

theorem completed {w : World} (sound : Sound w) (write : Write) (signedIn : Option Key) :
    Sound { w with inflight := w.inflight ++ completion write signedIn } := by
  unfold completion
  split
  · exact sound.issue (by simp) trivial
  · simpa using sound

/-- A call whose id no earlier call got leaves the ids of the calls distinct. -/
theorem distinct_cons {id : NewList → Key} {call : NewList} {calls : List NewList}
    (others : ∀ other ∈ calls, id other ≠ id call) (distinct : ∀ a ∈ calls, ∀ b ∈ calls, id a = id b → a = b) :
    ∀ a ∈ call :: calls, ∀ b ∈ call :: calls, id a = id b → a = b := by
  intro a first b second same
  rcases List.mem_cons.mp first with rfl | old
  · rcases List.mem_cons.mp second with rfl | old
    · rfl
    · exact absurd same.symm (others b old)
  · rcases List.mem_cons.mp second with rfl | old'
    · exact absurd same (others a old)
    · exact distinct a old b old' same

/-- A new call of `AddNewList`, whose ids no earlier call got, keeps the state sound. -/
theorem addNewList {w : World} (sound : Sound w) {call : NewList} (listKey : call.newListKey ∉ w.autoIds)
    (itemsKey : call.newItemsKey ∉ w.autoIds) :
    Sound ({ w with calls := call :: w.calls }.issue (.addNewList call)) := by
  have otherList : ∀ other ∈ w.calls, other.newListKey ≠ call.newListKey := by
    intro other called same
    exact listKey (by simp [World.autoIds]; exact .inl ⟨other, called, .inl same.symm⟩)
  have otherItems : ∀ other ∈ w.calls, other.newItemsKey ≠ call.newItemsKey := by
    intro other called same
    exact itemsKey (by simp [World.autoIds]; exact .inl ⟨other, called, .inr same.symm⟩)
  have notCalled : call ∉ w.calls := fun called => otherList call called rfl
  have notPresent : ¬ w.db.Present [Keys.lists, call.newListKey] := by
    rw [present_lists]
    rintro ⟨r, v, leaf⟩
    obtain ⟨other, called, same, _⟩ := sound.stored _ _ _ leaf
    exact otherList other called same
  have notWaiting : .addNewList call ∉ w.inflight := fun waiting => notCalled (sound.issued _ waiting)
  refine ⟨?_, ?_, ?_, ?_, ?_, ?_, ?_, ?_, sound.reading⟩
  · exact distinct_cons otherList sound.listKeys
  · exact distinct_cons otherItems sound.itemsKeys
  · intro L r v leaf
    obtain ⟨other, called, rest⟩ := sound.stored L r v leaf
    exact ⟨other, List.mem_cons_of_mem _ called, rest⟩
  · intro other called present
    rcases List.mem_cons.mp called with rfl | called
    · exact absurd present notPresent
    · exact sound.complete other called present
  · intro write member
    rcases List.mem_append.mp member with old | new
    · refine Issued.mono ?_ ?_ (sound.issued write old)
      · exact fun _ => List.mem_cons_of_mem call
      · exact fun _ h => h
    · rw [List.mem_singleton.mp new]
      exact List.mem_cons_self
  · intro other
    by_cases same : other = call
    · subst same
      simp [World.issue, List.count_append, List.count_eq_zero.mpr notWaiting]
    · have none : [Write.addNewList call].count (.addNewList other) = 0 := by simp [Ne.symm same]
      simpa [World.issue, List.count_append, none] using sound.once other
  · intro other waiting
    rcases List.mem_append.mp waiting with old | new
    · exact sound.absent other old
    · obtain rfl : other = call := by simpa using new
      exact notPresent
  · intro list inLoaded
    obtain ⟨other, called, rfl, done⟩ := sound.known list inLoaded
    refine ⟨other, List.mem_cons_of_mem _ called, rfl, ?_⟩
    intro waiting
    rcases List.mem_append.mp waiting with old | new
    · exact done old
    · obtain rfl : other = call := by simpa using new
      exact notCalled called

/-- A list is loaded only once its record is stored. -/
theorem loadList {w : World} (sound : Sound w) {L : Key} {list : ListObject}
    (read : ListObject.read L (w.db.sub [Keys.lists, L]) = some list) :
    Sound { w with loaded := list :: w.loaded } := by
  obtain ⟨call, called, rfl, present⟩ := sound.read_stored read
  have key : call.newListKey = L := (ListObject.deserialize_eq_some.mp (ListObject.read_eq_some.mp read)).1
  refine { sound with issued := ?_, known := ?_, reading := ?_ }
  · intro write member
    refine Issued.mono ?_ ?_ (sound.issued write member)
    · exact fun _ h => h
    · exact fun _ => List.mem_cons_of_mem call.object
  · intro list inLoaded
    rcases List.mem_cons.mp inLoaded with rfl | inLoaded
    · exact ⟨call, called, rfl, fun waiting => sound.absent call waiting (key ▸ present)⟩
    · exact sound.known list inLoaded
  · exact fun list reading => List.mem_cons_of_mem _ (sound.reading list reading)

theorem step {w t : World} {action : Action} (sound : Sound w) (stepped : step w action = some t) : Sound t := by
  cases action with
  | loadList id =>
    simp only [SharedList.step, Option.bind_eq_bind, Option.bind_eq_some_iff, Option.pure_def, Option.some.injEq,
      listDbRef_key] at stepped
    obtain ⟨list, read, rfl⟩ := stepped
    exact sound.loadList read
  | addNewList call =>
    simp only [SharedList.step, Option.ite_none_right_eq_some, Option.some.injEq] at stepped
    obtain ⟨⟨listKey, itemsKey, _⟩, rfl⟩ := stepped
    exact sound.addNewList listKey itemsKey
  | removeList list =>
    simp only [SharedList.step, Option.ite_none_right_eq_some, Option.some.injEq] at stepped
    obtain ⟨inLoaded, rfl⟩ := stepped
    exact { sound with reading := List.forall_mem_cons.mpr ⟨inLoaded, sound.reading⟩ }
  | removeListUsers list =>
    simp only [SharedList.step, Option.bind_eq_bind, Option.pure_def, Option.ite_none_right_eq_some,
      Option.bind_eq_some_iff, Option.some.injEq, listUsersDbRef_key] at stepped
    obtain ⟨waiting, usersDict, read, rfl⟩ := stepped
    have inLoaded := sound.reading list waiting
    obtain ⟨call, called, rfl, _⟩ := sound.known list inLoaded
    have answered : Sound { w with removals := w.removals.erase call.object } :=
      { sound with reading := fun list reading => sound.reading list (List.mem_of_mem_erase reading) }
    refine answered.issue (by simp) ⟨inLoaded, List.nodup_dedup _, ?_⟩
    intro u
    rw [sound.users_stored called read u]
    exact Key.val_inj.symm
  | addNewItem list title authorId newItemKey =>
    simp only [SharedList.step, Option.ite_none_right_eq_some, Option.some.injEq] at stepped
    obtain ⟨⟨inLoaded, _⟩, rfl⟩ := stepped
    have recorded : Sound { w with itemKeys := newItemKey :: w.itemKeys } := { sound with }
    exact recorded.issue (by simp) inLoaded
  | removeItem item =>
    simp only [SharedList.step, Option.ite_none_right_eq_some, Option.some.injEq] at stepped
    obtain ⟨isOpen, rfl⟩ := stepped
    exact sound.issue (by simp) isOpen
  | reverseChecked item userId =>
    simp only [SharedList.step, Option.ite_none_right_eq_some, Option.some.injEq] at stepped
    obtain ⟨isOpen, rfl⟩ := stepped
    exact sound.issue (by simp) isOpen
  | sendInvitation destinationUserEmail destinationUserId listId myEmail message =>
    simp only [SharedList.step, Option.ite_none_right_eq_some, Option.some.injEq] at stepped
    obtain ⟨_, rfl⟩ := stepped
    exact sound.issue (by simp) trivial
  | acceptInvitation userId listId => cases stepped; exact sound.issue (by simp) trivial
  | removeInvitation userId listId => cases stepped; exact sound.issue (by simp) trivial
  | applied write signedIn =>
    simp only [SharedList.step, Option.ite_none_right_eq_some, Option.some.injEq] at stepped
    obtain ⟨member, rfl⟩ := stepped
    exact (sound.applied member).completed write signedIn
  | rejected write signedIn =>
    simp only [SharedList.step, Option.ite_none_right_eq_some, Option.some.injEq] at stepped
    obtain ⟨_, rfl⟩ := stepped
    exact (sound.rejected write).completed write signedIn

end Sound

theorem Reachable.sound {w : World} (reachable : Reachable w) : Sound w := by
  obtain ⟨start, actions, initial, reached⟩ := reachable
  exact Runs.exec_invariant (fun _ _ _ sound stepped => Sound.step sound stepped) (Sound.start initial) reached

end SharedList
