import SharedList.Clients

/-!
`RemoveList` reads the members of a list and later erases the list, its items and
the members' keys in one write. What other clients write in between is erased
with them where it lies below these nodes; the key that an acceptance makes for
a user who was no member lies elsewhere and stays.
-/
namespace SharedList
open FrbUtils

/-- The users who hold the list's key are those whom the list names. -/
def HoldersListed (db : Database) (L : Key) : Prop :=
  ∀ v : Key, db.Present (child (userListsDbRef v.val) L.val) ↔ db.Present (child (listUsersDbRef L.val) v.val)

/-- Neither the list's own creation nor its removal. -/
def Write.Elsewhere (L : Key) : Write → Prop
  | .addNewList call => call.newListKey ≠ L
  | .removeList other _ => other.id ≠ L
  | _ => True

/-- `RemoveList` with the writes that are applied between its read and its write; `none` where its cast fails. -/
def removeList (db : Database) (list : ListObject) (between : List Write) : Option Database :=
  (dictionary? (db.sub (listUsersDbRef list.id.val))).map fun usersDict =>
    (Write.removeList list usersDict.childKeys).apply (applyAll db between)

/-- The list has left no trace, and everything else is as it was before the write. -/
structure Removed (list : ListObject) (before after : Database) : Prop where
  record : ¬ after.Present (listDbRef list.id.val)
  table : ¬ after.Present (itemsDbRef list.items_id)
  keys : ∀ v : Key, ¬ after.Present (child (userListsDbRef v.val) list.id.val)
  otherLists : ∀ M : Key, M ≠ list.id → after.sub (listDbRef M.val) = before.sub (listDbRef M.val)
  otherTables : ∀ J : Key, J.val ≠ list.items_id → after.sub (itemsDbRef J.val) = before.sub (itemsDbRef J.val)
  otherKeys : ∀ v M : Key, M ≠ list.id →
    after.sub (child (userListsDbRef v.val) M.val) = before.sub (child (userListsDbRef v.val) M.val)

/-- A write elsewhere takes no key of the list away, and only an acceptance makes one. -/
theorem present_key_apply {db : Database} {write : Write} {v L : Key} (valid : write.Valid) (elsewhere : write.Elsewhere L) :
    (write.apply db).Present (child (userListsDbRef v.val) L.val) ↔
      write = .acceptInvitation v L ∨ db.Present (child (userListsDbRef v.val) L.val) := by
  have effect := fun r x => @Write.mem_keys_apply write db v L r x valid
  simp only [present_key, effect]
  cases write with
  | addNewList call => simp [show call.newListKey ≠ L from elsewhere]
  | removeList other usersDict => simp [show other.id ≠ L from elsewhere]
  | acceptInvitation userId listId =>
    by_cases here : userId = v ∧ listId = L
    · simp [here]
    · have other : Write.acceptInvitation userId listId ≠ .acceptInvitation v L := by simpa using here
      simp [here, other]
  | _ => simp

theorem present_key_applyAll {writes : List Write} {L : Key} (elsewhere : ∀ write ∈ writes, write.Valid ∧ write.Elsewhere L)
    {db : Database} {v : Key} : (applyAll db writes).Present (child (userListsDbRef v.val) L.val) ↔
      .acceptInvitation v L ∈ writes ∨ db.Present (child (userListsDbRef v.val) L.val) := by
  induction writes generalizing db with
  | nil => simp [applyAll]
  | cons write rest ih =>
    obtain ⟨⟨valid, first⟩, later⟩ := List.forall_mem_cons.mp elsewhere
    have unfolded : applyAll db (write :: rest) = applyAll (write.apply db) rest := rfl
    rw [unfolded, ih later, present_key_apply valid first, List.mem_cons, eq_comm (a := Write.acceptInvitation v L)]
    tauto

/-- What the write of `RemoveList` leaves of the keys of its list. -/
theorem present_key_removeList {db : Database} {list : ListObject} {usersDict : List Key}
    (valid : (Write.removeList list usersDict).Valid) {v : Key} :
    ((Write.removeList list usersDict).apply db).Present (child (userListsDbRef v.val) list.id.val) ↔
      v ∉ usersDict ∧ db.Present (child (userListsDbRef v.val) list.id.val) := by
  have effect := fun r x => @Write.mem_keys_apply (.removeList list usersDict) db v list.id r x valid
  simp only [present_key, effect]
  simp

/-- Whatever happened before, the write erases the list and its items and leaves other records alone. -/
theorem removed_frame {list : ListObject} {usersDict : List Key} (valid : (Write.removeList list usersDict).Valid)
    (before : Database)
    (keys : ∀ v : Key, ¬ ((Write.removeList list usersDict).apply before).Present (child (userListsDbRef v.val) list.id.val)) :
    Removed list before ((Write.removeList list usersDict).apply before) := by
  obtain ⟨⟨I, table⟩, _⟩ := id valid
  have untouched : ∀ p, (∀ c ∈ (removeListUpdate list usersDict).changes, Apart p c.1) →
      ((Write.removeList list usersDict).apply before).sub p = before.sub p := fun p apart => Tree.sub_update before apart
  simp only [removeList_changes, table, segments_key] at untouched
  refine ⟨?_, ?_, keys, ?_, ?_, ?_⟩
  · rw [listDbRef_key, Tree.present_iff]
    rintro ⟨r, v, leaf⟩
    exact ((Write.mem_lists_apply valid).mp leaf).1 rfl
  · rw [table, itemsDbRef_key, Tree.present_iff]
    rintro ⟨r, v, leaf⟩
    rw [Write.mem_apply valid] at leaf
    simp [Write.data, removeList_changes, table] at leaf
  · intro M other
    rw [listDbRef_key]
    refine untouched _ ?_
    simp [Apart, other, Ne.symm other]
  · intro J other
    rw [table, ne_eq, Key.val_inj] at other
    rw [itemsDbRef_key]
    refine untouched _ ?_
    simp [Apart, other, Ne.symm other]
  · intro v M other
    rw [child_key, userListsDbRef_key]
    refine untouched _ ?_
    simp [Apart, other, Ne.symm other]

/-- The call comes to its end, and every trace of the list is gone. -/
def Removes (db : Database) (list : ListObject) (between : List Write) : Prop :=
  ∃ after, removeList db list between = some after ∧ Removed list (applyAll db between) after

/-- `RemoveList`, whose write is applied after any other writes that came in since its
    read, removes every trace of the list exactly when its read brings a map and no user
    has accepted the list since then whom that map does not name. -/
theorem list_removed_iff {db : Database} {list : ListObject} (table : ∃ I : Key, list.items_id = I.val)
    (listed : HoldersListed db list.id) {between : List Write} (elsewhere : ∀ write ∈ between, write.Valid ∧ write.Elsewhere list.id) :
    Removes db list between ↔ (dictionary? (db.sub (listUsersDbRef list.id.val))).isSome ∧
      ∀ v : Key, .acceptInvitation v list.id ∈ between → db.Present (child (listUsersDbRef list.id.val) v.val) := by
  have named : ∀ usersDict, dictionary? (db.sub (listUsersDbRef list.id.val)) = some usersDict →
      ∀ v : Key, v ∈ usersDict.childKeys ↔ db.Present (child (listUsersDbRef list.id.val) v.val) := by
    intro usersDict read v
    rw [(dictionary?_eq_some read).1, Tree.mem_childKeys, Tree.present_sub, child_key]
  have valid : ∀ usersDict : Snapshot, (Write.removeList list usersDict.childKeys).Valid := fun _ => ⟨table, List.nodup_dedup _⟩
  constructor
  · rintro ⟨after, ends, removed⟩
    obtain ⟨usersDict, read, rfl⟩ := Option.map_eq_some_iff.mp ends
    refine ⟨by rw [read]; rfl, ?_⟩
    intro v accepted
    by_contra unnamed
    have holds := (@present_key_applyAll _ _ elsewhere db v).mpr (.inl accepted)
    exact removed.keys v ((present_key_removeList (valid usersDict)).mpr ⟨(named usersDict read v).not.mpr unnamed, holds⟩)
  · rintro ⟨isMap, accepted⟩
    obtain ⟨usersDict, read⟩ := Option.isSome_iff_exists.mp isMap
    refine ⟨_, by rw [removeList, read, Option.map_some], removed_frame (valid usersDict) _ fun v present => ?_⟩
    obtain ⟨unnamed, holds⟩ := (present_key_removeList (valid usersDict)).mp present
    rcases (present_key_applyAll elsewhere).mp holds with late | early
    · exact unnamed ((named usersDict read v).mpr (accepted v late))
    · exact unnamed ((named usersDict read v).mpr ((listed v).mp early))

/-- A list that has just been made is held by its owner, whom it names. -/
theorem holdersListed_addNewList {call : NewList} {name : String} (named : call.name = some name) :
    HoldersListed ((Write.addNewList call).apply Tree.empty) call.newListKey := by
  intro v
  have keys := fun r x => @Write.mem_keys_apply (.addNewList call) Tree.empty v call.newListKey r x trivial
  have records := fun r x => @Write.mem_lists_apply (.addNewList call) Tree.empty call.newListKey r x trivial
  rw [present_key, child_key, listUsersDbRef_key, Tree.present_iff]
  simp only [keys, List.cons_append, List.nil_append, records]
  by_cases owner : call.userId = v
  · simp [owner, serializedList_leaves, named]
  · simp [owner, Ne.symm owner, serializedList_leaves, named, Tree.empty]

/-- The database of the sample runs: one list, with its owner as the only member. -/
def Sample.listDb : Database := (Write.addNewList aliceCall).apply Tree.empty

theorem Sample.listDb_listed : HoldersListed Sample.listDb Sample.aliceCall.object.id :=
  @holdersListed_addNewList aliceCall "Alice" rfl

theorem Sample.listDb_members :
    dictionary? (Sample.listDb.sub (listUsersDbRef Sample.aliceCall.object.id.val)) = some Sample.aliceUsers := by
  decide +kernel

/-- Bob accepts an invitation to the list after Alice's removal of it has read the members. -/
theorem accepted_key_survives : ¬ ∀ (db : Database) (list : ListObject) (between : List Write),
    (∃ I : Key, list.items_id = I.val) → HoldersListed db list.id →
    (∀ write ∈ between, write.Valid ∧ write.Elsewhere list.id) → Removes db list between := by
  intro claim
  obtain ⟨after, ends, removed⟩ := claim Sample.listDb Sample.aliceCall.object
    [.acceptInvitation Sample.bob Sample.groceries] ⟨Sample.groceryItems, rfl⟩ Sample.listDb_listed
    (by simp [Write.Valid, Write.Elsewhere])
  rw [removeList, Sample.listDb_members] at ends
  cases ends
  exact removed.keys Sample.bob (by decide +kernel)

/-- While Alice's removal is under way an item is added to the list, Alice accepts the list, of which she is
    a member, and Bob makes a list of his own. -/
def Sample.meanwhile : List Write :=
  [.addNewItem aliceCall.object milk "Milk" alice, .acceptInvitation alice groceries,
   .addNewList ⟨bob, some "Bob", "Tools", hardware, hardwareItems⟩]

theorem list_removed_iff_meanwhile : Removes Sample.listDb Sample.aliceCall.object Sample.meanwhile := by
  have table : ∃ I : Key, Sample.aliceCall.object.items_id = I.val := ⟨Sample.groceryItems, rfl⟩
  have other : Sample.hardware ≠ Sample.aliceCall.object.id := by decide
  refine (list_removed_iff table Sample.listDb_listed ?_).mpr ⟨by decide +kernel, ?_⟩
  · simp [Sample.meanwhile, Write.Valid, Write.Elsewhere, table, other]
  · intro v accepted
    have names : v = Sample.alice ∧ Sample.aliceCall.object.id = Sample.groceries := by simpa [Sample.meanwhile] using accepted
    rw [names.1]
    decide +kernel

end SharedList
