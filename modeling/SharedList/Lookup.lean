import SharedList.ListRecords

/-!
`GetListById` and the list names of invitations. The reader casts a record to a
dictionary of strings, which no record with a users map is, although the record
is complete.
-/
namespace SharedList
open FrbUtils

/-- What `GetListById` hands to its completion handler; `none` where a forced cast of `Deserialize` fails. -/
def ListsManager.getListById (id : Key) (db : Database) : Option (Option ListObject) :=
  match stringDictionary? (db.sub (listDbRef id.val)) with
  | some listData => (ListObject.deserialize id listData).map some
  | none => some none

/-- The name for an invitation, and the write that `GetListNameForInvitation` issues. -/
def InvitationManager.getListNameForInvitation (invitation : Invitation) (signedIn : Key) (db : Database) :
    Option (Option String × List Write) :=
  (ListsManager.getListById invitation.list_id db).map fun returnedList =>
    match returnedList with
    | some list => (some list.title, [])
    | none => (none, [.removeInvitation signedIn invitation.list_id])

/-- The record is handed over, with its fields, exactly when it is there, and an
    invitation is removed only when its list is gone. -/
structure FindsList (db : Database) (L : Key) : Prop where
  found : ∃ answer, ListsManager.getListById L db = some answer ∧ (answer.isSome ↔ db.Present (listDbRef L.val)) ∧
    ∀ list, answer = some list → list.id = L ∧ stringAt (db.sub (listDbRef L.val)) Keys.title = some list.title ∧
      stringAt (db.sub (listDbRef L.val)) Keys.owner_id = some list.owner_id ∧
      stringAt (db.sub (listDbRef L.val)) Keys.items_id = some list.items_id
  kept : ∀ invitation signedIn name writes, invitation.list_id = L →
    InvitationManager.getListNameForInvitation invitation signedIn db = some (name, writes) →
    (name = none ∨ .removeInvitation signedIn L ∈ writes) → ¬ db.Present (listDbRef L.val)

theorem stringDictionary?_of_nested {data : Snapshot} {j k : Key} {r : List Key} {v : Value}
    (nested : (j :: k :: r, v) ∈ data.leaves) : stringDictionary? data = none := by
  rw [stringDictionary?, if_neg]
  rintro ⟨_, flat, _⟩
  have short := (flat _ nested).1
  simp at short

theorem stringDictionary?_of_flat {data : Snapshot} (filled : data.leaves ≠ [])
    (flat : ∀ q v, (q, v) ∈ data.leaves → q.length = 1 ∧ v.asString.isSome) (noArray : ¬ ExportsArray data) :
    stringDictionary? data = some data := by
  rw [stringDictionary?, if_pos]
  exact ⟨filled, fun l member => flat l.1 l.2 member, noArray⟩

/-- A record with a users map is not found. -/
theorem Sound.getListById_of_users {w : World} (sound : Sound w) {L : Key}
    (users : w.db.Present (listUsersDbRef L.val)) : ListsManager.getListById L w.db = some none := by
  rw [listUsersDbRef_key] at users
  obtain ⟨r, v, leaf⟩ := Tree.present_iff.mp users
  obtain ⟨call, called, rfl, inRecord⟩ := sound.stored _ _ _ leaf
  simp [serializedList_leaves] at inRecord
  obtain ⟨name, _, path, _⟩ := inRecord
  have nested : (Keys.users :: call.userId :: [], v) ∈ (w.db.sub (listDbRef call.newListKey.val)).leaves := by
    rw [Tree.mem_sub, listDbRef_key, path]
    exact leaf
  rw [ListsManager.getListById, stringDictionary?_of_nested nested]

/-- A record stored without users map is found. -/
theorem Sound.getListById_of_call {w : World} (sound : Sound w) {call : NewList} (called : call ∈ w.calls)
    (present : w.db.Present [Keys.lists, call.newListKey]) (noUsers : ¬ w.db.Present (listUsersDbRef call.newListKey.val)) :
    ListsManager.getListById call.newListKey w.db = some (some call.object) := by
  have unnamed : call.name = none := by
    by_contra named
    obtain ⟨name, named⟩ := Option.ne_none_iff_exists'.mp named
    refine noUsers (Tree.present_iff.mpr ⟨[call.userId], .string name, ?_⟩)
    rw [listUsersDbRef_key]
    exact (sound.member_iff called).mpr ⟨present, rfl, name, named, rfl⟩
  have read := ListObject.read_eq_some.mp (sound.read_object called present)
  have flat : ∀ q v, (q, v) ∈ (w.db.sub [Keys.lists, call.newListKey]).leaves → q.length = 1 ∧ v.asString.isSome := by
    intro q v leaf
    rw [Tree.mem_sub] at leaf
    have inRecord := sound.record called leaf
    simp [serializedList_leaves, unnamed] at inRecord
    rcases inRecord with ⟨rfl, rfl⟩ | ⟨rfl, rfl⟩ | ⟨rfl, rfl⟩ <;> simp [Value.asString]
  have title := stringAt_eq_some.mp (ListObject.deserialize_eq_some.mp read).2.1
  have noArray : ¬ ExportsArray (w.db.sub [Keys.lists, call.newListKey]) :=
    not_exportsArray_of_key (Tree.mem_childKeys.mpr ⟨_, title, ⟨[], rfl⟩⟩) (by decide)
  rw [ListsManager.getListById, listDbRef_key, stringDictionary?_of_flat (List.ne_nil_of_mem title) flat noArray]
  simp only [read, Option.map_some]

/-- No record, no list. -/
theorem getListById_of_absent {db : Database} {L : Key} (absent : ¬ db.Present (listDbRef L.val)) :
    ListsManager.getListById L db = some none := by
  have nothing : (db.sub (listDbRef L.val)).leaves = [] := by
    refine List.eq_nil_iff_forall_not_mem.mpr ?_
    rintro ⟨q, v⟩ leaf
    rw [Tree.mem_sub] at leaf
    exact absent (Tree.present_iff.mpr ⟨q, v, leaf⟩)
  rw [ListsManager.getListById, stringDictionary?, if_neg (fun both => both.1 nothing)]

/-- In every reachable state exactly the records without users map, and the missing ones, are looked up rightly. -/
theorem finds_list_iff {w : World} (reachable : Reachable w) (L : Key) :
    FindsList w.db L ↔ ¬ w.db.Present (listUsersDbRef L.val) := by
  have sound := reachable.sound
  constructor
  · intro finds users
    obtain ⟨answer, looked, right, _⟩ := finds.found
    have present : w.db.Present (listDbRef L.val) := by
      rw [listUsersDbRef_key] at users
      rw [listDbRef_key]
      exact Tree.present_of_below [Keys.users] users
    rw [sound.getListById_of_users users] at looked
    cases looked
    simpa using right.mpr present
  · intro noUsers
    by_cases present : w.db.Present (listDbRef L.val)
    · have stored := present
      rw [listDbRef_key] at stored
      obtain ⟨call, called, rfl⟩ := sound.called_of_present stored
      have looked := sound.getListById_of_call called stored noUsers
      have read := ListObject.read_eq_some.mp (sound.read_object called stored)
      constructor
      · refine ⟨_, looked, iff_of_true rfl present, ?_⟩
        rintro list ⟨⟩
        rw [listDbRef_key]
        exact ListObject.deserialize_eq_some.mp read
      · rintro invitation signedIn name writes same reported gone
        rw [InvitationManager.getListNameForInvitation, same, looked] at reported
        cases reported
        simp at gone
    · have looked := getListById_of_absent present
      exact ⟨⟨none, looked, iff_of_false (by simp) present, by simp⟩, fun _ _ _ _ _ _ _ => present⟩

/-- Alice makes a list while her name is known. -/
def namedListRun : List Action :=
  [.addNewList Sample.aliceCall, .applied (.addNewList Sample.aliceCall) (some Sample.alice)]

theorem stored_list_not_found : ¬ ∀ w, Reachable w → ∀ L, FindsList w.db L := by
  intro claim
  have passed : (Runs.exec step (World.registered Sample.alice "alice@mail") namedListRun).any (fun w => decide
      (w.db.Present (listDbRef Sample.groceries.val) ∧
        ListsManager.getListById Sample.groceries w.db = some none)) = true := by
    decide +kernel
  obtain ⟨w, reached, test⟩ := (Option.any_eq_true _ _).mp passed
  obtain ⟨present, looked⟩ := of_decide_eq_true test
  obtain ⟨⟨answer, same, right, _⟩, _⟩ := claim w ⟨_, _, initial_registered .., reached⟩ Sample.groceries
  rw [looked] at same
  cases same
  simpa using right.mpr present

theorem finds_list_iff_namedListRun :
    ∃ w, Runs.exec step (World.registered Sample.alice "alice@mail") namedListRun = some w ∧
      (FindsList w.db Sample.groceries ↔ ¬ w.db.Present (listUsersDbRef Sample.groceries.val)) := by
  have runs : (Runs.exec step (World.registered Sample.alice "alice@mail") namedListRun).isSome := by decide +kernel
  obtain ⟨w, reached⟩ := Option.isSome_iff_exists.mp runs
  exact ⟨w, reached, finds_list_iff ⟨_, _, initial_registered .., reached⟩ Sample.groceries⟩

end SharedList
