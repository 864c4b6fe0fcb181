import SharedList.ListRecords

/-!
The item tables under `items` and the lists they belong to. A list record names
its table by `items_id` and the table names its list by `list_id`; `AddNewList`
stores both and `RemoveList` removes both. The writes of items go to paths below
the table without looking whether it is still there, and a late one makes a
table that belongs to no list.
-/
namespace SharedList
open FrbUtils

/-- Every table names a list that is there and whose table it is. -/
def TablesLinked (db : Database) : Prop :=
  ∀ I : Key, db.Present (itemsDbRef I.val) →
    ∃ L : Key, stringAt (db.sub (itemsDbRef I.val)) Keys.list_id = some L.val ∧
      ∃ list, ListObject.read L (db.sub (listDbRef L.val)) = some list ∧ list.items_id = I.val

/-- A write of an item arrives while its table is there. -/
def FindsTable (w : World) : Action → Prop
  | .applied (.addNewItem list _ _ _) _ => w.db.Present (itemsDbRef list.items_id)
  | .applied (.reverseChecked item _) _ => w.db.Present (itemsDbRef item.itemsId)
  | _ => True

namespace Write

/-- The `list_id` of a table: one write sets it, one removes it. -/
theorem mem_listId_apply {write : Write} {db : Database} {I : Key} {r : List Key} {v : Value} :
    write.Valid → ((Keys.items :: I :: Keys.list_id :: r, v) ∈ (write.apply db).leaves ↔
      match write with
      | .addNewList call => (call.newItemsKey = I ∧ r = [] ∧ v = .string call.newListKey.val) ∨
          (call.newItemsKey ≠ I ∧ (Keys.items :: I :: Keys.list_id :: r, v) ∈ db.leaves)
      | .removeList list _ => list.items_id ≠ I.val ∧ (Keys.items :: I :: Keys.list_id :: r, v) ∈ db.leaves
      | _ => (Keys.items :: I :: Keys.list_id :: r, v) ∈ db.leaves) := by
  intro valid
  rw [mem_apply valid]
  cases write with
  | addNewList call =>
    by_cases same : call.newItemsKey = I
    · subst same; simp [data, addNewList_changes]
    · simp [data, addNewList_changes, same, Ne.symm same]
  | removeList list usersDict =>
    obtain ⟨⟨J, table⟩, _⟩ := valid
    simp [data, removeList_changes, table, and_comm]
  | addNewItem list newItemKey title authorId =>
    obtain ⟨J, table⟩ := valid
    simp [data, serialize_changes table, Tree.fieldChanges, itemFields]
  | removeItem item =>
    obtain ⟨J, table⟩ := valid
    simp [data, Update.changes, table]
  | reverseChecked item userId =>
    obtain ⟨J, table⟩ := valid
    simp [data, reverseChecked_changes table, Tree.fieldChanges, reversedFields]
  | sendInvitation => simp [data, Update.changes, segments_invitationPath]
  | acceptInvitation => simp [-String.reduceAppend, data, Update.changes]
  | removeInvitation => simp [data, Update.changes, segments_invitationPath]

/-- The table below which a write puts something, whether it is there or not. -/
def table? : Write → Option String
  | .addNewList call => some call.newItemsKey.val
  | .addNewItem list _ _ _ => some list.items_id
  | .reverseChecked item _ => some item.itemsId
  | _ => none

/-- A table that is there after a write was there before, or the write puts something below it. -/
theorem present_table_of_apply {write : Write} {db : Database} {I : Key} (valid : write.Valid)
    (present : (write.apply db).Present [Keys.items, I]) : write.table? = some I.val ∨ db.Present [Keys.items, I] := by
  obtain ⟨r, v, leaf⟩ := Tree.present_iff.mp present
  rcases (mem_apply valid).mp leaf with ⟨c, member, s, path, below⟩ | ⟨old, _⟩
  · left
    cases write with
    | addNewList call =>
      simp [data, addNewList_changes] at member
      rcases member with rfl | rfl | rfl
      all_goals simp at path
      exact congrArg (some ·.val) path.1.symm
    | removeList list usersDict =>
      simp [data, removeList_changes] at member
      rcases member with rfl | rfl | ⟨u, _, rfl⟩
      all_goals simp at below
    | addNewItem list newItemKey title authorId =>
      obtain ⟨J, table⟩ := valid
      rw [data, serialize_changes table] at member
      obtain ⟨f, _, rfl⟩ := List.mem_map.mp member
      simp at path
      rw [table?, table, path.1]
    | removeItem item =>
      simp [data, Update.changes] at member
      subst member
      simp at below
    | reverseChecked item userId =>
      obtain ⟨J, table⟩ := valid
      rw [data, reverseChecked_changes table] at member
      obtain ⟨f, _, rfl⟩ := List.mem_map.mp member
      simp at path
      rw [table?, table, path.1]
    | sendInvitation =>
      simp [data, Update.changes, segments_invitationPath] at member
      subst member
      simp at path
    | acceptInvitation =>
      simp [-String.reduceAppend, data, Update.changes] at member
      subst member
      simp at path
    | removeInvitation =>
      simp [data, Update.changes, segments_invitationPath] at member
      subst member
      simp at path
  · exact .inr (Tree.present_iff.mpr ⟨r, v, old⟩)

theorem removed_table {list : ListObject} {usersDict : List Key} (valid : (Write.removeList list usersDict).Valid)
    (db : Database) {I : Key} (table : list.items_id = I.val) :
    ¬ ((Write.removeList list usersDict).apply db).Present [Keys.items, I] := by
  intro present
  obtain ⟨r, v, leaf⟩ := Tree.present_iff.mp present
  rw [mem_apply valid] at leaf
  simp [data, removeList_changes, table] at leaf

end Write

/-- What holds in every state reached without a late write: a table that is there is
    that of a call whose record is there, and it names the call's list. -/
def Linked (w : World) : Prop :=
  ∀ I : Key, w.db.Present [Keys.items, I] → ∃ call ∈ w.calls, call.newItemsKey = I ∧
    w.db.Present [Keys.lists, call.newListKey] ∧
    (Keys.items :: I :: [Keys.list_id], Value.string call.newListKey.val) ∈ w.db.leaves

theorem Linked.tablesLinked {w : World} (sound : Sound w) (linked : Linked w) : TablesLinked w.db := by
  intro I present
  rw [itemsDbRef_key] at present ⊢
  obtain ⟨call, called, rfl, stored, named⟩ := linked I present
  refine ⟨call.newListKey, stringAt_eq_some.mpr (Tree.mem_sub.mpr named), call.object, ?_, rfl⟩
  rw [listDbRef_key]
  exact sound.read_object called stored

/-- Applying a write in flight keeps the tables linked, if a write of an item finds its table. -/
theorem Linked.applied {w : World} (sound : Sound w) (linked : Linked w) {write : Write} (inFlight : write ∈ w.inflight)
    (finds : (∀ call, write ≠ .addNewList call) → ∀ I : Key, write.table? = some I.val → w.db.Present [Keys.items, I])
    {I : Key} (present : (write.apply w.db).Present [Keys.items, I]) :
    ∃ call ∈ w.calls, call.newItemsKey = I ∧ (write.apply w.db).Present [Keys.lists, call.newListKey] ∧
      (Keys.items :: I :: [Keys.list_id], Value.string call.newListKey.val) ∈ (write.apply w.db).leaves := by
  have valid := sound.valid inFlight
  have before := Write.present_table_of_apply valid present
  cases write with
  | addNewList other =>
    by_cases made : other.newItemsKey = I
    · exact ⟨other, sound.issued _ inFlight, made, (sound.present_apply inFlight).mpr (.inl rfl),
        (Write.mem_listId_apply valid).mpr (.inl ⟨made, rfl, rfl⟩)⟩
    · have elsewhere : (Write.addNewList other).table? ≠ some I.val := by simpa [Write.table?] using made
      obtain ⟨call, called, table, stored, named⟩ := linked I (before.resolve_left elsewhere)
      exact ⟨call, called, table, (sound.present_apply inFlight).mpr (.inr stored),
        (Write.mem_listId_apply valid).mpr (.inr ⟨made, named⟩)⟩
  | removeList list usersDict =>
    have kept : list.items_id ≠ I.val := fun table => Write.removed_table valid w.db table present
    obtain ⟨call, called, rfl, stored, named⟩ := linked I (before.resolve_left (by simp [Write.table?]))
    refine ⟨call, called, rfl, (sound.present_apply inFlight).mpr ⟨?_, stored⟩,
      (Write.mem_listId_apply valid).mpr ⟨kept, named⟩⟩
    -- The removed list is that of another call, since it has another table.
    obtain ⟨other, otherCalled, rfl, _⟩ := sound.known list (sound.issued _ inFlight).1
    intro same
    obtain rfl := sound.listKeys other otherCalled call called same
    exact kept rfl
  | addNewItem | reverseChecked | removeItem | sendInvitation | acceptInvitation | removeInvitation =>
    have old : w.db.Present [Keys.items, I] := before.elim (finds (by simp) I) id
    obtain ⟨call, called, table, stored, named⟩ := linked I old
    exact ⟨call, called, table, (sound.present_apply inFlight).mpr stored, (Write.mem_listId_apply valid).mpr named⟩

/-- A write of an item that does not find its table makes one that names no list. -/
theorem tablesLinked_broken {w : World} {write : Write} (valid : write.Valid) {I : Key} (table : write.table? = some I.val)
    (late : ∀ call, write ≠ .addNewList call) (missing : ¬ w.db.Present [Keys.items, I]) :
    ¬ TablesLinked (write.apply w.db) := by
  intro linked
  have made : (write.apply w.db).Present [Keys.items, I] := by
    cases write with
    | addNewItem list newItemKey title authorId =>
      refine Tree.present_iff.mpr ⟨[Keys.items, newItemKey, Keys.title], .string title, ?_⟩
      refine (Write.mem_items_apply valid).mpr (.inl ⟨⟨Option.some.inj table, rfl⟩, .inl ?_⟩)
      exact ⟨(Keys.title, .string title), by simp [itemFields], rfl, rfl⟩
    | reverseChecked item userId =>
      refine Tree.present_iff.mpr ⟨[Keys.items, item.id, Keys.checked], .bool (!item.checked), ?_⟩
      refine (Write.mem_items_apply valid).mpr (.inl ⟨⟨Option.some.inj table, rfl⟩, .inl ?_⟩)
      exact ⟨(Keys.checked, .bool (!item.checked)), by simp [reversedFields], rfl, rfl⟩
    | addNewList call => exact absurd rfl (late call)
    | removeList | removeItem | sendInvitation | acceptInvitation | removeInvitation => cases table
  obtain ⟨L, named, _⟩ := linked I (by rwa [itemsDbRef_key])
  rw [itemsDbRef_key, stringAt_eq_some, Tree.mem_sub] at named
  have old : (Keys.items :: I :: [Keys.list_id], Value.string L.val) ∈ w.db.leaves := by
    have leaf := (Write.mem_listId_apply valid).mp named
    cases write with
    | addNewList call => exact absurd rfl (late call)
    | removeList => cases table
    | _ => exact leaf
  exact missing (Tree.present_iff.mpr ⟨[Keys.list_id], _, old⟩)

/-- In a run from a database without lists every item table belongs to a list in
    every state exactly when every write of an item that is applied finds its table. -/
theorem tables_linked_iff {start : World} (initial : Initial start) (actions : List Action) :
    Runs.Always step (fun w => TablesLinked w.db) start actions ↔ Runs.Along step FindsTable start actions := by
  refine @Runs.always_iff_along _ _ _ _ (fun w => Sound w ∧ Linked w) _ (fun _ inv => inv.2.tablesLinked inv.1) ?_ ?_ _ ?_
    actions
  · intro w action t inv finds stepped
    refine ⟨inv.1.step stepped, ?_⟩
    rcases step_cases stepped with ⟨call, rfl, rfl⟩ | ⟨write, signedIn, rfl, inFlight⟩ | ⟨sameDb, sameCalls⟩
    · intro I present
      obtain ⟨other, called, rest⟩ := inv.2 I present
      exact ⟨other, List.mem_cons_of_mem _ called, rest⟩
    · obtain ⟨_, rfl⟩ := step_applied stepped
      intro I present
      refine inv.2.applied inv.1 inFlight ?_ present
      intro late J table
      cases write with
      | addNewList call => exact absurd rfl (late call)
      | addNewItem list =>
        have here : w.db.Present (itemsDbRef list.items_id) := finds
        rwa [Option.some.inj table, itemsDbRef_key] at here
      | reverseChecked item =>
        have here : w.db.Present (itemsDbRef item.itemsId) := finds
        rwa [Option.some.inj table, itemsDbRef_key] at here
      | _ => cases table
    · intro I
      rw [sameDb, sameCalls]
      exact inv.2 I
  · intro w action t inv outside stepped
    unfold FindsTable at outside
    split at outside
    · obtain ⟨inFlight, rfl⟩ := step_applied stepped
      have valid := inv.1.valid inFlight
      obtain ⟨I, table⟩ := id valid
      rw [table, itemsDbRef_key] at outside
      exact tablesLinked_broken valid (congrArg some table) (by simp) outside
    · obtain ⟨inFlight, rfl⟩ := step_applied stepped
      have valid := inv.1.valid inFlight
      obtain ⟨I, table⟩ := id valid
      rw [table, itemsDbRef_key] at outside
      exact tablesLinked_broken valid (congrArg some table) (by simp) outside
    · exact absurd trivial outside
  · refine ⟨Sound.start initial, ?_⟩
    intro I present
    obtain ⟨r, v, leaf⟩ := Tree.present_iff.mp present
    obtain ⟨u, field, s, path, _⟩ := initial.users _ leaf
    simp at path

/-- Alice adds an item to the list on one device while she removes the list on another. -/
def lateItemRun : List Action :=
  open Sample in
  [.addNewList aliceCall, .applied (.addNewList aliceCall) (some alice), .loadList groceries,
   .addNewItem aliceCall.object "Milk" alice milk, .removeList aliceCall.object, .removeListUsers aliceCall.object,
   .applied (.removeList aliceCall.object [alice]) (some alice),
   .applied (.addNewItem aliceCall.object milk "Milk" alice) (some alice)]

theorem late_item_makes_table :
    ¬ ∀ start actions, Initial start → Runs.Always step (fun w => TablesLinked w.db) start actions := by
  intro claim
  have always := claim (World.registered Sample.alice "alice@mail") lateItemRun (initial_registered ..)
  have passed : (Runs.exec step (World.registered Sample.alice "alice@mail") lateItemRun).any (fun w => decide
      (w.db.Present (itemsDbRef Sample.groceryItems.val) ∧
        stringAt (w.db.sub (itemsDbRef Sample.groceryItems.val)) Keys.list_id = none)) = true := by
    decide +kernel
  obtain ⟨w, linked, unlinked⟩ := always.of_any passed
  obtain ⟨present, noList⟩ := of_decide_eq_true unlinked
  obtain ⟨L, named, _⟩ := linked Sample.groceryItems present
  rw [noList] at named
  cases named

theorem tables_linked_iff_lateItemRun :
    Runs.Always step (fun w => TablesLinked w.db) (World.registered Sample.alice "alice@mail") lateItemRun ↔
      Runs.Along step FindsTable (World.registered Sample.alice "alice@mail") lateItemRun :=
  tables_linked_iff (initial_registered Sample.alice "alice@mail") lateItemRun

end SharedList
