import SharedList.Writes

/-!
What a write does to the tables: the records under `lists`, the keys under
`users/<u>/lists` and the item records under `items/<I>/items`. Each statement
goes through the writes one by one; a write that is not named there leaves the
table as it was.
-/
namespace SharedList
open FrbUtils

namespace Write

/-- The ids of a write are keys, and a removal names each member once. -/
def Valid : Write → Prop
  | .removeList list usersDict => (∃ I : Key, list.items_id = I.val) ∧ usersDict.Nodup
  | .addNewItem list _ _ _ => ∃ I : Key, list.items_id = I.val
  | .removeItem item => ∃ I : Key, item.itemsId = I.val
  | .reverseChecked item _ => ∃ I : Key, item.itemsId = I.val
  | _ => True

/-- No dictionary of the program writes a node and something below it. -/
theorem independent {write : Write} (valid : write.Valid) : Tree.Independent write.data.changes := by
  cases write with
  | addNewList call => simp [data, addNewList_changes, Tree.Independent, Apart]
  | removeList list usersDict =>
    obtain ⟨_, nodup⟩ := valid
    rw [data, removeList_changes]
    simp only [Tree.Independent, List.pairwise_cons, List.mem_cons, List.mem_map, List.pairwise_map]
    refine ⟨?_, ?_, ?_⟩
    · rintro c (rfl | ⟨userId, _, rfl⟩)
      · simp [Apart]
      · simp [Apart]
    · rintro c ⟨userId, _, rfl⟩
      simp [Apart]
    · refine nodup.imp ?_
      intro a b different
      simp [Apart, different, Ne.symm different]
  | addNewItem list newItemKey title authorId =>
    obtain ⟨I, table⟩ := valid
    rw [data, serialize_changes table]
    exact Tree.independent_fieldChanges _ (itemFields_distinct ..)
  | removeItem item => simp [data, Update.changes, Tree.Independent]
  | reverseChecked item userId =>
    obtain ⟨I, table⟩ := valid
    rw [data, reverseChecked_changes table]
    exact Tree.independent_fieldChanges _ (reversedFields_distinct ..)
  | sendInvitation => simp [data, Update.changes, Tree.Independent]
  | acceptInvitation => simp [data, Update.changes, Tree.Independent]
  | removeInvitation => simp [data, Update.changes, Tree.Independent]

theorem mem_apply {write : Write} (valid : write.Valid) {db : Database} {q : List Key} {v : Value} :
    (q, v) ∈ (write.apply db).leaves ↔
      (∃ c ∈ write.data.changes, ∃ r, q = c.1 ++ r ∧ (r, v) ∈ c.2.leaves) ∨
        ((q, v) ∈ db.leaves ∧ ∀ c ∈ write.data.changes, ¬ c.1 <+: q ∧ (c.2.leaves = [] ∨ ¬ q <+: c.1)) :=
  Tree.mem_update (independent valid)

/-- The records under `lists`: one write creates a record, one removes it. -/
theorem mem_lists_apply {write : Write} {db : Database} {L : Key} {r : List Key} {v : Value} :
    write.Valid → ((Keys.lists :: L :: r, v) ∈ (write.apply db).leaves ↔
      match write with
      | .addNewList call => (call.newListKey = L ∧ (r, v) ∈ call.serializedList.leaves) ∨
          (call.newListKey ≠ L ∧ (Keys.lists :: L :: r, v) ∈ db.leaves)
      | .removeList list _ => list.id ≠ L ∧ (Keys.lists :: L :: r, v) ∈ db.leaves
      | _ => (Keys.lists :: L :: r, v) ∈ db.leaves) := by
  intro valid
  rw [mem_apply valid]
  cases write with
  | addNewList call =>
    have filled : call.serializedList.leaves ≠ [] := by simp [serializedList_leaves]
    by_cases same : call.newListKey = L
    · subst same; simp [data, addNewList_changes]
    · simp [data, addNewList_changes, same, Ne.symm same]
  | removeList list usersDict =>
    by_cases same : list.id = L
    · subst same; simp [data, removeList_changes]
    · simp [data, removeList_changes, same]
  | addNewItem list newItemKey title authorId =>
    obtain ⟨I, table⟩ := valid
    simp [data, serialize_changes table, Tree.fieldChanges, itemFields]
  | removeItem item =>
    obtain ⟨I, table⟩ := valid
    simp [data, Update.changes, table]
  | reverseChecked item userId =>
    obtain ⟨I, table⟩ := valid
    simp [data, reverseChecked_changes table, Tree.fieldChanges, reversedFields]
  | sendInvitation => simp [data, Update.changes, segments_invitationPath]
  | acceptInvitation => simp [-String.reduceAppend, data, Update.changes]
  | removeInvitation => simp [data, Update.changes, segments_invitationPath]

/-- The keys under `users/<u>/lists`. -/
theorem mem_keys_apply {write : Write} {db : Database} {u L : Key} {r : List Key} {v : Value} :
    write.Valid → ((Keys.users :: u :: Keys.lists :: L :: r, v) ∈ (write.apply db).leaves ↔
      match write with
      | .addNewList call => ((call.userId = u ∧ call.newListKey = L) ∧ r = [] ∧ v = .bool true) ∨
          (¬ (call.userId = u ∧ call.newListKey = L) ∧ (Keys.users :: u :: Keys.lists :: L :: r, v) ∈ db.leaves)
      | .removeList list usersDict =>
          ¬ (list.id = L ∧ u ∈ usersDict) ∧ (Keys.users :: u :: Keys.lists :: L :: r, v) ∈ db.leaves
      | .acceptInvitation userId listId => ((userId = u ∧ listId = L) ∧ r = [] ∧ v = .bool true) ∨
          (¬ (userId = u ∧ listId = L) ∧ (Keys.users :: u :: Keys.lists :: L :: r, v) ∈ db.leaves)
      | _ => (Keys.users :: u :: Keys.lists :: L :: r, v) ∈ db.leaves) := by
  intro valid
  rw [mem_apply valid]
  cases write with
  | addNewList call =>
    by_cases here : call.userId = u ∧ call.newListKey = L
    · obtain ⟨rfl, rfl⟩ := here
      simp [data, addNewList_changes]
    · have there : ¬ (u = call.userId ∧ L = call.newListKey) := fun same => here ⟨same.1.symm, same.2.symm⟩
      simp only [data, addNewList_changes]
      simp only [not_and] at here there
      simp
      tauto
  | removeList list usersDict =>
    simp only [data, removeList_changes]
    by_cases here : list.id = L
    · subst here
      simp only [List.mem_cons, List.mem_map]
      have absent : (∀ a ∈ usersDict, ¬ a = u) ↔ u ∉ usersDict :=
        ⟨fun others member => others u member rfl, fun none a member same => none (same ▸ member)⟩
      simp [absent, and_comm]
    · simp [here]
  | addNewItem list newItemKey title authorId =>
    obtain ⟨I, table⟩ := valid
    simp [data, serialize_changes table, Tree.fieldChanges, itemFields]
  | removeItem item =>
    obtain ⟨I, table⟩ := valid
    simp [data, Update.changes, table]
  | reverseChecked item userId =>
    obtain ⟨I, table⟩ := valid
    simp [data, reverseChecked_changes table, Tree.fieldChanges, reversedFields]
  | sendInvitation => simp [data, Update.changes, segments_invitationPath]
  | acceptInvitation userId listId =>
    by_cases here : userId = u ∧ listId = L
    · obtain ⟨rfl, rfl⟩ := here
      simp [-String.reduceAppend, data, Update.changes]
    · have there : ¬ (u = userId ∧ L = listId) := fun same => here ⟨same.1.symm, same.2.symm⟩
      simp only [not_and] at here there
      simp [-String.reduceAppend, data, Update.changes]
      tauto
  | removeInvitation => simp [data, Update.changes, segments_invitationPath]

/-- Fields set in a record of an item table. -/
private theorem mem_setFields {db : Database} {I J k j : Key} {fields : List (Key × Value)}
    (distinct : fields.Pairwise (fun f g => f.1 ≠ g.1)) (filled : fields ≠ []) {r : List Key} {v : Value} :
    (Keys.items :: I :: Keys.items :: k :: r, v) ∈
        (db.update (Tree.fieldChanges [Keys.items, J, Keys.items, j] fields)).leaves ↔
      ((J = I ∧ j = k) ∧ ((∃ f ∈ fields, r = [f.1] ∧ v = f.2) ∨
        ((Keys.items :: I :: Keys.items :: k :: r, v) ∈ db.leaves ∧ r ≠ [] ∧ ∀ f ∈ fields, ¬ [f.1] <+: r))) ∨
      (¬ (J = I ∧ j = k) ∧ (Keys.items :: I :: Keys.items :: k :: r, v) ∈ db.leaves) := by
  by_cases here : J = I ∧ j = k
  · simp only [here, and_self, not_true_eq_false, false_and, true_and, or_false]
    obtain ⟨rfl, rfl⟩ := here
    exact Tree.mem_update_fieldChanges distinct filled
  · simp only [here, not_false_eq_true, false_and, true_and, false_or]
    have outside : ∀ c ∈ Tree.fieldChanges [Keys.items, J, Keys.items, j] fields,
        Apart [Keys.items, I, Keys.items, k] c.1 := by
      intro c member
      obtain ⟨f, _, rfl⟩ := List.mem_map.mp member
      simp only [Apart, List.cons_append, List.nil_append, List.cons_prefix_cons, List.prefix_nil, true_and]
      constructor
      · rintro ⟨sameTable, sameItem, _⟩
        exact here ⟨sameTable.symm, sameItem.symm⟩
      · rintro ⟨_, _, short⟩
        cases short
    exact Tree.mem_update_apart outside

/-- The item records under `items/<I>/items`. -/
theorem mem_items_apply {write : Write} {db : Database} {I k : Key} {r : List Key} {v : Value} :
    write.Valid → ((Keys.items :: I :: Keys.items :: k :: r, v) ∈ (write.apply db).leaves ↔
      match write with
      | .removeList list _ => list.items_id ≠ I.val ∧ (Keys.items :: I :: Keys.items :: k :: r, v) ∈ db.leaves
      | .addNewItem list newItemKey title authorId =>
          ((list.items_id = I.val ∧ newItemKey = k) ∧
            ((∃ f ∈ itemFields title false authorId.val "NONE", r = [f.1] ∧ v = f.2) ∨
              ((Keys.items :: I :: Keys.items :: k :: r, v) ∈ db.leaves ∧ r ≠ [] ∧
                ∀ f ∈ itemFields title false authorId.val "NONE", ¬ [f.1] <+: r))) ∨
          (¬ (list.items_id = I.val ∧ newItemKey = k) ∧ (Keys.items :: I :: Keys.items :: k :: r, v) ∈ db.leaves)
      | .removeItem item => ¬ (item.itemsId = I.val ∧ item.id = k) ∧
          (Keys.items :: I :: Keys.items :: k :: r, v) ∈ db.leaves
      | .reverseChecked item userId =>
          ((item.itemsId = I.val ∧ item.id = k) ∧
            ((∃ f ∈ reversedFields item.checked userId, r = [f.1] ∧ v = f.2) ∨
              ((Keys.items :: I :: Keys.items :: k :: r, v) ∈ db.leaves ∧ r ≠ [] ∧
                ∀ f ∈ reversedFields item.checked userId, ¬ [f.1] <+: r))) ∨
          (¬ (item.itemsId = I.val ∧ item.id = k) ∧ (Keys.items :: I :: Keys.items :: k :: r, v) ∈ db.leaves)
      | _ => (Keys.items :: I :: Keys.items :: k :: r, v) ∈ db.leaves) := by
  intro valid
  cases write with
  | addNewList call =>
    rw [mem_apply valid]
    simp [data, addNewList_changes]
  | removeList list usersDict =>
    rw [mem_apply valid]
    obtain ⟨⟨J, table⟩, _⟩ := valid
    simp [data, removeList_changes, table, and_comm]
  | addNewItem list newItemKey title authorId =>
    obtain ⟨J, table⟩ := valid
    rw [apply, updateChildValues, data, serialize_changes table]
    simp only [table, Key.val_inj]
    exact mem_setFields (itemFields_distinct ..) (by simp [itemFields])
  | removeItem item =>
    rw [mem_apply valid]
    obtain ⟨J, table⟩ := valid
    simp [data, Update.changes, table, and_comm]
  | reverseChecked item userId =>
    obtain ⟨J, table⟩ := valid
    rw [apply, updateChildValues, data, reverseChecked_changes table]
    simp only [table, Key.val_inj]
    exact mem_setFields (reversedFields_distinct ..) (by simp [reversedFields])
  | sendInvitation =>
    rw [mem_apply valid]
    simp [data, Update.changes, segments_invitationPath]
  | acceptInvitation =>
    rw [mem_apply valid]
    simp [-String.reduceAppend, data, Update.changes]
  | removeInvitation =>
    rw [mem_apply valid]
    simp [data, Update.changes, segments_invitationPath]

end Write

theorem present_key {db : Database} {u L : Key} :
    db.Present (child (userListsDbRef u.val) L.val) ↔
      ∃ r v, (Keys.users :: u :: Keys.lists :: L :: r, v) ∈ db.leaves := by
  rw [child_key, userListsDbRef_key]
  exact Tree.present_iff

end SharedList
