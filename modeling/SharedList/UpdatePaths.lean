import SharedList.Tables

/-!
The paths of the multi-path updates. Firebase takes an update only if none of
its paths is equal to another or above it, which it tests on neighbours after
sorting the paths. The updates of the program pass this test, and those of
different items, or of lists with nothing in common, stay out of each other's way.
-/
namespace SharedList
open FrbUtils

/-- The loop of `compoundWriteFromDictionary` over the sorted paths; `false` is the exception
    that a path is an ancestor of the next one. -/
def checkPaths : Option (List Key) → List (List Key) → Bool
  | _, [] => true
  | none, path :: rest => checkPaths (some path) rest
  | some prevPath, path :: rest => if prevPath <+: path then false else checkPaths (some path) rest

/-- The update passes the loop, in whatever order sorting leaves its paths. -/
def Accepted (data : Update) : Prop :=
  ∀ updatePaths, updatePaths.Perm (data.changes.map Prod.fst) → checkPaths none updatePaths = true

/-- No path of one update is equal to a path of the other, above it or below it. -/
def Separate (a b : Update) : Prop := ∀ c ∈ a.changes, ∀ d ∈ b.changes, Apart c.1 d.1

/-- The updates of `AddNewItem` and `ReverseChecked` for one item. -/
inductive ItemUpdate (I k : Key) : Update → Prop where
  | addNewItem (title : String) (checked : Bool) (authorId doneById : String) :
      ItemUpdate I k (Item.serialize I.val k title checked authorId doneById)
  | reverseChecked (item : Item) (userId : Key) (table : item.itemsId = I.val) (own : item.id = k) :
      ItemUpdate I k (reverseCheckedUpdate item userId)

/-- The updates of `AddNewList` and `RemoveList` for one list; `RemoveList` visits the keys of the
    users map that it has read in any order. -/
inductive ListUpdate (L I : Key) : Update → Prop where
  | addNewList (call : NewList) (own : call.newListKey = L) (table : call.newItemsKey = I) : ListUpdate L I call.update
  | removeList (list : ListObject) (usersSnapshot : Snapshot) (userIds : List Key) (own : list.id = L)
      (table : list.items_id = I.val) (visited : userIds.Perm usersSnapshot.childKeys) :
      ListUpdate L I (removeListUpdate list userIds)

/-! ## Independent changes -/

theorem checkPaths_of_apart {updatePaths : List (List Key)} {prevPath : Option (List Key)}
    (apart : updatePaths.Pairwise Apart) (first : ∀ prev ∈ prevPath, ∀ path ∈ updatePaths, Apart prev path) :
    checkPaths prevPath updatePaths = true := by
  induction updatePaths generalizing prevPath with
  | nil => cases prevPath <;> rfl
  | cons path rest ih =>
    obtain ⟨next, later⟩ := List.pairwise_cons.mp apart
    have tail : checkPaths (some path) rest = true := ih later (by simpa using next)
    cases prevPath with
    | none => exact tail
    | some prev =>
      have other : ¬ prev <+: path := (first prev rfl path List.mem_cons_self).1
      rw [checkPaths, if_neg other, tail]

theorem accepted_of_independent {data : Update} (independent : Tree.Independent data.changes) : Accepted data := by
  intro updatePaths sorted
  have apart : (data.changes.map Prod.fst).Pairwise Apart := List.pairwise_map.mpr independent
  have stillApart : updatePaths.Pairwise Apart := sorted.symm.pairwise apart apart_comm.mp
  exact checkPaths_of_apart stillApart (by simp)

/-- Separate updates give the same database in both orders. -/
theorem separate_commute {a b : Update} (first : Tree.Independent a.changes) (second : Tree.Independent b.changes)
    (separate : Separate a b) {db : Database} {q : List Key} {v : Value} :
    (q, v) ∈ (updateChildValues (updateChildValues db a) b).leaves ↔
      (q, v) ∈ (updateChildValues (updateChildValues db b) a).leaves := by
  have together : Tree.Independent (a.changes ++ b.changes) := List.pairwise_append.mpr ⟨first, second, separate⟩
  have reversed : Tree.Independent (b.changes ++ a.changes) :=
    List.pairwise_append.mpr ⟨second, first, fun d inB c inA => apart_comm.mp (separate c inA d inB)⟩
  have appended : ∀ x y : Update, updateChildValues (updateChildValues db x) y = db.update (x.changes ++ y.changes) :=
    fun x y => List.foldl_append.symm
  rw [appended, appended, Tree.mem_update together, Tree.mem_update reversed]
  simp only [List.mem_append, or_comm]

/-! ## The paths -/

theorem ItemUpdate.path {I k : Key} {data : Update} (update : ItemUpdate I k data) {c : List Key × Snapshot}
    (member : c ∈ data.changes) : ∃ f : Key, c.1 = [Keys.items, I, Keys.items, k, f] := by
  cases update with
  | addNewItem title checked authorId doneById =>
    rw [serialize_changes rfl] at member
    obtain ⟨f, _, rfl⟩ := List.mem_map.mp member
    exact ⟨f.1, rfl⟩
  | reverseChecked item userId table own =>
    rw [reverseChecked_changes table, own] at member
    obtain ⟨f, _, rfl⟩ := List.mem_map.mp member
    exact ⟨f.1, rfl⟩

theorem ItemUpdate.independent {I k : Key} {data : Update} (update : ItemUpdate I k data) : Tree.Independent data.changes := by
  cases update with
  | addNewItem title checked authorId doneById =>
    rw [serialize_changes rfl]
    exact Tree.independent_fieldChanges _ (itemFields_distinct ..)
  | reverseChecked item userId table own => exact @Write.independent (.reverseChecked item userId) ⟨I, table⟩

/-- The record, its key in the lists of a user, and the item table or its mark. -/
theorem ListUpdate.path {L I : Key} {data : Update} (update : ListUpdate L I data) {c : List Key × Snapshot}
    (member : c ∈ data.changes) : c.1 = [Keys.lists, L] ∨ (∃ u, c.1 = [Keys.users, u, Keys.lists, L]) ∨
      ∃ mark, c.1 = Keys.items :: I :: mark := by
  cases update with
  | addNewList call own table =>
    subst own table
    rw [addNewList_changes] at member
    simp only [List.mem_cons, List.not_mem_nil, or_false] at member
    rcases member with rfl | rfl | rfl
    · exact .inr (.inl ⟨_, rfl⟩)
    · exact .inl rfl
    · exact .inr (.inr ⟨_, rfl⟩)
  | removeList list usersSnapshot userIds own table visited =>
    subst own
    rw [removeList_changes, table, segments_key] at member
    simp only [List.mem_cons, List.mem_map] at member
    rcases member with rfl | rfl | ⟨userId, _, rfl⟩
    · exact .inl rfl
    · exact .inr (.inr ⟨_, rfl⟩)
    · exact .inr (.inl ⟨_, rfl⟩)

theorem ListUpdate.independent {L I : Key} {data : Update} (update : ListUpdate L I data) : Tree.Independent data.changes := by
  cases update with
  | addNewList call own table => exact @Write.independent (.addNewList call) trivial
  | removeList list usersSnapshot userIds own table visited =>
    have distinct : userIds.Nodup := visited.nodup_iff.mpr (List.nodup_dedup _)
    exact @Write.independent (.removeList list userIds) ⟨⟨I, table⟩, distinct⟩

theorem path_injective :
    Function.Injective (fun p : Key × Key × ItemKeys => Item.path (itemPath p.1.val p.2.1.val) p.2.2) := by
  rintro ⟨I, k, f⟩ ⟨J, j, g⟩ same
  have keys := congrArg segments same
  simp only [segments_path rfl, List.cons.injEq, and_true, true_and] at keys
  obtain ⟨rfl, rfl, sameKey⟩ := keys
  rw [ItemKeys.rawValue_injective sameKey]

theorem ItemUpdate.separate {I k J j : Key} {a b : Update} (first : ItemUpdate I k a) (second : ItemUpdate J j b)
    (different : (I, k) ≠ (J, j)) : Separate a b := by
  intro c inA d inB
  obtain ⟨f, atC⟩ := first.path inA
  obtain ⟨g, atD⟩ := second.path inB
  rw [atC, atD]
  simp only [Apart, List.cons_prefix_cons, List.prefix_rfl, true_and, and_true]
  constructor
  · rintro ⟨rfl, rfl, _⟩
    exact different rfl
  · rintro ⟨rfl, rfl, _⟩
    exact different rfl

theorem ListUpdate.separate {L I M J : Key} {a b : Update} (first : ListUpdate L I a) (second : ListUpdate M J b)
    (otherId : L ≠ M) (otherItems : I ≠ J) : Separate a b := by
  intro c inA d inB
  rcases first.path inA with atC | ⟨u, atC⟩ | ⟨mark, atC⟩ <;> rcases second.path inB with atD | ⟨v, atD⟩ | ⟨other, atD⟩
  all_goals simp [Apart, atC, atD, otherId, otherId.symm, otherItems, otherItems.symm]

/-- Every multi-path update is accepted and hits only its targets. -/
theorem updates_hit_their_targets :
    (∀ I k data, ItemUpdate I k data → Tree.Independent data.changes ∧ Accepted data) ∧
    (∀ L I data, ListUpdate L I data → Tree.Independent data.changes ∧ Accepted data) ∧
    Function.Injective (fun p : Key × Key × ItemKeys => Item.path (itemPath p.1.val p.2.1.val) p.2.2) ∧
    (∀ I k J j a b, ItemUpdate I k a → ItemUpdate J j b → (I, k) ≠ (J, j) → Separate a b) ∧
    ∀ L I M J a b, ListUpdate L I a → ListUpdate M J b → L ≠ M → I ≠ J → Separate a b := by
  refine ⟨?_, ?_, path_injective, ?_, ?_⟩
  · intro I k data update
    exact ⟨update.independent, accepted_of_independent update.independent⟩
  · intro L I data update
    exact ⟨update.independent, accepted_of_independent update.independent⟩
  · intro I k J j a b first second different
    exact first.separate second different
  · intro L I M J a b first second otherId otherItems
    exact first.separate second otherId otherItems

/-- Alice checks milk while Bob adds an item with the key `groceries` to the same table. -/
theorem updates_hit_their_targets_milkChecked :
    Separate (reverseCheckedUpdate Sample.milkItem Sample.alice) (Item.serialize "groceryItems" Sample.groceries "Bread" false "bob" "NONE") :=
  updates_hit_their_targets.2.2.2.1 Sample.groceryItems Sample.milk Sample.groceryItems Sample.groceries _ _
    (.reverseChecked Sample.milkItem Sample.alice rfl rfl) (.addNewItem "Bread" false "bob" "NONE") (by decide)

end SharedList
