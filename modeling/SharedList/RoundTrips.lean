import SharedList.Tables
import SharedList.Users

/-!
What the writers store is what the readers find. Writers name the fields of a
record by slash-separated path strings, readers walk to it by references; here
both are led to the same nodes, and the records elsewhere are as before.
-/
namespace SharedList
open FrbUtils

/-- Every node apart from the references has the subtree it had. -/
def Untouched (db after : Database) (refs : List Reference) : Prop :=
  ∀ p, (∀ ref ∈ refs, Apart p ref) → after.sub p = db.sub p

/-- The item is stored where `LoadData` and the observers look for it, each field
    where `PathForKey` says, and nothing else has changed. -/
structure ItemStored (db after : Database) (item : Item) : Prop where
  reference : child (child (itemsDbRef item.itemsId) Keys.items.val) item.id.val = itemDbRef item.itemsId item.id.val
  decodes : (dictionary? (after.sub (itemDbRef item.itemsId item.id.val))).bind
    (Item.deserialize item.itemsId item.id) = some item
  path : ∀ f, child dbRef (item.pathForKey f) = child (itemDbRef item.itemsId item.id.val) f.rawValue.val
  field : ∀ f, after.at? (child dbRef (item.pathForKey f)) = some (item.field f)
  frame : Untouched db after [itemDbRef item.itemsId item.id.val]

/-- `LoadData` of the user who made the list finds its key and its record, and the
    items table is empty; nothing else has changed. -/
structure ListStored (db after : Database) (call : NewList) : Prop where
  keys : ∃ data, dictionary? (after.sub (userListsDbRef call.userId.val)) = some data ∧ call.newListKey ∈ data.childKeys
  decodes : ListObject.read call.newListKey (after.sub (listDbRef call.newListKey.val)) = some call.object
  items : ¬ after.Present (child (itemsDbRef call.newItemsKey.val) Keys.items.val)
  frame : Untouched db after [child (userListsDbRef call.userId.val) call.newListKey.val,
    listDbRef call.newListKey.val, itemsDbRef call.newItemsKey.val]

/-- `GetUserById` finds the user, as `CreateUser` keeps it; nothing else has changed. -/
structure UserStored (db after : Database) (user : User) : Prop where
  kept : User.deserialize user.id (User.serialize user.name user.email) = some user
  decodes : getUserById user.id after = some user
  frame : Untouched db after [userDbRef user.id.val]

/-- The leaf of each field after `Serialize` has been written. -/
theorem at?_serialize (db : Database) (I k : Key) (title : String) (checked : Bool) (authorId doneById : String)
    (f : ItemKeys) : (updateChildValues db (Item.serialize I.val k title checked authorId doneById)).at?
      [Keys.items, I, Keys.items, k, f.rawValue] =
        some (Item.field { itemsId := I.val, id := k, title, checked, authorId, checkedById := doneById } f) := by
  rw [Tree.at?_eq_some, updateChildValues, serialize_changes rfl]
  refine (Tree.mem_update_fieldChanges (itemFields_distinct ..) (by simp [itemFields])).mpr (.inl ?_)
  cases f with
  | title => exact ⟨(Keys.title, .string title), by simp [itemFields], rfl, rfl⟩
  | checked => exact ⟨(Keys.checked, .bool checked), by simp [itemFields], rfl, rfl⟩
  | author_id => exact ⟨(Keys.author_id, .string authorId), by simp [itemFields], rfl, rfl⟩
  | checked_by_id => exact ⟨(Keys.checked_by_id, .string doneById), by simp [itemFields], rfl, rfl⟩

theorem item_stored (db : Database) (I k : Key) (title : String) (checked : Bool) (authorId doneById : String) :
    ItemStored db (updateChildValues db (Item.serialize I.val k title checked authorId doneById))
      { itemsId := I.val, id := k, title, checked, authorId, checkedById := doneById } := by
  have leaf := at?_serialize db I k title checked authorId doneById
  have path : ∀ f : ItemKeys, segments (Item.path (itemPath I.val k.val) f) = [Keys.items, I, Keys.items, k, f.rawValue] :=
    segments_path rfl k
  refine ⟨?_, ?_, ?_, ?_, ?_⟩
  · rw [items_child_key, child_key, itemDbRef_key]
    rfl
  · rw [itemDbRef_key]
    have stored : ∀ f : ItemKeys, ([f.rawValue], Item.field _ f) ∈ (Tree.sub _ [Keys.items, I, Keys.items, k]).leaves :=
      fun f => Tree.mem_sub.mpr (Tree.at?_eq_some.mp (leaf f))
    have atTitle := stringAt_eq_some.mpr (stored .title)
    have atChecked := boolAt_eq_some.mpr (stored .checked)
    have atAuthor := stringAt_eq_some.mpr (stored .author_id)
    have atBy := stringAt_eq_some.mpr (stored .checked_by_id)
    rw [dictionary?_of_key (stored .title) (by decide), Option.bind_some, Item.deserialize]
    simp only [atTitle, atChecked, atAuthor, atBy]
    rfl
  · intro f
    rw [child_key, itemDbRef_key, child, Item.pathForKey, path]
    rfl
  · intro f
    rw [child, Item.pathForKey, path]
    exact leaf f
  · intro p apart
    refine Tree.sub_update db ?_
    rw [serialize_changes rfl]
    rintro c member
    obtain ⟨f, _, rfl⟩ := List.mem_map.mp member
    have here : Apart p (itemDbRef I.val k.val) := apart _ List.mem_cons_self
    rw [itemDbRef_key] at here
    exact apart_below [f.1] here

/-- The key of the list is one of `childByAutoId`, which hands out no numbers, and that of the items is fresh. -/
theorem list_stored {db : Database} {call : NewList} (noNumber : keyAsInt call.newListKey = none)
    (fresh : ¬ db.Present (itemsDbRef call.newItemsKey.val)) : ListStored db (updateChildValues db call.update) call := by
  have effect := fun r v => @Write.mem_lists_apply (.addNewList call) db call.newListKey r v trivial
  have keys := fun r v => @Write.mem_keys_apply (.addNewList call) db call.userId call.newListKey r v trivial
  refine ⟨?_, ?_, ?_, ?_⟩
  · have key := (keys [] (.bool true)).mpr (.inl ⟨⟨rfl, rfl⟩, rfl, rfl⟩)
    rw [userListsDbRef_key]
    refine ⟨_, dictionary?_of_key (Tree.mem_sub.mpr key) noNumber, ?_⟩
    rw [Tree.mem_childKeys, Tree.present_sub]
    exact Tree.present_of_at? (Tree.at?_eq_some.mpr key)
  · have stored : ∀ r v, (r, v) ∈ call.serializedList.leaves →
        (r, v) ∈ ((Write.addNewList call).apply db |>.sub [Keys.lists, call.newListKey]).leaves := by
      intro r v leaf
      exact Tree.mem_sub.mpr ((effect r v).mpr (.inl ⟨rfl, leaf⟩))
    rw [ListObject.read_eq_some, ListObject.deserialize_eq_some, listDbRef_key]
    simp only [stringAt_eq_some]
    refine ⟨rfl, stored _ _ ?_, stored _ _ ?_, stored _ _ ?_⟩
    · simp [serializedList_leaves, NewList.object]
    · simp [serializedList_leaves, NewList.object]
    · simp [serializedList_leaves, NewList.object]
  · rw [items_child_key, Tree.present_iff]
    rintro ⟨r, v, leaf⟩
    have old := (@Write.mem_apply (.addNewList call) trivial db _ v).mp leaf
    simp [Write.data, addNewList_changes] at old
    refine fresh (Tree.present_iff.mpr ⟨Keys.items :: r, v, ?_⟩)
    rw [itemsDbRef_key]
    exact old
  · intro p apart
    refine Tree.sub_update db ?_
    rw [addNewList_changes]
    simp only [child_key, userListsDbRef_key, listDbRef_key, itemsDbRef_key, List.forall_mem_cons] at apart ⊢
    obtain ⟨key, record, table, _⟩ := apart
    exact ⟨key, record, apart_below [Keys.list_id] table, by simp⟩

theorem user_stored (db : Database) (user : User) :
    UserStored db (createUserRecord db user.id user.name user.email) user :=
  ⟨User.deserialize_serialize _ _ _, getUserById_createUserRecord _ _ _ _,
    fun _ apart => sub_createUserRecord db _ _ (apart _ List.mem_cons_self)⟩

/-- In every database, what `Item.Serialize`, `AddNewList` and `CreateUser` store is
    what the readers decode, and the rest of the database is as before. -/
theorem records_round_trip (db : Database) :
    (∀ (I k : Key) (title : String) (checked : Bool) (authorId doneById : String),
      ItemStored db (updateChildValues db (Item.serialize I.val k title checked authorId doneById))
        { itemsId := I.val, id := k, title, checked, authorId, checkedById := doneById }) ∧
    (∀ call : NewList, keyAsInt call.newListKey = none → ¬ db.Present (itemsDbRef call.newItemsKey.val) →
      ListStored db (updateChildValues db call.update) call) ∧
    ∀ user : User, UserStored db (createUserRecord db user.id user.name user.email) user :=
  ⟨item_stored db, fun _ => list_stored, user_stored db⟩

/-- Alice makes a second list. -/
theorem records_round_trip_secondList :
    let call : NewList := ⟨Sample.alice, some "Alice", "Tools", Sample.hardware, Sample.hardwareItems⟩
    let db := updateChildValues Tree.empty (NewList.update ⟨Sample.alice, some "Alice", "Groceries", Sample.groceries, Sample.groceryItems⟩)
    ListStored db (updateChildValues db call.update) call :=
  (records_round_trip _).2.1 _ (by decide) (by decide +kernel)

end SharedList
