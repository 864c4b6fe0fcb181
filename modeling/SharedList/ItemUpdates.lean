import SharedList.ItemMirror

/-!
`Item.Update` against `Item.Deserialize`. An item is kept up to date by
dictionaries of changed fields, which `Update` visits in no particular order,
passing over what it does not understand. The result is the item that the
record decodes to once the understood changes are merged into it.
-/
namespace SharedList

/-- A dictionary handed to `Update`, and the order in which the loop visits its keys. -/
structure Delivery where
  data : List (Key × Option Value)
  distinct : (data.map Prod.fst).Nodup
  order : List (Key × Option Value)
  visited : order.Perm data

namespace Delivery

def keys (delivery : Delivery) : List Key := delivery.data.map Prod.fst

/-- The one-entry dictionary `[snapshot.key : snapshot.value]` of `Updated`. -/
def single (key : Key) (value : Option Value) : Delivery := ⟨[(key, value)], List.nodup_singleton _, [(key, value)], .refl _⟩

end Delivery

/-- The fields that change after an item has been made. -/
def changingFields : List ItemKeys := [.title, .checked, .checked_by_id]

/-- The new value of a field, where the change is of one of the changing fields and of its type. -/
def wellTyped (key : Key) (value : Option Value) : Option Value :=
  match changingFields.find? (fun f => f.rawValue = key) with
  | some f => value.filter (fun v => v.isBool = f.holdsBool)
  | none => none

/-- One well-typed change merged into a record; any other leaves it. -/
def mergeField (record : Snapshot) (key : Key) (value : Option Value) : Snapshot :=
  match wellTyped key value with
  | some v => record.put [key] (Tree.leaf v)
  | none => record

def merge (record : Snapshot) (data : List (Key × Option Value)) : Snapshot :=
  data.foldl (fun record field => mergeField record field.1 field.2) record

/-! ## One change -/

theorem wellTyped_rawValue (f : ItemKeys) (value : Option Value) : wellTyped f.rawValue value =
    if f = .author_id then none else value.filter (fun v => v.isBool = f.holdsBool) := by
  cases f <;> rfl

namespace Item

/-- An item is made of its fields, its ids and the names. -/
theorem ext_field {a b : Item} (itemsId : a.itemsId = b.itemsId) (id : a.id = b.id) (authorName : a.authorName = b.authorName)
    (checkedByName : a.checkedByName = b.checkedByName) (fields : ∀ f, a.field f = b.field f) : a = b := by
  have title := fields .title
  have checked := fields .checked
  have author := fields .author_id
  have checkedBy := fields .checked_by_id
  cases a
  cases b
  simp only [field, Value.string.injEq, Value.bool.injEq] at *
  subst itemsId id authorName checkedByName title checked author checkedBy
  rfl

/-- What no change reaches. -/
theorem updateField_same (item : Item) (key : Key) (value : Option Value) :
    (item.updateField key value).itemsId = item.itemsId ∧ (item.updateField key value).id = item.id ∧
      (item.updateField key value).authorName = item.authorName ∧
      (item.updateField key value).checkedByName = item.checkedByName := by
  unfold updateField
  repeat' split
  all_goals exact ⟨rfl, rfl, rfl, rfl⟩

/-- A change sets its field if it is well typed, and no other. -/
theorem field_updateField_eq (item : Item) (key : Key) (value : Option Value) (f : ItemKeys) :
    (item.updateField key value).field f =
      if key = f.rawValue then (wellTyped key value).getD (item.field f) else item.field f := by
  by_cases here : key = f.rawValue
  · subst here
    rw [if_pos rfl, wellTyped_rawValue]
    cases f with
    | author_id => rfl
    | title | checked | checked_by_id =>
      rcases value with _ | (s | b)
      · rfl
      · rfl
      · rfl
  · rw [if_neg here, field_updateField_other item here]

theorem updateField_comm (item : Item) {j k : Key} (different : j ≠ k) (v w : Option Value) :
    (item.updateField j v).updateField k w = (item.updateField k w).updateField j v := by
  obtain ⟨itemsJ, idJ, authorJ, checkedByJ⟩ := updateField_same item j v
  obtain ⟨itemsK, idK, authorK, checkedByK⟩ := updateField_same item k w
  obtain ⟨itemsJK, idJK, authorJK, checkedByJK⟩ := updateField_same (item.updateField j v) k w
  obtain ⟨itemsKJ, idKJ, authorKJ, checkedByKJ⟩ := updateField_same (item.updateField k w) j v
  refine ext_field ?_ ?_ ?_ ?_ ?_
  · rw [itemsJK, itemsJ, itemsKJ, itemsK]
  · rw [idJK, idJ, idKJ, idK]
  · rw [authorJK, authorJ, authorKJ, authorK]
  · rw [checkedByJK, checkedByJ, checkedByKJ, checkedByK]
  · intro f
    simp only [field_updateField_eq]
    by_cases first : j = f.rawValue
    · have other : k ≠ f.rawValue := fun same => different (first.trans same.symm)
      simp [first, other]
    · simp [first]

theorem updateField_twice (item : Item) (key : Key) (value : Option Value) :
    (item.updateField key value).updateField key value = item.updateField key value := by
  obtain ⟨items, id, author, checkedBy⟩ := updateField_same (item.updateField key value) key value
  refine ext_field items id author checkedBy ?_
  intro f
  simp only [field_updateField_eq]
  by_cases here : key = f.rawValue
  · simp only [if_pos here]
    cases wellTyped key value <;> rfl
  · simp only [if_neg here]

/-! ## A dictionary -/

/-- Changes of other fields can come before or after a dictionary. -/
theorem update_updateField {data : List (Key × Option Value)} {key : Key} (other : key ∉ data.map Prod.fst)
    (item : Item) (value : Option Value) :
    (item.updateField key value).update data = (item.update data).updateField key value := by
  induction data generalizing item with
  | nil => rfl
  | cons field rest ih =>
    simp only [List.map_cons, List.mem_cons, not_or] at other
    show ((item.updateField key value).updateField field.1 field.2).update rest = _
    rw [updateField_comm item other.1, ih other.2]
    rfl

theorem update_comm {first second : List (Key × Option Value)}
    (disjoint : ∀ key ∈ first.map Prod.fst, key ∉ second.map Prod.fst) (item : Item) :
    (item.update first).update second = (item.update second).update first := by
  induction first generalizing item with
  | nil => rfl
  | cons field rest ih =>
    obtain ⟨apart, later⟩ := List.forall_mem_cons.mp disjoint
    show ((item.updateField field.1 field.2).update rest).update second = ((item.update second).updateField _ _).update rest
    rw [ih later, update_updateField apart]

/-- The order in which the keys of a dictionary are visited does not matter. -/
theorem update_perm {data order : List (Key × Option Value)} (distinct : (data.map Prod.fst).Nodup)
    (visited : order.Perm data) (item : Item) : item.update order = item.update data := by
  refine visited.foldl_eq' ?_ item
  intro field first other second item
  have firstListed := visited.mem_iff.mp first
  have secondListed := visited.mem_iff.mp second
  by_cases same : field.1 = other.1
  · rw [List.inj_on_of_nodup_map distinct firstListed secondListed same]
  · exact updateField_comm item same field.2 other.2

/-- A dictionary that comes again changes nothing. -/
theorem update_twice {data : List (Key × Option Value)} (distinct : (data.map Prod.fst).Nodup) (item : Item) :
    (item.update data).update data = item.update data := by
  induction data generalizing item with
  | nil => rfl
  | cons field rest ih =>
    obtain ⟨other, restDistinct⟩ := List.nodup_cons.mp distinct
    show (((item.updateField field.1 field.2).update rest).updateField field.1 field.2).update rest = _
    rw [← update_updateField other, updateField_twice, ih restDistinct]
    rfl

/-! ## The record -/

theorem deserialize_iff {itemsId : String} {id : Key} {data : Snapshot} {item : Item} :
    deserialize itemsId id data = some item ↔ item.itemsId = itemsId ∧ item.id = id ∧ item.authorName = "" ∧
      item.checkedByName = "" ∧ ∀ f : ItemKeys, data.at? [f.rawValue] = some (item.field f) := by
  constructor
  · intro decoded
    obtain ⟨authorName, checkedByName⟩ := deserialize_names decoded
    refine ⟨?_, deserialize_id decoded, authorName, checkedByName, at?_of_deserialize decoded⟩
    simp only [deserialize, Option.bind_eq_bind, Option.pure_def, Option.bind_eq_some_iff, Option.some.injEq] at decoded
    obtain ⟨_, _, _, _, _, _, _, _, rfl⟩ := decoded
    rfl
  · rintro ⟨rfl, rfl, authorName, checkedByName, fields⟩
    have title := fields .title
    have checked := fields .checked
    have author := fields .author_id
    have checkedBy := fields .checked_by_id
    cases item
    simp only at authorName checkedByName
    subst authorName checkedByName
    simp [deserialize, stringAt, boolAt, title, checked, author, checkedBy, field, Value.asString, Value.asBool]

theorem at?_mergeField (record : Snapshot) (key : Key) (value : Option Value) (f : ItemKeys) :
    (mergeField record key value).at? [f.rawValue] =
      if key = f.rawValue then (wellTyped key value).or (record.at? [f.rawValue]) else record.at? [f.rawValue] := by
  unfold mergeField
  cases wellTyped key value with
  | none => simp
  | some new =>
    ext v
    rw [Tree.at?_eq_some, Tree.mem_put]
    by_cases here : key = f.rawValue
    · simp [here, Tree.leaf, eq_comm]
    · simp [here, Ne.symm here, Tree.leaf, Tree.at?_eq_some]

/-- One merged change and one round of the loop. -/
theorem deserialize_mergeField {itemsId : String} {id : Key} {data : Snapshot} {item : Item}
    (decoded : deserialize itemsId id data = some item) (key : Key) (value : Option Value) :
    deserialize itemsId id (mergeField data key value) = some (item.updateField key value) := by
  obtain ⟨sameItems, sameId, authorName, checkedByName, fields⟩ := deserialize_iff.mp decoded
  obtain ⟨items, id, author, checkedBy⟩ := updateField_same item key value
  refine deserialize_iff.mpr
    ⟨items.trans sameItems, id.trans sameId, author.trans authorName, checkedBy.trans checkedByName, ?_⟩
  intro f
  rw [at?_mergeField, field_updateField_eq, fields f]
  by_cases here : key = f.rawValue
  · simp only [if_pos here]
    cases wellTyped key value <;> rfl
  · simp only [if_neg here]

theorem deserialize_merge {itemsId : String} {id : Key} {data : Snapshot} {item : Item}
    (decoded : deserialize itemsId id data = some item) (changes : List (Key × Option Value)) :
    deserialize itemsId id (merge data changes) = some (item.update changes) := by
  induction changes generalizing data item with
  | nil => exact decoded
  | cons field rest ih => exact ih (deserialize_mergeField decoded field.1 field.2)

theorem deserialize_deliveries {itemsId : String} {id : Key} {data : Snapshot} {item : Item}
    (decoded : deserialize itemsId id data = some item) (deliveries : List Delivery) :
    deserialize itemsId id (deliveries.foldl (fun record delivery => merge record delivery.data) data) =
      some (deliveries.foldl (fun item delivery => item.update delivery.order) item) := by
  induction deliveries generalizing data item with
  | nil => exact decoded
  | cons delivery rest ih =>
    have first : item.update delivery.order = item.update delivery.data := update_perm delivery.distinct delivery.visited item
    simp only [List.foldl_cons]
    rw [first]
    exact ih (deserialize_merge decoded delivery.data)

end Item

/-- Whatever dictionaries come, in whatever order they are visited, the item is the one
    that the merged record decodes to; dictionaries of different fields commute, and
    one that comes again changes nothing. -/
theorem updates_equal_reload :
    (∀ (itemsId : String) (id : Key) (data : Snapshot) (item : Item) (deliveries : List Delivery),
      Item.deserialize itemsId id data = some item →
        Item.deserialize itemsId id (deliveries.foldl (fun record delivery => merge record delivery.data) data) =
          some (deliveries.foldl (fun item delivery => item.update delivery.order) item)) ∧
    (∀ (item : Item) (first second : Delivery), (∀ key ∈ first.keys, key ∉ second.keys) →
      (item.update first.order).update second.order = (item.update second.order).update first.order) ∧
    ∀ (item : Item) (first again : Delivery), again.data = first.data →
      (item.update first.order).update again.order = item.update first.order := by
  refine ⟨?_, ?_, ?_⟩
  · intro itemsId id data item deliveries decoded
    exact Item.deserialize_deliveries decoded deliveries
  · intro item first second disjoint
    rw [Item.update_perm first.distinct first.visited, Item.update_perm second.distinct second.visited,
      Item.update_perm first.distinct first.visited, Item.update_perm second.distinct second.visited]
    exact Item.update_comm disjoint item
  · intro item first again same
    rw [Item.update_perm first.distinct first.visited, Item.update_perm again.distinct again.visited, same]
    exact Item.update_twice first.distinct item

/-- Bob checks milk, and then several fields come at once, one of them of the wrong type. -/
theorem updates_equal_reload_milkChanges :
    Item.deserialize "groceryItems" Sample.milk (merge (merge Sample.milkRecord [(Keys.checked, some (.bool true))])
        [(Keys.title, some (.bool true)), (Keys.email, none), (Keys.checked_by_id, some (.string "bob"))]) =
      some { Sample.milkItem with checked := true, checkedById := "bob" } :=
  updates_equal_reload.1 "groceryItems" Sample.milk Sample.milkRecord Sample.milkItem
    [.single Keys.checked (some (.bool true)),
     ⟨[(Keys.title, some (.bool true)), (Keys.email, none), (Keys.checked_by_id, some (.string "bob"))], by decide,
      [(Keys.checked_by_id, some (.string "bob")), (Keys.title, some (.bool true)), (Keys.email, none)], by decide⟩]
    (by decide)

end SharedList
