import SharedList.Tree
import SharedList.Paths

/-!
The values and objects of the program: the database as a tree of strings and
booleans, the dictionaries that `Serialize` builds and the objects that
`Deserialize` reads. A forced cast is a partial function: `none` is the cast
that fails and stops the app.
-/
namespace SharedList

/-- What the program stores at a leaf. -/
inductive Value where
  | string (s : String)
  | bool (b : Bool)
deriving DecidableEq

namespace Value

def asString : Value → Option String
  | .string s => some s
  | .bool _ => none
def asBool : Value → Option Bool
  | .string _ => none
  | .bool b => some b

@[simp] theorem asString_eq_some {v : Value} {s : String} : v.asString = some s ↔ v = .string s := by
  cases v <;> simp [asString]
@[simp] theorem asBool_eq_some {v : Value} {b : Bool} : v.asBool = some b ↔ v = .bool b := by
  cases v <;> simp [asBool]

end Value

/-- A node of the database, as a write carries it and a listener receives it.
    The empty tree is the absent node, which is also what `NSNull` stands for. -/
abbrev Snapshot := Tree Key Value

def string (s : String) : Snapshot := Tree.leaf (.string s)
def bool (b : Bool) : Snapshot := Tree.leaf (.bool b)
/-- `NSNull()` as a value to write. -/
def null : Snapshot := Tree.empty

/-- `intForString:`, of the digits 0 to 9; a number past the largest `NSInteger` is scanned as that one. -/
def intForString (string : String) : Option Nat :=
  if string.toList.all Char.isDigit then
    some (min (string.toList.foldl (fun num c => num * 10 + (c.toNat - '0'.toNat)) 0) 0x7FFFFFFFFFFFFFFF)
  else none

/-- The number that `valForExport:` sees in a key. Leading zeroes that are not exactly "0" make it a string. -/
def keyAsInt (key : Key) : Option Nat :=
  if key.val.toList.head? = some '0' ∧ key.val.length > 1 then none else intForString key.val

/-- `valForExport:` of a node makes an array of its children: `allIntegerKeys && maxKey < 2 * numKeys`. -/
def ExportsArray (s : Snapshot) : Prop :=
  ∀ key ∈ s.childKeys, (keyAsInt key).any (· < 2 * s.childKeys.length)

instance (s : Snapshot) : Decidable (ExportsArray s) :=
  inferInstanceAs (Decidable (∀ key ∈ s.childKeys, (keyAsInt key).any (· < 2 * s.childKeys.length)))

/-- `value as! [String : Any]`: a node with children, unless the value that it exports is an array. -/
def dictionary? (s : Snapshot) : Option Snapshot :=
  if s.leaves = [] ∨ (s.at? []).isSome ∨ ExportsArray s then none else some s
/-- `value as? [String : String]`: a node whose children are all strings, unless it exports an array. -/
def stringDictionary? (s : Snapshot) : Option Snapshot :=
  if s.leaves ≠ [] ∧ (∀ l ∈ s.leaves, l.1.length = 1 ∧ l.2.asString.isSome) ∧ ¬ ExportsArray s then some s else none
/-- `data[key] as! String`. -/
def stringAt (data : Snapshot) (key : Key) : Option String := (data.at? [key]).bind Value.asString
/-- `data[key] as! Bool`. -/
def boolAt (data : Snapshot) (key : Key) : Option Bool := (data.at? [key]).bind Value.asBool

theorem stringAt_eq_some {data : Snapshot} {key : Key} {s : String} :
    stringAt data key = some s ↔ ([key], Value.string s) ∈ data.leaves := by
  simp [stringAt, Option.bind_eq_some_iff, Tree.at?_eq_some]

theorem not_exportsArray_of_key {s : Snapshot} {key : Key} (child : key ∈ s.childKeys) (noNumber : keyAsInt key = none) :
    ¬ ExportsArray s := by
  intro array
  have number := array key child
  rw [noNumber] at number
  cases number

/-- A node with a leaf below it is a dictionary, unless it exports an array. -/
theorem dictionary?_of_leaf {data : Snapshot} {k : Key} {r : List Key} {v : Value} (member : (k :: r, v) ∈ data.leaves)
    (noArray : ¬ ExportsArray data) : dictionary? data = some data := by
  have noRoot : data.at? [] = none := by
    by_contra other
    obtain ⟨value, found⟩ := Option.ne_none_iff_exists'.mp other
    have same := data.leaf_unique (Tree.at?_eq_some.mp found) member List.nil_prefix
    cases same.1
  have nonempty : data.leaves ≠ [] := List.ne_nil_of_mem member
  simp [dictionary?, noRoot, nonempty, noArray]

/-- One key that is no number makes a dictionary of a node. -/
theorem dictionary?_of_key {data : Snapshot} {k : Key} {r : List Key} {v : Value} (member : (k :: r, v) ∈ data.leaves)
    (noNumber : keyAsInt k = none) : dictionary? data = some data := by
  have child : k ∈ data.childKeys := Tree.mem_childKeys.mpr ⟨_, member, ⟨r, rfl⟩⟩
  exact dictionary?_of_leaf member (not_exportsArray_of_key child noNumber)

theorem dictionary?_eq_some {data read : Snapshot} (dictionary : dictionary? data = some read) :
    read = data ∧ data.leaves ≠ [] := by
  simp only [dictionary?, Option.ite_none_left_eq_some, not_or, Option.some.injEq] at dictionary
  exact ⟨dictionary.2.symm, dictionary.1.1⟩

theorem boolAt_eq_some {data : Snapshot} {key : Key} {b : Bool} :
    boolAt data key = some b ↔ ([key], Value.bool b) ∈ data.leaves := by
  simp [boolAt, Option.bind_eq_some_iff, Tree.at?_eq_some]

@[simp] theorem string_leaves (s : String) : (string s).leaves = [([], .string s)] := rfl
@[simp] theorem bool_leaves (b : Bool) : (bool b).leaves = [([], .bool b)] := rfl
@[simp] theorem null_leaves : null.leaves = [] := rfl

/-! ## The fixed keys -/

namespace Keys
abbrev users : Key := { val := "users" }
abbrev lists : Key := { val := "lists" }
abbrev items : Key := { val := "items" }
abbrev invitations : Key := { val := "invitations" }
abbrev list_id : Key := { val := "list_id" }
abbrev title : Key := { val := "title" }
abbrev owner_id : Key := { val := "owner_id" }
abbrev items_id : Key := { val := "items_id" }
abbrev checked : Key := { val := "checked" }
abbrev author_id : Key := { val := "author_id" }
abbrev checked_by_id : Key := { val := "checked_by_id" }
abbrev email : Key := { val := "email" }
abbrev name : Key := { val := "name" }
abbrev user_email : Key := { val := "user" }
abbrev message : Key := { val := "message" }
end Keys

/-! ## Lists -/

/-- `class List`. -/
structure ListObject where
  id : Key
  title : String
  owner_id : String
  items_id : String
deriving DecidableEq

namespace ListObject

def serialize (title owner_id items_id : String) : Snapshot :=
  ((Tree.empty.put [Keys.title] (string title)).put [Keys.owner_id] (string owner_id)).put
    [Keys.items_id] (string items_id)

def deserialize (id : Key) (data : Snapshot) : Option ListObject := do
  let title ← stringAt data Keys.title
  let ownerId ← stringAt data Keys.owner_id
  let itemsId ← stringAt data Keys.items_id
  return ⟨id, title, ownerId, itemsId⟩

/-- One round of the loop in `Update`. -/
def updateField (list : ListObject) (key : Key) (value : Option Value) : ListObject :=
  if key = Keys.title then
    match value.bind Value.asString with
    | some newTitle => { list with title := newTitle }
    | none => list
  else list

/-- `Update`; the list gives the dictionary in the order in which its keys are visited. -/
def update (list : ListObject) (data : List (Key × Option Value)) : ListObject :=
  data.foldl (fun list field => list.updateField field.1 field.2) list

theorem update_id (list : ListObject) (data : List (Key × Option Value)) : (list.update data).id = list.id := by
  induction data generalizing list with
  | nil => rfl
  | cons field rest ih =>
    have first : (list.updateField field.1 field.2).id = list.id := by
      unfold updateField
      split
      · split <;> rfl
      · rfl
    exact (ih _).trans first

theorem deserialize_eq_some {id : Key} {data : Snapshot} {list : ListObject} :
    deserialize id data = some list ↔ list.id = id ∧ stringAt data Keys.title = some list.title ∧
      stringAt data Keys.owner_id = some list.owner_id ∧
      stringAt data Keys.items_id = some list.items_id := by
  simp only [deserialize, Option.bind_eq_bind, Option.pure_def, Option.bind_eq_some_iff, Option.some.injEq]
  constructor
  · rintro ⟨title, atTitle, owner, atOwner, items, atItems, rfl⟩
    exact ⟨rfl, atTitle, atOwner, atItems⟩
  · rintro ⟨rfl, atTitle, atOwner, atItems⟩
    exact ⟨_, atTitle, _, atOwner, _, atItems, rfl⟩

end ListObject

/-- `List.Deserialize(id: id, data: snapshot.value! as! [String : Any])`. -/
def ListObject.read (id : Key) (snapshot : Snapshot) : Option ListObject :=
  (dictionary? snapshot).bind (ListObject.deserialize id)

theorem ListObject.read_eq_some {id : Key} {snapshot : Snapshot} {list : ListObject} :
    ListObject.read id snapshot = some list ↔ ListObject.deserialize id snapshot = some list := by
  constructor
  · intro read
    obtain ⟨data, dictionary, decoded⟩ := Option.bind_eq_some_iff.mp read
    rwa [(dictionary?_eq_some dictionary).1] at decoded
  · intro decoded
    have title := stringAt_eq_some.mp (ListObject.deserialize_eq_some.mp decoded).2.1
    rw [ListObject.read, dictionary?_of_key title (by decide)]
    exact decoded

/-! ## Items -/

/-- `Item.Keys`. -/
inductive ItemKeys where
  | title | checked | author_id | checked_by_id
deriving DecidableEq

def ItemKeys.rawValue : ItemKeys → Key
  | .title => Keys.title
  | .checked => Keys.checked
  | .author_id => Keys.author_id
  | .checked_by_id => Keys.checked_by_id

theorem ItemKeys.rawValue_injective {f g : ItemKeys} (same : f.rawValue = g.rawValue) : f = g := by
  cases f <;> cases g <;> first | rfl | simp [ItemKeys.rawValue] at same

/-- `class Item`; `frbPrefix` is `itemPath itemsId id` throughout. -/
structure Item where
  itemsId : String
  id : Key
  title : String
  checked : Bool
  authorId : String
  checkedById : String
  authorName : String := ""
  checkedByName : String := ""
deriving DecidableEq

namespace Item

def deserialize (itemsId : String) (id : Key) (data : Snapshot) : Option Item := do
  let title ← stringAt data ItemKeys.title.rawValue
  let checked ← boolAt data ItemKeys.checked.rawValue
  let authorId ← stringAt data ItemKeys.author_id.rawValue
  let checkedById ← stringAt data ItemKeys.checked_by_id.rawValue
  return { itemsId, id, title, checked, authorId, checkedById }

/-- One round of the loop in `Update`; other keys and wrongly typed values are passed over. -/
def updateField (item : Item) (key : Key) (value : Option Value) : Item :=
  if key = ItemKeys.title.rawValue then
    match value.bind Value.asString with
    | some newTitle => { item with title := newTitle }
    | none => item
  else if key = ItemKeys.checked.rawValue then
    match value.bind Value.asBool with
    | some newDone => { item with checked := newDone }
    | none => item
  else if key = ItemKeys.checked_by_id.rawValue then
    match value.bind Value.asString with
    | some newCheckedById => { item with checkedById := newCheckedById }
    | none => item
  else item

/-- `Update`; the list gives the dictionary in the order in which its keys are visited. -/
def update (item : Item) (data : List (Key × Option Value)) : Item :=
  data.foldl (fun item field => item.updateField field.1 field.2) item

/-- The object's value for a field of the record. -/
def field (item : Item) : ItemKeys → Value
  | .title => .string item.title
  | .checked => .bool item.checked
  | .author_id => .string item.authorId
  | .checked_by_id => .string item.checkedById

def updateAuthorName (item : Item) (newName : String) : Item := { item with authorName := newName }
def updateCheckedByName (item : Item) (newName : String) : Item := { item with checkedByName := newName }

theorem deserialize_id {itemsId : String} {id : Key} {data : Snapshot} {item : Item}
    (decoded : deserialize itemsId id data = some item) : item.id = id := by
  simp only [deserialize, Option.bind_eq_bind, Option.pure_def, Option.bind_eq_some_iff, Option.some.injEq] at decoded
  obtain ⟨_, _, _, _, _, _, _, _, rfl⟩ := decoded
  rfl

theorem deserialize_names {itemsId : String} {id : Key} {data : Snapshot} {item : Item}
    (decoded : deserialize itemsId id data = some item) : item.authorName = "" ∧ item.checkedByName = "" := by
  simp only [deserialize, Option.bind_eq_bind, Option.pure_def, Option.bind_eq_some_iff, Option.some.injEq] at decoded
  obtain ⟨_, _, _, _, _, _, _, _, rfl⟩ := decoded
  exact ⟨rfl, rfl⟩

/-- `Update` keeps the fields that are no part of the record's changes. -/
theorem update_same (item : Item) (data : List (Key × Option Value)) :
    (item.update data).id = item.id ∧ (item.update data).authorId = item.authorId ∧
      (item.update data).authorName = item.authorName ∧ (item.update data).checkedByName = item.checkedByName := by
  induction data generalizing item with
  | nil => exact ⟨rfl, rfl, rfl, rfl⟩
  | cons field rest ih =>
    have first : (item.updateField field.1 field.2).id = item.id ∧
        (item.updateField field.1 field.2).authorId = item.authorId ∧
        (item.updateField field.1 field.2).authorName = item.authorName ∧
        (item.updateField field.1 field.2).checkedByName = item.checkedByName := by
      unfold updateField
      repeat' split
      all_goals exact ⟨rfl, rfl, rfl, rfl⟩
    obtain ⟨id, author, authorName, checkedByName⟩ := ih (item.updateField field.1 field.2)
    exact ⟨id.trans first.1, author.trans first.2.1, authorName.trans first.2.2.1, checkedByName.trans first.2.2.2⟩

/-- A record that decodes has all four fields, as the object has them. -/
theorem at?_of_deserialize {itemsId : String} {id : Key} {data : Snapshot} {item : Item}
    (decoded : deserialize itemsId id data = some item) (f : ItemKeys) : data.at? [f.rawValue] = some (item.field f) := by
  simp only [deserialize, Option.bind_eq_bind, Option.pure_def, Option.bind_eq_some_iff, Option.some.injEq,
    stringAt_eq_some, boolAt_eq_some, ← Tree.at?_eq_some] at decoded
  obtain ⟨_, title, _, checked, _, author, _, checkedBy, rfl⟩ := decoded
  cases f with
  | title => exact title
  | checked => exact checked
  | author_id => exact author
  | checked_by_id => exact checkedBy

theorem deserialize_isSome {itemsId : String} {id : Key} {data : Snapshot} :
    (deserialize itemsId id data).isSome ↔
      (∃ s, ([Keys.title], Value.string s) ∈ data.leaves) ∧ (∃ b, ([Keys.checked], Value.bool b) ∈ data.leaves) ∧
      (∃ s, ([Keys.author_id], Value.string s) ∈ data.leaves) ∧
      ∃ s, ([Keys.checked_by_id], Value.string s) ∈ data.leaves := by
  simp only [deserialize, Option.bind_eq_bind, Option.pure_def, Option.isSome_iff_exists, Option.bind_eq_some_iff,
    Option.some.injEq, stringAt_eq_some, boolAt_eq_some, ItemKeys.rawValue]
  constructor
  · rintro ⟨item, t, atTitle, c, atChecked, a, atAuthor, b, atBy, rfl⟩
    exact ⟨⟨t, atTitle⟩, ⟨c, atChecked⟩, ⟨a, atAuthor⟩, ⟨b, atBy⟩⟩
  · rintro ⟨⟨t, atTitle⟩, ⟨c, atChecked⟩, ⟨a, atAuthor⟩, ⟨b, atBy⟩⟩
    exact ⟨_, t, atTitle, c, atChecked, a, atAuthor, b, atBy, rfl⟩

end Item

/-! ## Invitations -/

/-- `class Invitation`. -/
structure Invitation where
  list_id : Key
  user_email : String
  message : String
deriving DecidableEq

namespace Invitation

def deserialize (listId : Key) (data : Snapshot) : Option Invitation := do
  let userEmail ← stringAt data Keys.user_email
  let message ← stringAt data Keys.message
  return ⟨listId, userEmail, message⟩

/-- The dictionary that `SendInvitation` stores. -/
def record (myEmail message : String) : Snapshot :=
  (Tree.empty.put [Keys.user_email] (string myEmail)).put [Keys.message] (string message)

/-- A child of `users/<u>/invitations`, cast to `[String : String]` and decoded. -/
def read (listId : Key) (invitationSnapshot : Snapshot) : Option Invitation :=
  (stringDictionary? invitationSnapshot).bind (deserialize listId)

theorem read_list_id {listId : Key} {invitationSnapshot : Snapshot} {invitation : Invitation}
    (decoded : read listId invitationSnapshot = some invitation) : invitation.list_id = listId := by
  simp only [read, deserialize, Option.bind_eq_bind, Option.pure_def, Option.bind_eq_some_iff, Option.some.injEq] at decoded
  obtain ⟨_, _, _, _, _, _, rfl⟩ := decoded
  rfl

theorem read_record (listId : Key) (myEmail message : String) :
    read listId (record myEmail message) = some ⟨listId, myEmail, message⟩ := rfl

theorem read_of_no_leaves {listId : Key} {invitationSnapshot : Snapshot} (absent : invitationSnapshot.leaves = []) :
    read listId invitationSnapshot = none := by
  simp [read, stringDictionary?, absent]

end Invitation

/-! ## The ids and records of the sample runs -/

namespace Sample
abbrev alice : Key := { val := "alice" }
abbrev bob : Key := { val := "bob" }
abbrev groceries : Key := { val := "groceries" }
abbrev groceryItems : Key := { val := "groceryItems" }
abbrev hardware : Key := { val := "hardware" }
abbrev hardwareItems : Key := { val := "hardwareItems" }
abbrev milk : Key := { val := "milk" }

def groceryRecord : Snapshot := ListObject.serialize "Groceries" "alice" "groceryItems"
def groceryList : ListObject := ⟨groceries, "Groceries", "alice", "groceryItems"⟩
def milkRecord : Snapshot :=
  (((Tree.empty.put [Keys.title] (string "Milk")).put [Keys.checked] (bool false)).put [Keys.author_id] (string "alice")).put
    [Keys.checked_by_id] (string "NONE")
/-- The users map of a list that Alice made. -/
def aliceUsers : Snapshot := Tree.empty.put [alice] (string "Alice")
/-- The item that Alice puts on the list, as every client first reads it. -/
def milkItem : Item := ⟨"groceryItems", milk, "Milk", false, "alice", "NONE", "", ""⟩
end Sample

end SharedList
