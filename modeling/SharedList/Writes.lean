import SharedList.References

/-!
The writes of the program: the multi-path dictionaries that the operations
build, and what applying one of them does to each table of the database.
`setValue` and `removeValue` at a reference are the update with this one path.
-/
namespace SharedList
open FrbUtils

abbrev Database := Tree Key Value
/-- The argument of `updateChildValues`: path strings and the nodes to put there. -/
abbrev Update := List (String × Snapshot)

def Update.changes (data : Update) : Tree.Changes Key Value := data.map (fun d => (segments d.1, d.2))
def updateChildValues (db : Database) (data : Update) : Database := db.update data.changes

/-! ## The dictionaries -/

/-- A call of `AddNewList`: the signed-in user, `authManager.currentUser?.name`,
    the title and the two auto ids. -/
structure NewList where
  userId : Key
  name : Option String
  title : String
  newListKey : Key
  newItemsKey : Key
deriving DecidableEq

namespace NewList

/-- `["\(userId)" : authManager.currentUser?.name]`; a missing name is stored as null. -/
def usersDict (call : NewList) : Snapshot :=
  match call.name with
  | some name => Tree.empty.put [call.userId] (string name)
  | none => null

def serializedList (call : NewList) : Snapshot :=
  (ListObject.serialize call.title call.userId.val call.newItemsKey.val).put [Keys.users] call.usersDict

/-- The object that the stored record decodes to. -/
def object (call : NewList) : ListObject :=
  ⟨call.newListKey, call.title, call.userId.val, call.newItemsKey.val⟩

def update (call : NewList) : Update :=
  [(Keys.users.val ++ "/" ++ call.userId.val ++ "/" ++ Keys.lists.val ++ "/" ++ call.newListKey.val, bool true),
   (Keys.lists.val ++ "/" ++ call.newListKey.val, call.serializedList),
   (Keys.items.val ++ "/" ++ call.newItemsKey.val ++ "/" ++ Keys.list_id.val, string call.newListKey.val)]

end NewList

def removeListUpdate (list : ListObject) (usersDict : List Key) : Update :=
  (Keys.lists.val ++ "/" ++ list.id.val, null) :: (Keys.items.val ++ "/" ++ list.items_id, null) ::
    usersDict.map (fun userId =>
      (Keys.users.val ++ "/" ++ userId.val ++ "/" ++ Keys.lists.val ++ "/" ++ list.id.val, null))

namespace Item

def path (frbPrefix : String) (key : ItemKeys) : String := frbPrefix ++ "/" ++ key.rawValue.val
def pathForKey (item : Item) (key : ItemKeys) : String := path (itemPath item.itemsId item.id.val) key

def serialize (itemsId : String) (id : Key) (title : String) (checked : Bool) (authorId doneById : String) : Update :=
  [(path (itemPath itemsId id.val) .title, string title),
   (path (itemPath itemsId id.val) .checked, bool checked),
   (path (itemPath itemsId id.val) .author_id, string authorId),
   (path (itemPath itemsId id.val) .checked_by_id, string doneById)]

end Item

def reverseCheckedUpdate (item : Item) (userId : Key) : Update :=
  let newChecked := !item.checked
  let checkedByValue := if newChecked then userId.val else "NONE"
  [(item.pathForKey .checked, bool newChecked), (item.pathForKey .checked_by_id, string checkedByValue)]

def invitationPath (userId listId : Key) : String :=
  Keys.users.val ++ "/" ++ userId.val ++ "/" ++ Keys.invitations.val ++ "/" ++ listId.val

/-- A write on its way to the server. -/
inductive Write where
  | addNewList (call : NewList)
  | removeList (list : ListObject) (usersDict : List Key)
  | addNewItem (list : ListObject) (newItemKey : Key) (title : String) (authorId : Key)
  | removeItem (item : Item)
  | reverseChecked (item : Item) (userId : Key)
  | sendInvitation (destinationUserId listId : Key) (myEmail message : String)
  | acceptInvitation (userId listId : Key)
  | removeInvitation (userId listId : Key)
deriving DecidableEq

namespace Write

def data : Write → Update
  | .addNewList call => call.update
  | .removeList list usersDict => removeListUpdate list usersDict
  | .addNewItem list newItemKey title authorId =>
    Item.serialize list.items_id newItemKey title false authorId.val "NONE"
  | .removeItem item => [(itemPath item.itemsId item.id.val, null)]
  | .reverseChecked item userId => reverseCheckedUpdate item userId
  | .sendInvitation destinationUserId listId myEmail message =>
    [(invitationPath destinationUserId listId,
      (Tree.empty.put [Keys.user_email] (string myEmail)).put [Keys.message] (string message))]
  | .acceptInvitation userId listId =>
    [(Keys.users.val ++ "/" ++ userId.val ++ "/" ++ Keys.lists.val ++ "/" ++ listId.val, bool true)]
  | .removeInvitation userId listId => [(invitationPath userId listId, null)]

def apply (write : Write) (db : Database) : Database := updateChildValues db write.data

end Write

def applyAll (db : Database) (writes : List Write) : Database := writes.foldl (fun db write => write.apply db) db

/-- The writes of one client, of all that are on their way. -/
def ownWrites (sent : List (Nat × Write)) (client : Nat) : List Write := (sent.filter (fun s => s.1 = client)).map Prod.snd

theorem mem_ownWrites {sent : List (Nat × Write)} {client : Nat} {write : Write} :
    write ∈ ownWrites sent client ↔ (client, write) ∈ sent := by
  simp only [ownWrites, List.mem_map, List.mem_filter, decide_eq_true_eq, Prod.exists]
  constructor
  · rintro ⟨_, _, ⟨member, rfl⟩, rfl⟩
    exact member
  · intro member
    exact ⟨client, write, ⟨member, rfl⟩, rfl⟩

/-! ## The changed paths -/

theorem addNewList_changes (call : NewList) : call.update.changes =
    [([Keys.users, call.userId, Keys.lists, call.newListKey], bool true),
     ([Keys.lists, call.newListKey], call.serializedList),
     ([Keys.items, call.newItemsKey, Keys.list_id], string call.newListKey.val)] := by
  simp [-String.reduceAppend, Update.changes, NewList.update]

theorem removeList_changes (list : ListObject) (usersDict : List Key) : (removeListUpdate list usersDict).changes =
    ([Keys.lists, list.id], null) :: (Keys.items :: segments list.items_id, null) ::
      usersDict.map (fun userId => ([Keys.users, userId, Keys.lists, list.id], null)) := by
  simp [-String.reduceAppend, Update.changes, removeListUpdate, Function.comp_def]

theorem segments_path {itemsId : String} {I : Key} (table : itemsId = I.val) (id : Key) (key : ItemKeys) :
    segments (Item.path (itemPath itemsId id.val) key) = [Keys.items, I, Keys.items, id, key.rawValue] := by
  rw [Item.path, segments_slash, segments_key, table, segments_itemPath]
  rfl

/-- The fields of a new item record. -/
def itemFields (title : String) (checked : Bool) (authorId doneById : String) : List (Key × Value) :=
  [(Keys.title, .string title), (Keys.checked, .bool checked), (Keys.author_id, .string authorId),
   (Keys.checked_by_id, .string doneById)]

/-- The fields that `ReverseChecked` sets. -/
def reversedFields (checked : Bool) (userId : Key) : List (Key × Value) :=
  [(Keys.checked, .bool (!checked)), (Keys.checked_by_id, .string (if !checked then userId.val else "NONE"))]

theorem itemFields_distinct (title : String) (checked : Bool) (authorId doneById : String) :
    (itemFields title checked authorId doneById).Pairwise (fun f g => f.1 ≠ g.1) := by simp [itemFields]
theorem reversedFields_distinct (checked : Bool) (userId : Key) :
    (reversedFields checked userId).Pairwise (fun f g => f.1 ≠ g.1) := by simp [reversedFields]

theorem serialize_changes {itemsId : String} {I : Key} (table : itemsId = I.val) (id : Key) (title : String)
    (checked : Bool) (authorId doneById : String) :
    Update.changes (Item.serialize itemsId id title checked authorId doneById) =
      Tree.fieldChanges [Keys.items, I, Keys.items, id] (itemFields title checked authorId doneById) := by
  simp only [Update.changes, Item.serialize, List.map_cons, List.map_nil, segments_path table]
  rfl

theorem reverseChecked_changes {item : Item} {I : Key} (table : item.itemsId = I.val) (userId : Key) :
    (reverseCheckedUpdate item userId).changes =
      Tree.fieldChanges [Keys.items, I, Keys.items, item.id] (reversedFields item.checked userId) := by
  simp only [Update.changes, reverseCheckedUpdate, Item.pathForKey, List.map_cons, List.map_nil, segments_path table]
  rfl

theorem segments_invitationPath (userId listId : Key) :
    segments (invitationPath userId listId) = [Keys.users, userId, Keys.invitations, listId] := by
  simp [-String.reduceAppend, invitationPath]

/-- The record that `AddNewList` stores: three strings, and the user's name when there is one. -/
theorem serializedList_leaves (call : NewList) : call.serializedList.leaves =
    [([Keys.title], .string call.title), ([Keys.owner_id], .string call.userId.val),
     ([Keys.items_id], .string call.newItemsKey.val)] ++
      call.name.toList.map (fun name => ([Keys.users, call.userId], .string name)) := by
  cases named : call.name with
  | none => simp only [NewList.serializedList, NewList.usersDict, named]; rfl
  | some name => simp only [NewList.serializedList, NewList.usersDict, named]; rfl

end SharedList
