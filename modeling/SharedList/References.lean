import SharedList.Records

/-!
`frb_utils`: the path strings and references of the tables. A reference is the
list of keys that leads from the root of the database to its node.
-/
namespace SharedList

@[simp] theorem segments_users : segments "users" = [Keys.users] := segments_key Keys.users
@[simp] theorem segments_lists : segments "lists" = [Keys.lists] := segments_key Keys.lists
@[simp] theorem segments_items : segments "items" = [Keys.items] := segments_key Keys.items
@[simp] theorem segments_invitations : segments "invitations" = [Keys.invitations] := segments_key Keys.invitations
@[simp] theorem segments_list_id : segments "list_id" = [Keys.list_id] := segments_key Keys.list_id

namespace FrbUtils

/-! ## String paths -/

def userPath (id : String) : String := Keys.users.val ++ "/" ++ id
def listPath (id : String) : String := Keys.lists.val ++ "/" ++ id
def listUsersPath (id : String) : String := Keys.lists.val ++ "/" ++ id ++ "/" ++ Keys.users.val
def itemsTablePath (id : String) : String := Keys.items.val ++ "/" ++ id
def itemsInItemsPath (id : String) : String := itemsTablePath id ++ "/" ++ Keys.items.val
def itemPath (itemsId itemId : String) : String := itemsInItemsPath itemsId ++ "/" ++ itemId

/-! ## References -/

abbrev Reference := List Key

/-- `DatabaseReference.child`: the argument may be a path of several keys. -/
def child (ref : Reference) (path : String) : Reference := ref ++ segments path

theorem child_key (ref : Reference) (k : Key) : child ref k.val = ref ++ [k] := by
  rw [child, segments_key]

def dbRef : Reference := []
def userDbRef (id : String) : Reference := child dbRef (userPath id)
def userListsDbRef (userId : String) : Reference := child (userDbRef userId) Keys.lists.val
def listDbRef (id : String) : Reference := child dbRef (listPath id)
def listUsersDbRef (id : String) : Reference := child dbRef (listUsersPath id)
def itemsTableDbRef : Reference := child dbRef Keys.items.val
def itemsDbRef (id : String) : Reference := child itemsTableDbRef id
def itemDbRef (itemsId itemId : String) : Reference := child dbRef (itemPath itemsId itemId)

@[simp] theorem userListsDbRef_key (u : Key) : userListsDbRef u.val = [Keys.users, u, Keys.lists] := by
  simp [-String.reduceAppend, userListsDbRef, userDbRef, userPath, child, dbRef]
@[simp] theorem listDbRef_key (L : Key) : listDbRef L.val = [Keys.lists, L] := by
  simp [-String.reduceAppend, listDbRef, listPath, child, dbRef]
@[simp] theorem listUsersDbRef_key (L : Key) : listUsersDbRef L.val = [Keys.lists, L, Keys.users] := by
  simp [-String.reduceAppend, listUsersDbRef, listUsersPath, child, dbRef]
@[simp] theorem segments_itemPath (I k : Key) :
    segments (itemPath I.val k.val) = [Keys.items, I, Keys.items, k] := by
  simp [-String.reduceAppend, itemPath, itemsInItemsPath, itemsTablePath]
@[simp] theorem itemDbRef_key (I k : Key) : itemDbRef I.val k.val = [Keys.items, I, Keys.items, k] := by
  simp [-String.reduceAppend, itemDbRef, child, dbRef]
@[simp] theorem itemsDbRef_key (I : Key) : itemsDbRef I.val = [Keys.items, I] := by
  simp [-String.reduceAppend, itemsDbRef, itemsTableDbRef, child, dbRef]
/-- The reference that `SingleListManager` reads and observes for the table `I`. -/
theorem items_child_key (I : Key) :
    child (itemsDbRef I.val) Keys.items.val = [Keys.items, I, Keys.items] := by
  rw [child_key, itemsDbRef_key]
  rfl

end FrbUtils
end SharedList
