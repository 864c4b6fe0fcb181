import Mathlib.Data.List.Basic

/-!
Slash-separated path strings. `segments` reads a path string as the keys it
names, dropping empty pieces; a key is a non-empty string without slash, so
that it is one piece of every path it is written into.
-/
namespace SharedList

/-- A non-empty string without slash. -/
structure Key where
  val : String
  nonempty : val ≠ "" := by decide
  noSlash : '/' ∉ val.toList := by decide
deriving DecidableEq

namespace Key

/-- The key a piece of a path names, unless the piece is empty. -/
def ofPiece? (piece : List Char) : Option Key :=
  if h : String.ofList piece ≠ "" ∧ '/' ∉ (String.ofList piece).toList then
    some ⟨String.ofList piece, h.1, h.2⟩
  else none

theorem ofPiece?_val (k : Key) : ofPiece? k.val.toList = some k := by
  simp [ofPiece?, k.nonempty, k.noSlash]

theorem val_injective {j k : Key} (same : j.val = k.val) : j = k := by
  cases j; cases k; cases same; rfl

@[simp] theorem val_inj {j k : Key} : j.val = k.val ↔ j = k := ⟨val_injective, congrArg Key.val⟩

end Key

/-- The keys a path string names, in order. -/
def segments (path : String) : List Key := (path.toList.splitOn '/').filterMap Key.ofPiece?

/-- A slash separates the keys before it from those after it. -/
@[simp] theorem segments_slash (a b : String) : segments (a ++ "/" ++ b) = segments a ++ segments b := by
  have split : (a.toList ++ '/' :: b.toList).splitOn '/' = a.toList.splitOn '/' ++ b.toList.splitOn '/' :=
    List.splitOnP_append_cons _ _ (by simp)
  have spelled : (a ++ "/" ++ b).toList = a.toList ++ '/' :: b.toList := by
    simp [String.toList_append]
  rw [segments, spelled, split, List.filterMap_append]
  rfl

@[simp] theorem segments_key (k : Key) : segments k.val = [k] := by
  have whole : k.val.toList.splitOn '/' = [k.val.toList] := by
    simpa using @List.splitOn_intercalate _ [k.val.toList] _ _ '/' (by simpa using k.noSlash) (by simp)
  rw [segments, whole]
  simp [Key.ofPiece?_val]

end SharedList
