import Mathlib.Data.List.Basic

/-!
A row of a list that grows at its end and loses entries anywhere. What stands in
the row stays there as long as only later entries go; once an entry at or before
the row has gone, it stands before the row or nowhere, whatever comes after.
-/
namespace SharedList.Rows
universe u
variable {α : Type u}

/-- The value stands in no row from this one on. -/
def Passed (xs : List α) (row : Nat) (x : α) : Prop := ∀ i, row ≤ i → xs[i]? ≠ some x

theorem append_getElem? {xs : List α} {row : Nat} {x : α} (stands : xs[row]? = some x) (more : List α) :
    (xs ++ more)[row]? = some x := by
  obtain ⟨inside, _⟩ := List.getElem?_eq_some_iff.mp stands
  rw [List.getElem?_append_left inside, stands]

/-- A later entry goes. -/
theorem eraseIdx_getElem? {xs : List α} {row index : Nat} {x : α} (stands : xs[row]? = some x) (later : row < index) :
    (xs.eraseIdx index)[row]? = some x := by
  rw [List.getElem?_eraseIdx_of_lt later, stands]

theorem Passed.append {xs : List α} {row : Nat} {x : α} (passed : Passed xs row x) {more : List α} (other : x ∉ more) :
    Passed (xs ++ more) row x := by
  intro i from_row stands
  rw [List.getElem?_append] at stands
  split at stands
  · exact passed i from_row stands
  · exact other (List.mem_of_getElem? stands)

theorem Passed.eraseIdx {xs : List α} {row : Nat} {x : α} (passed : Passed xs row x) (index : Nat) :
    Passed (xs.eraseIdx index) row x := by
  intro i from_row stands
  rw [List.getElem?_eraseIdx] at stands
  split at stands
  · exact passed i from_row stands
  · exact passed (i + 1) (Nat.le_succ_of_le from_row) stands

/-- The entry in the row or an earlier one goes. -/
theorem passed_eraseIdx {xs : List α} (distinct : xs.Nodup) {row index : Nat} {x : α} (stands : xs[row]? = some x)
    (early : index ≤ row) : Passed (xs.eraseIdx index) row x := by
  intro i from_row again
  obtain ⟨inside, _⟩ := List.getElem?_eq_some_iff.mp stands
  rw [List.getElem?_eraseIdx_of_ge (Nat.le_trans early from_row)] at again
  have same := (List.getElem?_inj inside distinct).mp (stands.trans again.symm)
  omega

end SharedList.Rows
