import Mathlib.Data.List.Dedup

/-!
Lists of entries with a key each. `lookup` is the entry of a key; as long as no
two entries have one key, it says what the list holds, and taking the first
entry of a key away takes the key away.
-/
namespace SharedList.Keyed
universe u v
variable {α : Type u} {κ : Type v} [DecidableEq κ] (key : α → κ)

/-- The first entry with the key. -/
def lookup (entries : List α) (k : κ) : Option α := entries.find? (fun entry => key entry = k)

variable {key}

theorem lookup_append (entries more : List α) (k : κ) :
    lookup key (entries ++ more) k = (lookup key entries k).or (lookup key more k) := List.find?_append

theorem lookup_eq_none {entries : List α} {k : κ} : lookup key entries k = none ↔ k ∉ entries.map key := by
  simp [lookup]

theorem key_of_lookup {entries : List α} {k : κ} {entry : α} (found : lookup key entries k = some entry) :
    entry ∈ entries ∧ key entry = k :=
  ⟨List.mem_of_find?_eq_some found, by simpa using List.find?_some found⟩

/-- At most one entry, under a known key. -/
theorem lookup_toList {single : Option α} {k : κ} (keyed : ∀ entry ∈ single, key entry = k) (j : κ) :
    lookup key single.toList j = if k = j then single else none := by
  cases single with
  | none => simp [lookup]
  | some entry => simp [lookup, keyed entry rfl]

/-- With distinct keys every entry is the one that its key finds. -/
theorem lookup_eq_some {entries : List α} (distinct : (entries.map key).Nodup) {k : κ} {entry : α} :
    lookup key entries k = some entry ↔ entry ∈ entries ∧ key entry = k := by
  refine ⟨key_of_lookup, ?_⟩
  rintro ⟨member, rfl⟩
  cases found : lookup key entries (key entry) with
  | none => exact absurd (List.mem_map.mpr ⟨entry, member, rfl⟩) (lookup_eq_none.mp found)
  | some other =>
    obtain ⟨listed, sameKey⟩ := key_of_lookup found
    rw [List.inj_on_of_nodup_map distinct listed member sameKey]

/-- With distinct keys, removing the first entry of a key removes every entry of it. -/
theorem eraseP_eq_filter {entries : List α} (distinct : (entries.map key).Nodup) (k : κ) :
    entries.eraseP (fun entry => key entry = k) = entries.filter (fun entry => key entry ≠ k) := by
  induction entries with
  | nil => rfl
  | cons entry rest ih =>
    obtain ⟨notInRest, restDistinct⟩ := List.nodup_cons.mp distinct
    by_cases here : key entry = k
    · have others : rest.filter (fun entry => key entry ≠ k) = rest := by
        refine List.filter_eq_self.mpr fun other member => ?_
        have differs : key other ≠ k := by
          intro same
          exact notInRest (List.mem_map.mpr ⟨other, member, same.trans here.symm⟩)
        simpa using differs
      rw [List.eraseP_cons_of_pos (by simpa using here), List.filter_cons_of_neg (by simpa using here), others]
    · rw [List.eraseP_cons_of_neg (by simpa using here), List.filter_cons_of_pos (by simpa using here), ih restDistinct]

/-- The other keys keep their entries. -/
theorem lookup_eraseP {entries : List α} (distinct : (entries.map key).Nodup) (k j : κ) :
    lookup key (entries.eraseP (fun entry => key entry = k)) j = if j = k then none else lookup key entries j := by
  rw [eraseP_eq_filter distinct]
  by_cases same : j = k
  · subst same
    rw [if_pos rfl, lookup_eq_none]
    simp
  · rw [if_neg same, lookup, List.find?_filter, lookup]
    congr 1
    funext entry
    by_cases here : key entry = j
    · simp [here, same]
    · simp [here]

omit [DecidableEq κ] in
theorem nodup_eraseP {entries : List α} (distinct : (entries.map key).Nodup) (p : α → Bool) :
    ((entries.eraseP p).map key).Nodup := distinct.sublist (List.eraseP_sublist.map key)

end SharedList.Keyed
