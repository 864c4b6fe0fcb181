import Mathlib.Data.List.Basic
import Mathlib.Data.List.Perm.Basic

/-!
Sequences of actions of which some pairs are independent. Two sequences in which
every two dependent actions come in the same order differ only in the order of
independent ones, so they have the same effect wherever independent actions
commute.
-/
namespace SharedList.Traces
universe u v
variable {S : Type u} {A : Type v} [DecidableEq A]

/-- The occurrences of two actions in a sequence. -/
def occurrences (a b : A) (actions : List A) : List A := actions.filter (fun c => c = a ∨ c = b)

/-- The same actions, of which every two dependent ones occur in the same order. -/
def SameOrder (Independent : A → A → Prop) (first second : List A) : Prop :=
  first.Perm second ∧ ∀ a ∈ first, ∀ b ∈ first, ¬ Independent a b → occurrences a b first = occurrences a b second

instance (Independent : A → A → Prop) [DecidableRel Independent] (first second : List A) :
    Decidable (SameOrder Independent first second) := inferInstanceAs (Decidable (_ ∧ _))

theorem mem_occurrences {a b c : A} {actions : List A} : c ∈ occurrences a b actions ↔ c ∈ actions ∧ (c = a ∨ c = b) := by
  simp [occurrences]

theorem occurrences_comm (a b : A) (actions : List A) : occurrences a b actions = occurrences b a actions := by
  simp only [occurrences, or_comm]

theorem occurrences_append (a b : A) (earlier later : List A) :
    occurrences a b (earlier ++ later) = occurrences a b earlier ++ occurrences a b later := List.filter_append ..

theorem occurrences_cons_self (a b : A) (rest : List A) : occurrences a b (a :: rest) = a :: occurrences a b rest := by
  simp [occurrences]

theorem occurrences_cons_other {a b c : A} (other : ¬ (c = a ∨ c = b)) (rest : List A) :
    occurrences a b (c :: rest) = occurrences a b rest := by
  simp [occurrences, other]

variable {Independent : A → A → Prop}

/-- What comes before the first occurrence of an action that may come first is independent of it. -/
theorem SameOrder.independent_before {a : A} {rest earlier later : List A}
    (same : SameOrder Independent (a :: rest) (earlier ++ a :: later)) (notBefore : a ∉ earlier) {b : A} (before : b ∈ earlier) :
    Independent a b ∧ Independent b a := by
  have listed : b ∈ a :: rest := same.1.mem_iff.mpr (List.mem_append_left _ before)
  have different : occurrences a b (a :: rest) ≠ occurrences a b (earlier ++ a :: later) := by
    rw [occurrences_append, occurrences_cons_self]
    have occurs : b ∈ occurrences a b earlier := mem_occurrences.mpr ⟨before, .inr rfl⟩
    cases both : occurrences a b earlier with
    | nil =>
      rw [both] at occurs
      cases occurs
    | cons c more =>
      have inEarlier : c ∈ occurrences a b earlier := by simp [both]
      intro equal
      obtain rfl : a = c := (List.cons.inj equal).1
      exact notBefore (mem_occurrences.mp inEarlier).1
  constructor
  · by_contra dependent
    exact different (same.2 a List.mem_cons_self b listed dependent)
  · by_contra dependent
    have equal := same.2 b listed a List.mem_cons_self dependent
    rw [occurrences_comm b a, occurrences_comm b a] at equal
    exact different equal

/-- The same order without the first action. -/
theorem SameOrder.tail {a : A} {rest earlier later : List A}
    (same : SameOrder Independent (a :: rest) (earlier ++ a :: later)) (notBefore : a ∉ earlier) :
    SameOrder Independent rest (earlier ++ later) := by
  refine ⟨(same.1.trans List.perm_middle).cons_inv, ?_⟩
  intro x first y second dependent
  have equal := same.2 x (List.mem_cons_of_mem _ first) y (List.mem_cons_of_mem _ second) dependent
  rw [occurrences_append] at equal ⊢
  by_cases here : a = x ∨ a = y
  · -- Neither action of the pair occurs before, or it would be independent of the other.
    have none : occurrences x y earlier = [] := by
      rw [List.eq_nil_iff_forall_not_mem]
      intro c occurs
      obtain ⟨before, isOne⟩ := mem_occurrences.mp occurs
      obtain ⟨oneWay, otherWay⟩ := same.independent_before notBefore before
      have other : c ≠ a := by
        rintro rfl
        exact notBefore before
      rcases here with rfl | rfl <;> rcases isOne with rfl | rfl
      · exact other rfl
      · exact dependent oneWay
      · exact dependent otherWay
      · exact other rfl
    have cons : ∀ more, occurrences x y (a :: more) = a :: occurrences x y more := by
      intro more
      rcases here with rfl | rfl
      · exact occurrences_cons_self a y more
      · rw [occurrences_comm x a, occurrences_cons_self, occurrences_comm a x]
    rw [none, cons, cons, List.nil_append] at equal
    rw [none, (List.cons.inj equal).2, List.nil_append]
  · rw [occurrences_cons_other here, occurrences_cons_other here] at equal
    exact equal

section
variable [Setoid S] {act : S → A → S}

omit [DecidableEq A] in
theorem foldl_congr (respects : ∀ {s t} a, s ≈ t → act s a ≈ act t a) (actions : List A) {s t : S} (same : s ≈ t) :
    actions.foldl act s ≈ actions.foldl act t := by
  induction actions generalizing s t with
  | nil => exact same
  | cons a rest ih => exact ih (respects a same)

omit [DecidableEq A] in
/-- An action that commutes with all before it can as well come first. -/
theorem foldl_first (respects : ∀ {s t} a, s ≈ t → act s a ≈ act t a) {earlier : List A} {a : A}
    (commute : ∀ b ∈ earlier, ∀ s, act (act s b) a ≈ act (act s a) b) (s : S) :
    (earlier ++ [a]).foldl act s ≈ earlier.foldl act (act s a) := by
  induction earlier generalizing s with
  | nil => exact Setoid.refl _
  | cons b rest ih =>
    obtain ⟨first, later⟩ := List.forall_mem_cons.mp commute
    exact Setoid.trans (ih later (act s b)) (foldl_congr respects rest (first s))

/-- Sequences that keep the order of dependent actions have the same effect. -/
theorem foldl_sameOrder (respects : ∀ {s t} a, s ≈ t → act s a ≈ act t a) {first second : List A}
    (same : SameOrder Independent first second)
    (commute : ∀ a ∈ first, ∀ b ∈ first, Independent a b → ∀ s, act (act s a) b ≈ act (act s b) a) (s : S) :
    first.foldl act s ≈ second.foldl act s := by
  induction first generalizing second s with
  | nil =>
    obtain rfl : second = [] := List.nil_perm.mp same.1
    exact Setoid.refl s
  | cons a rest ih =>
    obtain ⟨earlier, later, rfl, notBefore⟩ := List.eq_append_cons_of_mem (same.1.mem_iff.mp List.mem_cons_self)
    have moved : (earlier ++ [a]).foldl act s ≈ earlier.foldl act (act s a) := by
      refine foldl_first respects (fun b before => ?_) s
      have listed : b ∈ a :: rest := same.1.mem_iff.mpr (List.mem_append_left _ before)
      exact commute b listed a List.mem_cons_self (same.independent_before notBefore before).2
    have tail : rest.foldl act (act s a) ≈ (earlier ++ later).foldl act (act s a) := by
      refine ih (same.tail notBefore) ?_ _
      exact fun b first c second => commute b (List.mem_cons_of_mem _ first) c (List.mem_cons_of_mem _ second)
    have split : (earlier ++ a :: later).foldl act s = later.foldl act ((earlier ++ [a]).foldl act s) := by
      simp [List.foldl_append]
    rw [split, List.foldl_cons]
    rw [List.foldl_append] at tail
    exact Setoid.trans tail (foldl_congr respects later (Setoid.symm moved))

end
end SharedList.Traces
