import Mathlib.Data.List.Lex
import Mathlib.Data.Nat.Digits.Defs

/-!
Numbers in a fixed width of digits, the most significant first. Of two of one
length the smaller number comes first in the lexicographic order. `writeDigits` writes
a number from its last digit on, and `carry` counts one on in place.
-/
namespace SharedList.Digits

def value (b : Nat) (digits : List Nat) : Nat := Nat.ofDigits b digits.reverse

/-- Digits below the base. -/
def Small (b : Nat) (digits : List Nat) : Prop := ∀ d ∈ digits, d < b

@[simp] theorem value_nil (b : Nat) : value b [] = 0 := rfl

theorem value_append (b : Nat) (xs ys : List Nat) : value b (xs ++ ys) = value b ys + b ^ ys.length * value b xs := by
  rw [value, List.reverse_append, Nat.ofDigits_append, List.length_reverse]
  rfl

theorem value_cons (b d : Nat) (rest : List Nat) : value b (d :: rest) = value b rest + b ^ rest.length * d := by
  have single : value b [d] = d := by simp [value]
  rw [← List.singleton_append, value_append, single]

theorem value_concat (b : Nat) (front : List Nat) (d : Nat) : value b (front ++ [d]) = d + b * value b front := by
  rw [value_append, value_cons]
  simp

theorem value_lt {b : Nat} {digits : List Nat} (base : 1 < b) (small : Small b digits) : value b digits < b ^ digits.length := by
  have bound := Nat.ofDigits_lt_base_pow_length base (l := digits.reverse) (by simpa [Small] using small)
  rwa [List.length_reverse] at bound

theorem Small.append {b : Nat} {xs ys : List Nat} (first : Small b xs) (last : Small b ys) : Small b (xs ++ ys) := by
  intro d member
  exact (List.mem_append.mp member).elim (first d) (last d)

/-- The smaller number comes first. -/
theorem lt_of_value_lt {b : Nat} (base : 1 < b) {xs ys : List Nat} (length : xs.length = ys.length)
    (smallXs : Small b xs) (smallYs : Small b ys) (less : value b xs < value b ys) : xs < ys := by
  induction xs generalizing ys with
  | nil =>
    rw [List.eq_nil_of_length_eq_zero length.symm] at less
    exact absurd less (Nat.lt_irrefl _)
  | cons x xs ih =>
    cases ys with
    | nil => cases length
    | cons y ys =>
      have restLength : xs.length = ys.length := Nat.succ.inj length
      have restXs : Small b xs := fun d member => smallXs d (List.mem_cons_of_mem _ member)
      have restYs : Small b ys := fun d member => smallYs d (List.mem_cons_of_mem _ member)
      rw [value_cons, value_cons, restLength] at less
      refine List.cons_lt_cons_iff.mpr ?_
      rcases Nat.lt_trichotomy x y with first | same | last
      · exact .inl first
      · subst same
        exact .inr ⟨rfl, ih restLength restXs restYs (Nat.lt_of_add_lt_add_right less)⟩
      · -- a larger first digit outweighs all that follows
        have bound := value_lt base restYs
        have weight : b ^ ys.length * y + b ^ ys.length ≤ b ^ ys.length * x := by
          rw [← Nat.mul_succ]
          exact Nat.mul_le_mul_left _ last
        omega

/-! ## Writing a number -/

/-- Writes `width` digits of the number before those that are written, the last first. -/
def writeDigits (b : Nat) : Nat → Nat → List Nat → List Nat
  | 0, _, written => written
  | width + 1, n, written => writeDigits b width (n / b) (n % b :: written)

theorem writeDigits_length (b width n : Nat) (written : List Nat) :
    (writeDigits b width n written).length = width + written.length := by
  induction width generalizing n written with
  | zero => simp [writeDigits]
  | succ width ih =>
    rw [writeDigits, ih, List.length_cons]
    omega

theorem writeDigits_small {b : Nat} (base : 0 < b) (width n : Nat) {written : List Nat} (small : Small b written) :
    Small b (writeDigits b width n written) := by
  induction width generalizing n written with
  | zero => exact small
  | succ width ih => exact ih (n / b) (List.forall_mem_cons.mpr ⟨Nat.mod_lt n base, small⟩)

theorem value_writeDigits (b width n : Nat) (written : List Nat) :
    value b (writeDigits b width n written) = value b written + b ^ written.length * (n % b ^ width) := by
  induction width generalizing n written with
  | zero => simp [writeDigits, Nat.mod_one]
  | succ width ih =>
    have split : n % b ^ (width + 1) = n % b + b * (n / b % b ^ width) := by
      rw [Nat.pow_succ', Nat.mod_mul]
    rw [writeDigits, ih, value_cons, List.length_cons, split, Nat.pow_succ, Nat.mul_add, Nat.mul_assoc, Nat.add_assoc]

/-! ## Counting on -/

/-- Counts one on from the digit before the index backwards; `none` is a carry out of the first digit. -/
def carry (b : Nat) : Nat → List Nat → Option (List Nat)
  | 0, _ => none
  | i + 1, digits =>
    if digits[i]? = some (b - 1) then carry b i (digits.set i 0) else digits[i]?.map fun d => digits.set i (d + 1)

/-- The digits from the index on stay. -/
theorem carry_append (b : Nat) {i : Nat} {xs : List Nat} (inside : i ≤ xs.length) (ys : List Nat) :
    carry b i (xs ++ ys) = (carry b i xs).map (· ++ ys) := by
  induction i generalizing xs with
  | zero => rfl
  | succ i ih =>
    have put : ∀ d, (xs ++ ys).set i d = xs.set i d ++ ys := fun d => List.set_append_left i d inside
    rw [carry, carry, List.getElem?_append_left inside]
    simp only [put]
    split
    · exact ih (by rw [List.length_set]; exact Nat.le_of_succ_le inside)
    · rw [Option.map_map]
      rfl

/-- What is counted on is one more. -/
theorem carry_value {b : Nat} {i : Nat} {xs zs : List Nat} (length : xs.length = i) (small : Small b xs)
    (carried : carry b i xs = some zs) : zs.length = i ∧ Small b zs ∧ value b zs = value b xs + 1 := by
  induction i generalizing xs zs with
  | zero => cases carried
  | succ i ih =>
    obtain ⟨front, d, rfl⟩ : ∃ front d, xs = front ++ [d] := by
      rcases List.eq_nil_or_concat' xs with rfl | split
      · cases length
      · exact split
    obtain rfl : front.length = i := by simpa using length
    have frontSmall : Small b front := fun e member => small e (List.mem_append_left _ member)
    have below : d < b := small d (by simp)
    have here : (front ++ [d])[front.length]? = some d := by simp
    have put : ∀ e, (front ++ [d]).set front.length e = front ++ [e] := by simp
    rw [carry, here, put] at carried
    by_cases full : d = b - 1
    · rw [if_pos (congrArg some full), carry_append b (Nat.le_refl _), Option.map_eq_some_iff] at carried
      obtain ⟨next, rest, rfl⟩ := carried
      obtain ⟨nextLength, nextSmall, nextValue⟩ := ih rfl frontSmall rest
      refine ⟨by simp [nextLength], nextSmall.append ?_, ?_⟩
      · exact List.forall_mem_singleton.mpr (Nat.zero_lt_of_lt below)
      · rw [value_concat, value_concat, nextValue, Nat.mul_succ]
        omega
    · rw [if_neg (fun same => full (Option.some.inj same)), Option.map_some, put, Option.some.injEq] at carried
      subst carried
      refine ⟨by simp, frontSmall.append (List.forall_mem_singleton.mpr (by omega)), ?_⟩
      rw [value_concat, value_concat]
      omega

end SharedList.Digits
