import Mathlib.Data.Finset.Card
import Mathlib.Data.Finset.Union
import Mathlib.Logic.Function.Iterate

/-!
What can be reached along references. `reach` collects it in rounds, each of
which adds what the objects found so far refer to; as many rounds as there are
objects find everything at the end of a chain of references from a root.
-/
namespace SharedList.Reachability
universe u
variable {α : Type u}

/-- There is a chain of references from a root to the object. -/
inductive Reachable (refers : α → List α) (roots : Finset α) : α → Prop where
  | root {a : α} : a ∈ roots → Reachable refers roots a
  | next {a b : α} : Reachable refers roots a → b ∈ refers a → Reachable refers roots b

variable [DecidableEq α] (refers : α → List α)

/-- The objects found so far, and those that they refer to. -/
def spread (found : Finset α) : Finset α := found ∪ found.biUnion (fun a => (refers a).toFinset)

def reach (rounds : Nat) (roots : Finset α) : Finset α := (spread refers)^[rounds] roots

/-- Nothing that is found refers to anything else. -/
def Closed (found : Finset α) : Prop := ∀ a ∈ found, ∀ b ∈ refers a, b ∈ found

variable {refers}

theorem mem_spread {found : Finset α} {b : α} : b ∈ spread refers found ↔ b ∈ found ∨ ∃ a ∈ found, b ∈ refers a := by
  simp [spread]

theorem subset_spread (found : Finset α) : found ⊆ spread refers found := Finset.subset_union_left

theorem spread_of_closed {found : Finset α} (closed : Closed refers found) : spread refers found = found := by
  refine Finset.Subset.antisymm ?_ (subset_spread found)
  intro b member
  rcases mem_spread.mp member with old | ⟨a, inFound, referred⟩
  · exact old
  · exact closed a inFound b referred

/-- A round that finds nothing new is the last. -/
theorem card_lt_spread {found : Finset α} (notClosed : ¬ Closed refers found) : found.card < (spread refers found).card := by
  simp only [Closed, not_forall] at notClosed
  obtain ⟨a, inFound, b, referred, new⟩ := notClosed
  refine Finset.card_lt_card (Finset.ssubset_iff_subset_ne.mpr ⟨subset_spread found, ?_⟩)
  intro same
  exact new (same ▸ mem_spread.mpr (.inr ⟨a, inFound, referred⟩))

theorem reach_succ (rounds : Nat) (roots : Finset α) : reach refers (rounds + 1) roots = spread refers (reach refers rounds roots) :=
  Function.iterate_succ_apply' ..

theorem reachable_of_mem_reach {rounds : Nat} {roots : Finset α} {a : α} (found : a ∈ reach refers rounds roots) :
    Reachable refers roots a := by
  induction rounds generalizing a with
  | zero => exact .root found
  | succ rounds ih =>
    rw [reach_succ, mem_spread] at found
    rcases found with old | ⟨b, earlier, referred⟩
    · exact ih old
    · exact .next (ih earlier) referred

theorem roots_subset_reach (rounds : Nat) (roots : Finset α) : roots ⊆ reach refers rounds roots := by
  induction rounds with
  | zero => exact Finset.Subset.refl roots
  | succ rounds ih =>
    rw [reach_succ]
    exact ih.trans (subset_spread _)

/-- Until the rounds find everything, each finds something. -/
theorem closed_or_le_card (rounds : Nat) (roots : Finset α) :
    Closed refers (reach refers rounds roots) ∨ rounds ≤ (reach refers rounds roots).card := by
  induction rounds with
  | zero => exact .inr (Nat.zero_le _)
  | succ rounds ih =>
    by_cases closed : Closed refers (reach refers rounds roots)
    · left
      rw [reach_succ, spread_of_closed closed]
      exact closed
    · right
      have more := card_lt_spread closed
      have many := ih.resolve_left closed
      rw [reach_succ]
      omega

section
variable {roots objects : Finset α} (among : roots ⊆ objects) (whole : Closed refers objects)
include among whole

theorem reach_subset (rounds : Nat) : reach refers rounds roots ⊆ objects := by
  induction rounds with
  | zero => exact among
  | succ rounds ih =>
    rw [reach_succ]
    intro b member
    rcases mem_spread.mp member with old | ⟨a, found, referred⟩
    · exact ih old
    · exact whole a (ih found) b referred

theorem closed_reach : Closed refers (reach refers objects.card roots) := by
  rcases @closed_or_le_card _ _ refers objects.card roots with closed | many
  · exact closed
  · have all := Finset.eq_of_subset_of_card_le (reach_subset among whole objects.card) many
    rw [all]
    exact whole

/-- As many rounds as there are objects find exactly what is reachable. -/
theorem mem_reach_iff {a : α} : a ∈ reach refers objects.card roots ↔ Reachable refers roots a := by
  constructor
  · exact reachable_of_mem_reach
  · intro reachable
    induction reachable with
    | root isRoot => exact roots_subset_reach _ _ isRoot
    | next _ referred ih => exact closed_reach among whole _ ih _ referred

end

end SharedList.Reachability
