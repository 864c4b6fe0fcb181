import SharedList.Tree
import Mathlib.Data.List.Chain

/-!
Paths in the order of their keys, a path before those below it. In a sorted list the paths between a path
and one below it are below it too, so that a path with another below it has one as its neighbour.
-/
namespace SharedList.PathOrder
universe u
variable {K : Type u} {cmp : K → K → Ordering}

/-- The order tells the keys of the paths apart. -/
def Tells (cmp : K → K → Ordering) (paths : List (List K)) : Prop :=
  ∀ p ∈ paths, ∀ q ∈ paths, ∀ a ∈ p, ∀ b ∈ q, cmp a b = .eq → a = b

theorem prefix_of_between [Std.TransCmp cmp] {p q r : List K} (tells : ∀ a ∈ p, ∀ b ∈ q, cmp a b = .eq → a = b)
    (below : p <+: r) (pq : (List.compareLex cmp p q).isLE) (qr : (List.compareLex cmp q r).isLE) : p <+: q := by
  induction p generalizing q r with
  | nil => exact List.nil_prefix
  | cons a p ih =>
    obtain ⟨r, rfl⟩ := below
    cases q with
    | nil => simp [List.compareLex] at pq
    | cons b q =>
      rw [List.cons_append] at qr
      rw [List.compareLex_cons_cons] at pq qr
      cases order : cmp a b with
      | lt => simp [Std.OrientedCmp.gt_of_lt order] at qr
      | gt => simp [order] at pq
      | eq =>
        have same := tells a List.mem_cons_self b List.mem_cons_self order
        subst same
        simp only [order, Ordering.then] at pq qr
        have further := ih (fun a inP b inQ => tells a (List.mem_cons_of_mem _ inP) b (List.mem_cons_of_mem _ inQ))
          (List.prefix_append p r) pq qr
        exact List.cons_prefix_cons.mpr ⟨rfl, further⟩

theorem eq_of_above [Std.ReflCmp cmp] {p r : List K} (above : r <+: p) (order : (List.compareLex cmp p r).isLE) : p = r := by
  induction r generalizing p with
  | nil => exact List.isLE_compareLex_nil_right.mp order
  | cons a r ih =>
    obtain ⟨s, rfl⟩ := above
    rw [List.cons_append, List.compareLex_cons_cons, @Std.ReflCmp.compare_self K cmp _ a] at order
    rw [List.cons_append, ih (List.prefix_append r s) order]

/-- If no path of a sorted list has the next one below it, no path is equal to another or above it. -/
theorem apart_of_isChain [Std.TransCmp cmp] {paths : List (List K)} (tells : Tells cmp paths)
    (sorted : paths.Pairwise fun p q => (List.compareLex cmp p q).isLE) (chain : paths.IsChain fun p q => ¬ p <+: q) :
    paths.Pairwise Apart := by
  induction paths with
  | nil => exact .nil
  | cons p rest ih =>
    obtain ⟨first, later⟩ := List.pairwise_cons.mp sorted
    have tail := ih (fun q inRest r inRest' => tells q (List.mem_cons_of_mem _ inRest) r (List.mem_cons_of_mem _ inRest')) later chain.tail
    refine List.pairwise_cons.mpr ⟨?_, tail⟩
    cases rest with
    | nil => simp
    | cons q rest =>
      have notBelow : ∀ r ∈ q :: rest, ¬ p <+: r := by
        intro r member below
        have next : ¬ p <+: q := (List.isChain_cons_cons.mp chain).1
        rcases List.mem_cons.mp member with rfl | inRest
        · exact next below
        · exact next (prefix_of_between (tells p List.mem_cons_self q (by simp)) below (first q List.mem_cons_self)
            ((List.pairwise_cons.mp later).1 r inRest))
      intro r member
      refine ⟨notBelow r member, ?_⟩
      intro above
      exact notBelow r member (eq_of_above above (first r member) ▸ List.prefix_rfl)

end SharedList.PathOrder
