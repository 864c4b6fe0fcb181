import SharedList.Tree

/-!
Overlays: the changes that several writes make to a tree, kept as a tree of their own
with the new subtrees at its leaves. A write at or below such a leaf goes into the subtree
there, any other takes the place of the leaves at or below its path. Laid over a tree, the
overlay does what the writes do one after the other; only a removal below a leaf of the tree
has to be kept out, since it forgets the writes below it, which have taken the place of the leaf.
-/
namespace SharedList
universe u v
variable {K : Type u} {V : Type v} [DecidableEq K]

/-- New subtrees at paths of which none leads to another. -/
abbrev Overlay (K : Type u) (V : Type v) := Tree K (Tree K V)

namespace Tree

/-- The overlay laid over a tree. -/
def overlay (t : Tree K V) (w : Overlay K V) : Tree K V := t.update w.leaves

/-- The path is not below a leaf of the tree, or something is put there. -/
def Uncovered (t : Tree K V) (p : List K) (s : Tree K V) : Prop := s.leaves = [] → ∀ l ∈ t.leaves, l.1 <+: p → p <+: l.1

instance [DecidableEq V] (t : Tree K V) (p : List K) (s : Tree K V) : Decidable (t.Uncovered p s) :=
  inferInstanceAs (Decidable (_ → _))

/-- What an overlay leaves in place. -/
theorem mem_overlay {t : Tree K V} {w : Overlay K V} {q : List K} {value : V} :
    (q, value) ∈ (t.overlay w).leaves ↔
      (∃ c ∈ w.leaves, ∃ r, q = c.1 ++ r ∧ (r, value) ∈ c.2.leaves) ∨
        ((q, value) ∈ t.leaves ∧ ∀ c ∈ w.leaves, ¬ c.1 <+: q ∧ (c.2.leaves = [] ∨ ¬ q <+: c.1)) := mem_update w.apart

theorem mem_put_congr {t t' : Tree K V} (same : ∀ l, l ∈ t.leaves ↔ l ∈ t'.leaves) {p : List K} {s : Tree K V}
    (l : List K × V) : l ∈ (t.put p s).leaves ↔ l ∈ (t'.put p s).leaves := by
  rw [mem_put, mem_put, same]

end Tree

namespace Overlay
open SharedList.Tree

/-- The leaf of the overlay at or above a path. -/
def rootMost (w : Overlay K V) (p : List K) : Option (List K × Tree K V) := w.leaves.find? (fun c => c.1 <+: p)

/-- One more write. -/
def add (w : Overlay K V) (p : List K) (s : Tree K V) : Overlay K V :=
  match w.rootMost p with
  | some c => w.put c.1 (leaf (c.2.put (p.drop c.1.length) s))
  | none => w.put p (leaf s)

theorem rootMost_some {w : Overlay K V} {p : List K} {c : List K × Tree K V} (found : w.rootMost p = some c) :
    c ∈ w.leaves ∧ ∃ r, p = c.1 ++ r := by
  have search : w.leaves.find? (fun c => c.1 <+: p) = some c := found
  have above : c.1 <+: p := by simpa using List.find?_some search
  obtain ⟨r, path⟩ := above
  exact ⟨List.mem_of_find?_eq_some search, r, path.symm⟩

theorem rootMost_none {w : Overlay K V} {p : List K} (missing : w.rootMost p = none) {c : List K × Tree K V}
    (member : c ∈ w.leaves) : ¬ c.1 <+: p := by
  simpa using List.find?_eq_none.mp missing c member

/-- Two leaves of one overlay are the same or apart. -/
theorem same_or_apart {w : Overlay K V} {c d : List K × Tree K V} (first : c ∈ w.leaves) (second : d ∈ w.leaves) :
    c = d ∨ Apart c.1 d.1 := by
  by_cases same : c = d
  · exact .inl same
  · exact .inr (w.apart.forall first second same)

/-- A write that no leaf is above stands beside the leaves that are not below it. -/
theorem mem_add_none {w : Overlay K V} {p : List K} {s : Tree K V} (missing : w.rootMost p = none) {c : List K × Tree K V} :
    c ∈ (w.add p s).leaves ↔ c = (p, s) ∨ (c ∈ w.leaves ∧ Apart p c.1) := by
  rw [add, missing, mem_put]
  refine or_congr ?_ ?_
  · constructor
    · rintro ⟨r, path, member⟩
      obtain ⟨rfl, value⟩ := Prod.mk.inj (List.mem_singleton.mp member)
      exact Prod.ext (by simpa using path) value
    · rintro rfl
      exact ⟨[], by simp, List.mem_singleton.mpr rfl⟩
  · constructor
    · rintro ⟨member, notBelow, _⟩
      exact ⟨member, notBelow, rootMost_none missing member⟩
    · rintro ⟨member, apart⟩
      exact ⟨member, apart.1, .inr apart.2⟩

/-- A write below a leaf changes this leaf. -/
theorem mem_add_some {w : Overlay K V} {p r : List K} {s v : Tree K V} (found : w.rootMost (p ++ r) = some (p, v))
    {c : List K × Tree K V} :
    c ∈ (w.add (p ++ r) s).leaves ↔ c = (p, v.put r s) ∨ (c ∈ w.leaves ∧ Apart p c.1) := by
  have atLeaf := (rootMost_some found).1
  rw [add, found, mem_put]
  simp only [List.drop_left]
  refine or_congr ?_ ?_
  · constructor
    · rintro ⟨r', path, member⟩
      obtain ⟨rfl, value⟩ := Prod.mk.inj (List.mem_singleton.mp member)
      exact Prod.ext (by simpa using path) value
    · rintro rfl
      exact ⟨[], by simp, List.mem_singleton.mpr rfl⟩
  · constructor
    · rintro ⟨member, notBelow, _⟩
      rcases same_or_apart atLeaf member with same | apart
      · exact absurd (congrArg Prod.fst same ▸ List.prefix_rfl) notBelow
      · exact ⟨member, apart⟩
    · rintro ⟨member, apart⟩
      exact ⟨member, apart.1, .inr apart.2⟩

theorem overlay_add_none {t : Tree K V} {w : Overlay K V} {p : List K} {s : Tree K V} (missing : w.rootMost p = none)
    (uncovered : t.Uncovered p s) (l : List K × V) :
    l ∈ (t.overlay (w.add p s)).leaves ↔ l ∈ ((t.overlay w).put p s).leaves := by
  obtain ⟨q, value⟩ := l
  rw [mem_overlay, mem_put, mem_overlay]
  constructor
  · rintro (⟨c, member, r, rfl, new⟩ | ⟨old, outside⟩)
    · rcases (mem_add_none missing).mp member with rfl | ⟨member, apart⟩
      · exact .inl ⟨r, rfl, new⟩
      · have beside := apart_below r apart
        exact .inr ⟨.inl ⟨c, member, r, rfl, new⟩, beside.1, .inr beside.2⟩
    · obtain ⟨notBelow, notAbove⟩ := outside (p, s) ((mem_add_none missing).mpr (.inl rfl))
      -- a leaf of the tree above the path stays only where nothing is put, and there is none above a removal
      have notThere : ¬ q <+: p := by
        intro above
        rcases notAbove with empty | other
        · exact notBelow (uncovered empty (q, value) old above)
        · exact other above
      refine .inr ⟨.inr ⟨old, ?_⟩, notBelow, .inr notThere⟩
      intro c member
      by_cases below : p <+: c.1
      · refine ⟨fun above => notBelow (below.trans above), .inr ?_⟩
        intro above
        rcases List.prefix_or_prefix_of_prefix above below with h | h
        · exact notThere h
        · exact notBelow h
      · exact outside c ((mem_add_none missing).mpr (.inr ⟨member, below, rootMost_none missing member⟩))
  · rintro (⟨r, rfl, new⟩ | ⟨⟨c, member, r, rfl, new⟩ | ⟨old, outside⟩, notBelow, notAbove⟩)
    · exact .inl ⟨(p, s), (mem_add_none missing).mpr (.inl rfl), r, rfl, new⟩
    · have apart : Apart p c.1 := ⟨fun below => notBelow (below.trans (List.prefix_append _ _)), rootMost_none missing member⟩
      exact .inl ⟨c, (mem_add_none missing).mpr (.inr ⟨member, apart⟩), r, rfl, new⟩
    · refine .inr ⟨old, ?_⟩
      intro c member
      rcases (mem_add_none missing).mp member with rfl | ⟨member, _⟩
      · exact ⟨notBelow, notAbove⟩
      · exact outside c member

theorem overlay_add_some {t : Tree K V} {w : Overlay K V} {p r : List K} {s v : Tree K V}
    (found : w.rootMost (p ++ r) = some (p, v)) (uncovered : t.Uncovered (p ++ r) s) (l : List K × V) :
    l ∈ (t.overlay (w.add (p ++ r) s)).leaves ↔ l ∈ ((t.overlay w).put (p ++ r) s).leaves := by
  obtain ⟨q, value⟩ := l
  have atLeaf := (rootMost_some found).1
  have filled : (v.put r s).leaves = [] → s.leaves = [] := by
    intro empty
    have none := (List.append_eq_nil_iff.mp (show _ ++ _ = [] from empty)).2
    exact List.map_eq_nil_iff.mp none
  rw [mem_overlay, mem_put, mem_overlay]
  constructor
  · rintro (⟨c, member, r', rfl, new⟩ | ⟨old, outside⟩)
    · rcases (mem_add_some found).mp member with rfl | ⟨member, apart⟩
      · rcases mem_put.mp new with ⟨r'', rfl, inner⟩ | ⟨old, notBelow, notAbove⟩
        · exact .inl ⟨r'', by simp, inner⟩
        · refine .inr ⟨.inl ⟨(p, v), atLeaf, r', rfl, old⟩, ?_⟩
          simpa [List.prefix_append_right_inj] using And.intro notBelow notAbove
      · have beside := apart_comm.mp (apart_below r (apart_comm.mp (apart_below r' apart)))
        exact .inr ⟨.inl ⟨c, member, r', rfl, new⟩, beside.1, .inr beside.2⟩
    · obtain ⟨notBelow, notAbove⟩ := outside (p, v.put r s) ((mem_add_some found).mpr (.inl rfl))
      have notThere : ¬ q <+: p := by
        intro above
        rcases notAbove with empty | other
        · have covered := uncovered (filled empty) (q, value) old (above.trans (List.prefix_append p r))
          exact notBelow ((List.prefix_append p r).trans covered)
        · exact other above
      have further : ¬ q <+: p ++ r := by
        intro above
        rcases List.prefix_or_prefix_of_prefix above (List.prefix_append p r) with h | h
        · exact notThere h
        · exact notBelow h
      refine .inr ⟨.inr ⟨old, ?_⟩, fun below => notBelow ((List.prefix_append p r).trans below), .inr further⟩
      intro c member
      rcases same_or_apart atLeaf member with rfl | apart
      · exact ⟨notBelow, .inr notThere⟩
      · exact outside c ((mem_add_some found).mpr (.inr ⟨member, apart⟩))
  · rintro (⟨r', rfl, new⟩ | ⟨⟨c, member, r', rfl, new⟩ | ⟨old, outside⟩, notBelow, notAbove⟩)
    · have inside : (r ++ r', value) ∈ (v.put r s).leaves := mem_put.mpr (.inl ⟨r', rfl, new⟩)
      exact .inl ⟨(p, v.put r s), (mem_add_some found).mpr (.inl rfl), r ++ r', by simp, inside⟩
    · rcases same_or_apart atLeaf member with rfl | apart
      · rw [List.prefix_append_right_inj] at notBelow notAbove
        have inside : (r', value) ∈ (v.put r s).leaves := mem_put.mpr (.inr ⟨new, notBelow, notAbove⟩)
        exact .inl ⟨(p, v.put r s), (mem_add_some found).mpr (.inl rfl), r', rfl, inside⟩
      · exact .inl ⟨c, (mem_add_some found).mpr (.inr ⟨member, apart⟩), r', rfl, new⟩
    · refine .inr ⟨old, ?_⟩
      intro c member
      rcases (mem_add_some found).mp member with rfl | ⟨member, _⟩
      · obtain ⟨notUnder, notOver⟩ := outside (p, v) atLeaf
        refine ⟨notUnder, ?_⟩
        by_cases above : q <+: p
        · have noValue : v.leaves = [] := notOver.resolve_right (not_not.mpr above)
          have removed : s.leaves = [] := notAbove.resolve_right (not_not.mpr (above.trans (List.prefix_append p r)))
          exact .inl (by simp [put, noValue, removed])
        · exact .inr above
      · exact outside c member

/-- One more write in the overlay is one more write to the tree. -/
theorem overlay_add {t : Tree K V} {w : Overlay K V} {p : List K} {s : Tree K V} (uncovered : t.Uncovered p s)
    (l : List K × V) : l ∈ (t.overlay (w.add p s)).leaves ↔ l ∈ ((t.overlay w).put p s).leaves := by
  cases found : w.rootMost p with
  | none => exact overlay_add_none found uncovered l
  | some c =>
    obtain ⟨_, r, rfl⟩ := rootMost_some found
    exact overlay_add_some found uncovered l

/-- The overlay of several writes, one after the other. -/
def addAll (w : Overlay K V) (changes : Changes K V) : Overlay K V := changes.foldl (fun w c => w.add c.1 c.2) w

/-- The writes kept in an overlay do what they do to the tree one after the other. -/
theorem overlay_addAll {t : Tree K V} {w : Overlay K V} {changes : Changes K V} (uncovered : ∀ c ∈ changes, t.Uncovered c.1 c.2)
    (l : List K × V) : l ∈ (t.overlay (w.addAll changes)).leaves ↔ l ∈ ((t.overlay w).update changes).leaves := by
  induction changes using List.reverseRecOn generalizing l with
  | nil => exact Iff.rfl
  | append_singleton earlier c ih =>
    have last : w.addAll (earlier ++ [c]) = (w.addAll earlier).add c.1 c.2 := by simp [addAll]
    have lastPut : (t.overlay w).update (earlier ++ [c]) = ((t.overlay w).update earlier).put c.1 c.2 := by simp [update]
    have before := ih fun d member => uncovered d (List.mem_append_left _ member)
    rw [last, lastPut, overlay_add (uncovered c (by simp)), mem_put_congr before]

/-- Independent writes are all kept as they are. -/
theorem mem_addAll {changes : Changes K V} (independent : Independent changes) {c : List K × Tree K V} :
    c ∈ (addAll Tree.empty changes).leaves ↔ c ∈ changes := by
  induction changes using List.reverseRecOn generalizing c with
  | nil => simp [addAll, Tree.empty]
  | append_singleton earlier last ih =>
    obtain ⟨before, _, apart⟩ := List.pairwise_append.mp independent
    have beside : ∀ d ∈ earlier, Apart d.1 last.1 := fun d member => apart d member last (by simp)
    have step : addAll Tree.empty (earlier ++ [last]) = (addAll Tree.empty earlier).add last.1 last.2 := by simp [addAll]
    have missing : (addAll Tree.empty earlier).rootMost last.1 = none := by
      refine List.find?_eq_none.mpr fun d member => ?_
      simpa using (beside d ((ih before).mp member)).1
    rw [step, mem_add_none missing, ih before, List.mem_append, List.mem_singleton, or_comm]
    refine or_congr (and_iff_left_of_imp fun member => ?_) Iff.rfl
    exact apart_comm.mp (beside c member)

/-- Laid over a tree, they make the update. -/
theorem overlay_independent {changes : Changes K V} (independent : Independent changes) (t : Tree K V) (l : List K × V) :
    l ∈ (t.overlay (addAll Tree.empty changes)).leaves ↔ l ∈ (t.update changes).leaves := by
  obtain ⟨q, value⟩ := l
  rw [mem_overlay, mem_update independent]
  simp only [mem_addAll independent]

/-- What an overlay has at or above a path is what stands there, whatever lies under it. -/
theorem mem_overlay_below {t : Tree K V} {w : Overlay K V} {p r : List K} {v : Tree K V}
    (found : w.rootMost (p ++ r) = some (p, v)) (q : List K) (value : V) :
    (p ++ r ++ q, value) ∈ (t.overlay w).leaves ↔ (r ++ q, value) ∈ v.leaves := by
  have atLeaf := (rootMost_some found).1
  rw [mem_overlay]
  constructor
  · rintro (⟨c, member, r', path, new⟩ | ⟨_, outside⟩)
    · rcases same_or_apart atLeaf member with rfl | apart
      · rw [List.append_assoc, List.append_cancel_left_eq] at path
        rw [path]
        exact new
      · have beside := apart_below (r ++ q) (apart_comm.mp apart)
        rw [← List.append_assoc, path] at beside
        exact absurd (List.prefix_append _ _) beside.1
    · exact absurd ⟨r ++ q, by simp⟩ (outside (p, v) atLeaf).1
  · intro new
    exact .inl ⟨(p, v), atLeaf, r ++ q, by simp, new⟩

/-- Below a path at or above which the overlay has no leaf, only what lies below it counts. -/
theorem mem_overlay_sub {t : Tree K V} {w : Overlay K V} {p : List K} (missing : w.rootMost p = none) (l : List K × V) :
    l ∈ ((t.sub p).overlay (w.sub p)).leaves ↔ l ∈ ((t.overlay w).sub p).leaves := by
  obtain ⟨q, value⟩ := l
  rw [mem_sub, mem_overlay, mem_overlay, mem_sub]
  -- a leaf of the overlay on the way to what lies below the path is below the path itself
  have below : ∀ c ∈ w.leaves, ∀ r, p ++ q = c.1 ++ r → ∃ s, c.1 = p ++ s ∧ q = s ++ r := by
    intro c member r path
    rcases List.append_eq_append_iff.mp path with ⟨s, further, rest⟩ | ⟨s, above, _⟩
    · exact ⟨s, further, rest⟩
    · exact absurd ⟨s, above.symm⟩ (rootMost_none missing member)
  constructor
  · rintro (⟨⟨s, v⟩, member, r, rfl, new⟩ | ⟨old, outside⟩)
    · exact .inl ⟨(p ++ s, v), mem_sub.mp member, r, by simp, new⟩
    · refine .inr ⟨old, ?_⟩
      rintro ⟨path, v⟩ member
      constructor
      · rintro ⟨r, above⟩
        obtain ⟨s, rfl, rfl⟩ := below _ member r above.symm
        exact (outside (s, v) (mem_sub.mpr member)).1 (List.prefix_append s r)
      · by_cases empty : v.leaves = []
        · exact .inl empty
        · refine .inr ?_
          rintro ⟨r, rfl⟩
          rw [List.append_assoc] at member
          exact ((outside (q ++ r, v) (mem_sub.mpr member)).2.resolve_left empty) (List.prefix_append q r)
  · rintro (⟨⟨path, v⟩, member, r, at_q, new⟩ | ⟨old, outside⟩)
    · obtain ⟨s, rfl, rfl⟩ := below _ member r at_q
      exact .inl ⟨(s, v), mem_sub.mpr member, r, rfl, new⟩
    · refine .inr ⟨old, ?_⟩
      rintro ⟨s, v⟩ member
      simpa [List.prefix_append_right_inj] using outside (p ++ s, v) (mem_sub.mp member)

end Overlay
end SharedList
