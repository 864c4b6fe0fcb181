import SharedList.Overlays

/-!
What an overlay of several writes has at its leaves. The paths are those that are written and have no
written path above them, and each holds what the writes at or below it make of an empty tree. Writes that a later one
covers can therefore be forgotten, and writes beside all others can be taken out without a trace.
-/
namespace SharedList.Overlay
open SharedList.Tree
universe u v
variable {K : Type u} {V : Type v} [DecidableEq K]

/-- The path is written, and none above it is. -/
def TopMost (changes : Changes K V) (p : List K) : Prop := (∃ s, (p, s) ∈ changes) ∧ ∀ c ∈ changes, c.1 <+: p → c.1 = p

/-- What the writes at or below a path put there. -/
def layered (changes : Changes K V) (p : List K) : Tree K V := Tree.empty.update (below p changes)

/-- The overlay is one of these writes. -/
structure Layers (w : Overlay K V) (changes : Changes K V) : Prop where
  top : ∀ p, TopMost changes p ↔ ∃ t, (p, t) ∈ w.leaves
  tree : ∀ p t, (p, t) ∈ w.leaves → ∀ l, l ∈ t.leaves ↔ l ∈ (layered changes p).leaves

omit [DecidableEq K] in
/-- At or above every written path there is a topmost one. -/
theorem exists_topMost {changes : Changes K V} {c : List K × Tree K V} (member : c ∈ changes) :
    ∃ p, p <+: c.1 ∧ TopMost changes p := by
  induction length : c.1.length using Nat.strong_induction_on generalizing c with
  | _ n ih =>
    by_cases top : ∀ d ∈ changes, d.1 <+: c.1 → d.1 = c.1
    · exact ⟨c.1, List.prefix_rfl, ⟨c.2, member⟩, top⟩
    · push Not at top
      obtain ⟨d, inChanges, above, different⟩ := top
      have shorter : d.1.length < n := by
        rw [← length]
        exact lt_of_le_of_ne above.length_le fun same => different (above.eq_of_length same)
      obtain ⟨p, further, topMost⟩ := ih _ shorter inChanges rfl
      exact ⟨p, further.trans above, topMost⟩

omit [DecidableEq K] in
/-- One more write makes no other path topmost, and leaves those that it is not above. -/
theorem topMost_append {earlier : Changes K V} {x p : List K} {s : Tree K V} :
    TopMost (earlier ++ [(x, s)]) p ↔
      (p = x ∧ ∀ c ∈ earlier, c.1 <+: x → c.1 = x) ∨ (p ≠ x ∧ TopMost earlier p ∧ ¬ x <+: p) := by
  constructor
  · rintro ⟨⟨u, there⟩, top⟩
    by_cases here : p = x
    · subst here
      exact .inl ⟨rfl, fun c member => top c (List.mem_append_left _ member)⟩
    · have inEarlier : (p, u) ∈ earlier := by simpa [here] using there
      refine .inr ⟨here, ⟨⟨u, inEarlier⟩, fun c member => top c (List.mem_append_left _ member)⟩, ?_⟩
      intro above
      exact here (top (x, s) (by simp) above).symm
  · rintro (⟨rfl, top⟩ | ⟨_, ⟨⟨u, there⟩, top⟩, notAbove⟩)
    · refine ⟨⟨s, by simp⟩, ?_⟩
      intro c member above
      rcases List.mem_append.mp member with inEarlier | isLast
      · exact top c inEarlier above
      · rw [List.mem_singleton.mp isLast]
    · refine ⟨⟨u, List.mem_append_left _ there⟩, ?_⟩
      intro c member above
      rcases List.mem_append.mp member with inEarlier | isLast
      · exact top c inEarlier above
      · rw [List.mem_singleton.mp isLast] at above
        exact absurd above notAbove

theorem below_append (p : List K) (a b : Changes K V) : below p (a ++ b) = below p a ++ below p b := List.filterMap_append ..

theorem layered_append {earlier : Changes K V} {p r : List K} {s : Tree K V} :
    layered (earlier ++ [(p ++ r, s)]) p = (layered earlier p).put r s := by
  simp [layered, below, update]

theorem layered_beside {earlier : Changes K V} {p : List K} {c : List K × Tree K V} (notBelow : ¬ p <+: c.1) :
    layered (earlier ++ [c]) p = layered earlier p := by
  simp [layered, below, notBelow]

namespace Layers

theorem empty : Layers (Tree.empty : Overlay K V) [] := ⟨by simp [TopMost, Tree.empty], by simp [Tree.empty]⟩

variable {w : Overlay K V} {changes : Changes K V}

theorem add_none (layers : Layers w changes) {x : List K} (s : Tree K V) (missing : w.rootMost x = none) :
    Layers (w.add x s) (changes ++ [(x, s)]) := by
  -- no earlier write is at or above this one
  have notAbove : ∀ c ∈ changes, ¬ c.1 <+: x := by
    intro c member above
    obtain ⟨p, further, topMost⟩ := exists_topMost member
    obtain ⟨t, inOverlay⟩ := (layers.top p).mp topMost
    exact rootMost_none missing inOverlay (further.trans above)
  constructor
  · intro p
    rw [topMost_append, layers.top]
    simp only [mem_add_none missing]
    constructor
    · rintro (⟨rfl, _⟩ | ⟨_, ⟨t, inOverlay⟩, notBelow⟩)
      · exact ⟨s, .inl rfl⟩
      · exact ⟨t, .inr ⟨inOverlay, notBelow, rootMost_none missing inOverlay⟩⟩
    · rintro ⟨t, here | ⟨inOverlay, apart⟩⟩
      · cases here
        exact .inl ⟨rfl, fun c member above => absurd above (notAbove c member)⟩
      · refine .inr ⟨?_, ⟨t, inOverlay⟩, apart.1⟩
        rintro rfl
        exact apart.1 List.prefix_rfl
  · intro p t member
    rcases (mem_add_none missing).mp member with here | ⟨inOverlay, apart⟩
    · cases here
      rintro ⟨q, value⟩
      have written : layered (changes ++ [(x, s)]) x = (layered changes x).put [] s := by
        simpa using @layered_append K V _ changes x [] s
      rw [written, mem_put]
      simp
    · rw [layered_beside apart.2]
      exact layers.tree p t inOverlay

theorem add_some (layers : Layers w changes) {z r : List K} {v : Tree K V} (s : Tree K V)
    (found : w.rootMost (z ++ r) = some (z, v)) : Layers (w.add (z ++ r) s) (changes ++ [(z ++ r, s)]) := by
  have atLeaf := (rootMost_some found).1
  obtain ⟨⟨u, there⟩, top⟩ := (layers.top z).mpr ⟨v, atLeaf⟩
  constructor
  · intro p
    rw [topMost_append, layers.top]
    simp only [mem_add_some found]
    constructor
    · rintro (⟨rfl, above⟩ | ⟨_, ⟨t, inOverlay⟩, _⟩)
      · have same := above (z, u) there (List.prefix_append z r)
        exact ⟨_, .inl (by rw [← same])⟩
      · rcases same_or_apart atLeaf inOverlay with same | apart
        · cases same
          exact ⟨_, .inl rfl⟩
        · exact ⟨t, .inr ⟨inOverlay, apart⟩⟩
    · rintro ⟨t, here | ⟨inOverlay, apart⟩⟩
      · cases here
        by_cases itself : z = z ++ r
        · exact .inl ⟨itself, fun c member above => by rw [← itself] at above ⊢; exact top c member above⟩
        · refine .inr ⟨itself, ⟨v, atLeaf⟩, ?_⟩
          intro above
          exact itself ((List.prefix_append z r).eq_of_length (Nat.le_antisymm (List.prefix_append z r).length_le above.length_le))
      · have beside := apart_below r (apart_comm.mp apart)
        refine .inr ⟨?_, ⟨t, inOverlay⟩, beside.2⟩
        rintro rfl
        exact beside.1 List.prefix_rfl
  · intro p t member
    rcases (mem_add_some found).mp member with here | ⟨inOverlay, apart⟩
    · cases here
      rw [layered_append]
      exact mem_put_congr (layers.tree z v atLeaf)
    · rw [layered_beside (apart_below r (apart_comm.mp apart)).1]
      exact layers.tree p t inOverlay

/-- One more write. -/
theorem add (layers : Layers w changes) (x : List K) (s : Tree K V) : Layers (w.add x s) (changes ++ [(x, s)]) := by
  cases found : w.rootMost x with
  | none => exact layers.add_none s found
  | some leaf =>
    obtain ⟨_, r, rfl⟩ := rootMost_some found
    exact layers.add_some s found

theorem addAll (layers : Layers w changes) (more : Changes K V) : Layers (w.addAll more) (changes ++ more) := by
  induction more generalizing w changes with
  | nil =>
    rw [List.append_nil]
    exact layers
  | cons c rest ih =>
    rw [List.append_cons]
    exact ih (layers.add c.1 c.2)

/-- Laid over a tree, two overlays of the same writes are the same. -/
theorem overlay_congr {w' : Overlay K V} (layers : Layers w changes) (layers' : Layers w' changes) {t : Tree K V} {l : List K × V}
    (member : l ∈ (t.overlay w).leaves) : l ∈ (t.overlay w').leaves := by
  obtain ⟨q, value⟩ := l
  rw [mem_overlay] at member ⊢
  have other : ∀ {w w' : Overlay K V}, Layers w changes → Layers w' changes → ∀ {p t}, (p, t) ∈ w.leaves →
      ∃ t', (p, t') ∈ w'.leaves ∧ ∀ l, l ∈ t.leaves ↔ l ∈ t'.leaves := by
    intro w w' layers layers' p t inOverlay
    obtain ⟨t', there⟩ := (layers'.top p).mp ((layers.top p).mpr ⟨t, inOverlay⟩)
    exact ⟨t', there, fun l => (layers.tree p t inOverlay l).trans (layers'.tree p t' there l).symm⟩
  rcases member with ⟨⟨p, s⟩, inOverlay, r, rfl, new⟩ | ⟨old, outside⟩
  · obtain ⟨s', there, same⟩ := other layers layers' inOverlay
    exact .inl ⟨(p, s'), there, r, rfl, (same _).mp new⟩
  · refine .inr ⟨old, ?_⟩
    rintro ⟨p, s'⟩ there
    obtain ⟨s, inOverlay, same⟩ := other layers' layers there
    obtain ⟨notBelow, notAbove⟩ := outside (p, s) inOverlay
    refine ⟨notBelow, notAbove.imp_left ?_⟩
    intro noLeaves
    refine List.eq_nil_iff_forall_not_mem.mpr fun l member => ?_
    have inOther : l ∈ s.leaves := (same l).mp member
    rw [show s.leaves = [] from noLeaves] at inOther
    cases inOther

/-- Laid over a tree, the overlay does what the writes do one after the other. -/
theorem mem_overlay_iff (layers : Layers w changes) {t : Tree K V} (uncovered : ∀ c ∈ changes, t.Uncovered c.1 c.2)
    (l : List K × V) : l ∈ (t.overlay w).leaves ↔ l ∈ (t.update changes).leaves := by
  have plain : Layers (Overlay.addAll Tree.empty changes) changes := by simpa using empty.addAll changes
  have start : t.overlay Tree.empty = t := rfl
  have whole := @overlay_addAll K V _ t Tree.empty changes uncovered l
  rw [start] at whole
  exact (Iff.intro (layers.overlay_congr plain) (plain.overlay_congr layers)).trans whole

end Layers

/-! ## Writes that a later one covers -/

theorem mem_update_congr {t t' : Tree K V} (same : ∀ l, l ∈ t.leaves ↔ l ∈ t'.leaves) (changes : Changes K V) (l : List K × V) :
    l ∈ (t.update changes).leaves ↔ l ∈ (t'.update changes).leaves := by
  induction changes generalizing t t' with
  | nil => exact same l
  | cons c rest ih => exact ih (mem_put_congr same)

/-- Every leaf was there before or is one of the writes'. -/
theorem leaf_of_update {t : Tree K V} {changes : Changes K V} {q : List K} {value : V} (member : (q, value) ∈ (t.update changes).leaves) :
    (q, value) ∈ t.leaves ∨ ∃ c ∈ changes, ∃ r, q = c.1 ++ r ∧ (r, value) ∈ c.2.leaves := by
  induction changes using List.reverseRecOn with
  | nil => exact .inl member
  | append_singleton earlier c ih =>
    have last : t.update (earlier ++ [c]) = (t.update earlier).put c.1 c.2 := by simp [update]
    rw [last, mem_put] at member
    rcases member with ⟨r, path, new⟩ | ⟨old, _⟩
    · exact .inr ⟨c, by simp, r, path, new⟩
    · rcases ih old with start | ⟨d, inEarlier, written⟩
      · exact .inl start
      · exact .inr ⟨d, List.mem_append_left _ inEarlier, written⟩

/-- The trees differ at and below the path, and in leaves above it that only the second one has. -/
def SameBeside (q : List K) (t t' : Tree K V) : Prop :=
  ∀ l : List K × V, ¬ q <+: l.1 → (l ∈ t.leaves → l ∈ t'.leaves) ∧ (l ∈ t'.leaves → l ∈ t.leaves ∨ l.1 <+: q)

namespace SameBeside
variable {q : List K} {t t' : Tree K V}

theorem put (same : SameBeside q t t') (y : List K) (s : Tree K V) : SameBeside q (t.put y s) (t'.put y s) := by
  rintro ⟨x, value⟩ beside
  rw [mem_put, mem_put]
  obtain ⟨there, back⟩ := same (x, value) beside
  constructor
  · rintro (new | ⟨old, outside⟩)
    · exact .inl new
    · exact .inr ⟨there old, outside⟩
  · rintro (new | ⟨old, outside⟩)
    · exact .inl (.inl new)
    · exact (back old).imp_left fun old => .inr ⟨old, outside⟩

theorem update (same : SameBeside q t t') (changes : Changes K V) : SameBeside q (t.update changes) (t'.update changes) := by
  induction changes generalizing t t' with
  | nil => exact same
  | cons c rest ih => exact ih (same.put c.1 c.2)

/-- Writes at or below the path. -/
theorem update_left (same : SameBeside q t t') {block : Changes K V} (below : ∀ c ∈ block, q <+: c.1) :
    SameBeside q (t.update block) t' := by
  induction block generalizing t with
  | nil => exact same
  | cons c rest ih =>
    obtain ⟨first, later⟩ := List.forall_mem_cons.mp below
    refine ih ?_ later
    rintro ⟨x, value⟩ beside
    obtain ⟨there, back⟩ := same (x, value) beside
    rw [mem_put]
    constructor
    · rintro (⟨r, rfl, _⟩ | ⟨old, _⟩)
      · exact absurd (first.trans (List.prefix_append _ r)) beside
      · exact there old
    · intro old
      by_cases above : x <+: c.1
      · exact .inr ((List.prefix_or_prefix_of_prefix above first).resolve_right beside)
      · exact (back old).imp_left fun old => .inr ⟨old, fun below => beside (first.trans below), .inr above⟩

/-- A write to the path makes the trees the same. -/
theorem cover (same : SameBeside q t t') {s : Tree K V} (uncovered : t'.Uncovered q s) (l : List K × V) :
    l ∈ (t.put q s).leaves ↔ l ∈ (t'.put q s).leaves := by
  obtain ⟨x, value⟩ := l
  rw [mem_put, mem_put]
  refine or_congr Iff.rfl ⟨?_, ?_⟩
  · rintro ⟨old, beside, outside⟩
    exact ⟨(same (x, value) beside).1 old, beside, outside⟩
  · rintro ⟨old, beside, outside⟩
    refine ⟨((same (x, value) beside).2 old).resolve_right ?_, beside, outside⟩
    intro above
    rcases outside with empty | notAbove
    · exact beside (uncovered empty (x, value) old above)
    · exact notAbove above

end SameBeside

/-- No write removes something below a leaf that an earlier one puts. -/
def NoneBelowLeaf (changes : Changes K V) : Prop :=
  changes.Pairwise fun earlier later => (Tree.empty.put earlier.1 earlier.2).Uncovered later.1 later.2

theorem layered_forget {before block earlier later : Changes K V} {m q : List K} {s : Tree K V}
    (below : ∀ c ∈ block, m ++ q <+: c.1) (noneBelow : NoneBelowLeaf (before ++ block ++ (earlier ++ (m ++ q, s) :: later)))
    (l : List K × V) : l ∈ (layered (before ++ block ++ (earlier ++ (m ++ q, s) :: later)) m).leaves ↔
      l ∈ (layered (before ++ (earlier ++ (m ++ q, s) :: later)) m).leaves := by
  have chain : ∀ (t : Tree K V) (a b : Changes K V), t.update (a ++ b) = (t.update a).update b := fun t a b => List.foldl_append ..
  have covering : Tree.below m ((m ++ q, s) :: later) = (q, s) :: Tree.below m later := by simp [Tree.below]
  have updated : ∀ (t : Tree K V) c (rest : Changes K V), t.update (c :: rest) = (t.put c.1 c.2).update rest := fun _ _ _ => rfl
  simp only [layered, below_append, covering, chain, updated]
  refine mem_update_congr (fun l => ?_) _ l
  -- the trees before the write that covers the block
  have start : SameBeside q (Tree.empty.update (Tree.below m before)) (Tree.empty.update (Tree.below m before)) :=
    fun l _ => ⟨id, .inl⟩
  have belowBlock : ∀ c ∈ Tree.below m block, q <+: c.1 := by
    rintro ⟨y, t⟩ member
    exact (List.prefix_append_right_inj m).mp (below _ (mem_below.mp member))
  refine ((start.update_left belowBlock).update _).cover ?_ l
  rintro empty ⟨x, value⟩ member above
  rw [← chain, ← below_append] at member
  rcases leaf_of_update member with inEmpty | ⟨⟨y, t⟩, written, r, rfl, new⟩
  · cases inEmpty
  · have inEarlier : (m ++ y, t) ∈ before ++ block ++ earlier := by
      have written := mem_below.mp written
      simp only [List.mem_append] at written ⊢
      tauto
    rw [← List.append_assoc] at noneBelow
    have uncovered := (List.pairwise_append.mp noneBelow).2.2 _ inEarlier (m ++ q, s) List.mem_cons_self
    have covered := uncovered empty (m ++ y ++ r, value) (mem_put.mpr (.inl ⟨r, rfl, new⟩))
    rw [List.append_assoc, List.prefix_append_right_inj, List.prefix_append_right_inj] at covered
    exact covered above

namespace Layers
variable {w : Overlay K V} {before block after : Changes K V}

/-- Writes at or below the path of a later one leave nothing in the overlay. -/
theorem forget (layers : Layers w (before ++ block ++ after)) {q : List K} {s : Tree K V} (covers : (q, s) ∈ after)
    (below : ∀ c ∈ block, q <+: c.1) (noneBelow : NoneBelowLeaf (before ++ block ++ after)) : Layers w (before ++ after) := by
  have top : ∀ p, TopMost (before ++ block ++ after) p ↔ TopMost (before ++ after) p := by
    intro p
    have kept : ∀ c ∈ before ++ after, c ∈ before ++ block ++ after := by
      intro c member
      simp only [List.mem_append] at member ⊢
      tauto
    constructor
    · rintro ⟨⟨u, there⟩, top⟩
      refine ⟨?_, fun c member => top c (kept c member)⟩
      by_cases inBlock : (p, u) ∈ block
      · have same : q = p := top (q, s) (List.mem_append_right _ covers) (below (p, u) inBlock)
        exact ⟨s, List.mem_append_right _ (same ▸ covers)⟩
      · refine ⟨u, ?_⟩
        simp only [List.mem_append] at there ⊢
        tauto
    · rintro ⟨⟨u, there⟩, top⟩
      refine ⟨⟨u, kept _ there⟩, ?_⟩
      intro c member above
      by_cases inBlock : c ∈ block
      · have same : q = p := top (q, s) (List.mem_append_right _ covers) ((below c inBlock).trans above)
        exact above.eq_of_length (Nat.le_antisymm above.length_le (same ▸ (below c inBlock).length_le))
      · refine top c ?_ above
        simp only [List.mem_append] at member ⊢
        tauto
  refine ⟨fun p => (top p).symm.trans (layers.top p), ?_⟩
  intro p t member l
  rw [layers.tree p t member l]
  by_cases further : p <+: q
  · obtain ⟨r, rfl⟩ := further
    obtain ⟨earlier, later, rfl⟩ := List.append_of_mem covers
    exact layered_forget below noneBelow l
  · -- no write of the block is at or below this leaf
    have topMost := (layers.top p).mpr ⟨t, member⟩
    have outside : Tree.below p block = [] := by
      refine List.eq_nil_iff_forall_not_mem.mpr ?_
      rintro ⟨y, u⟩ there
      have inBlock := mem_below.mp there
      rcases List.prefix_or_prefix_of_prefix (List.prefix_append p y) (below _ inBlock) with h | h
      · exact further h
      · exact further (topMost.2 (q, s) (List.mem_append_right _ covers) h ▸ List.prefix_rfl)
    rw [layered, layered, below_append, below_append, below_append, outside, List.append_nil]

/-- Writes beside all others are taken out with their paths. -/
theorem takeOut (layers : Layers w (before ++ block ++ after)) (beside : ∀ c ∈ block, ∀ d ∈ before ++ after, Apart c.1 d.1) :
    Layers (w.update (block.map fun c => (c.1, Tree.empty))) (before ++ after) := by
  have nulls : ∀ c ∈ block.map fun c => (c.1, (Tree.empty : Overlay K V)), c.2.leaves = [] := List.forall_mem_map.mpr fun _ _ => rfl
  have left : ∀ c : List K × Tree K V, c ∈ (w.update (block.map fun c => (c.1, Tree.empty))).leaves ↔
      c ∈ w.leaves ∧ ∀ d ∈ block, ¬ d.1 <+: c.1 := by
    intro c
    rw [leaves_update_nulls nulls, List.mem_filter, decide_eq_true_eq, List.forall_mem_map]
  have others : ∀ c, c ∈ before ++ block ++ after ↔ c ∈ before ++ after ∨ c ∈ block := by
    intro c
    simp only [List.mem_append]
    tauto
  constructor
  · intro p
    constructor
    · rintro ⟨⟨u, there⟩, top⟩
      have apart : ∀ c ∈ block, Apart c.1 p := fun c inBlock => beside c inBlock (p, u) there
      obtain ⟨t, inOverlay⟩ := (layers.top p).mp ⟨⟨u, (others _).mpr (.inl there)⟩, fun c member above => by
        rcases (others c).mp member with member | inBlock
        · exact top c member above
        · exact absurd above (apart c inBlock).1⟩
      exact ⟨t, (left _).mpr ⟨inOverlay, fun c inBlock => (apart c inBlock).1⟩⟩
    · rintro ⟨t, member⟩
      obtain ⟨inOverlay, notBelow⟩ := (left _).mp member
      obtain ⟨⟨u, there⟩, top⟩ := (layers.top p).mpr ⟨t, inOverlay⟩
      refine ⟨⟨u, ((others _).mp there).resolve_right fun inBlock => notBelow _ inBlock List.prefix_rfl⟩, ?_⟩
      exact fun c member => top c ((others c).mpr (.inl member))
  · intro p t member l
    obtain ⟨inOverlay, notBelow⟩ := (left _).mp member
    obtain ⟨⟨u, there⟩, _⟩ := (layers.top p).mpr ⟨t, inOverlay⟩
    have inRest : (p, u) ∈ before ++ after := ((others _).mp there).resolve_right fun inBlock => notBelow _ inBlock List.prefix_rfl
    have outside : below p block = [] := by
      refine List.eq_nil_iff_forall_not_mem.mpr ?_
      rintro ⟨y, s⟩ inside
      exact (beside _ (mem_below.mp inside) (p, u) inRest).2 (List.prefix_append p y)
    rw [layers.tree p t inOverlay l, layered, layered, below_append, below_append, below_append, outside, List.append_nil]

end Layers
end SharedList.Overlay
