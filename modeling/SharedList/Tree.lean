import Mathlib.Data.List.Dedup
import Mathlib.Data.List.Infix
import Mathlib.Data.List.Pairwise

/-!
Trees with keyed edges and values at the leaves, given by the paths of their
leaves. An inner node exists exactly when a leaf lies below it, so a tree never
holds an empty inner node, and removing the last leaf below a node removes the
node. `put` replaces the subtree at one path and `update` does so at several
paths at once.
-/
namespace SharedList
universe u v

section
variable {K : Type u} {V : Type v}

/-- Neither path leads to the other or below it. -/
def Apart (p q : List K) : Prop := ¬ p <+: q ∧ ¬ q <+: p

instance [DecidableEq K] (p q : List K) : Decidable (Apart p q) := inferInstanceAs (Decidable (_ ∧ _))

theorem apart_comm {p q : List K} : Apart p q ↔ Apart q p := and_comm

instance : Std.Symm (fun a b : List K × V => Apart a.1 b.1) := ⟨fun _ _ => apart_comm.mp⟩

theorem apart_append (p a b : List K) : Apart (p ++ a) (p ++ b) ↔ Apart a b := by
  simp [Apart, List.prefix_append_right_inj]

/-- A path apart from an ancestor is apart from everything below it. -/
theorem apart_below {p q : List K} (r : List K) (apart : Apart q p) : Apart q (p ++ r) := by
  refine ⟨?_, fun below => apart.2 ((List.prefix_append p r).trans below)⟩
  intro above
  rcases List.prefix_or_prefix_of_prefix above (List.prefix_append p r) with h | h
  · exact apart.1 h
  · exact apart.2 h

end

/-- A tree by its leaves. No leaf lies at or below another, which is what makes
    the listed paths the leaves of one tree. -/
@[ext] structure Tree (K : Type u) (V : Type v) where
  leaves : List (List K × V)
  apart : leaves.Pairwise (fun a b => Apart a.1 b.1)
deriving DecidableEq

namespace Tree
variable {K : Type u} {V : Type v} [DecidableEq K]

/-- The tree without leaves. -/
def empty : Tree K V := ⟨[], .nil⟩
/-- A single value at the root. -/
def leaf (value : V) : Tree K V := ⟨[([], value)], .cons (by simp) .nil⟩

/-- The value of the leaf at exactly this path. -/
def at? (t : Tree K V) (p : List K) : Option V := (t.leaves.find? (fun l => l.1 = p)).map Prod.snd
/-- There is a node at the path: some leaf lies at or below it. -/
def Present (t : Tree K V) (p : List K) : Prop := ∃ l ∈ t.leaves, p <+: l.1
instance (t : Tree K V) (p : List K) : Decidable (t.Present p) :=
  inferInstanceAs (Decidable (∃ l ∈ t.leaves, p <+: l.1))

/-- The leaves at or below a path, seen from that path. -/
def below (p : List K) (leaves : List (List K × V)) : List (List K × V) :=
  leaves.filterMap (fun l => if p <+: l.1 then some (l.1.drop p.length, l.2) else none)
/-- The keys of the children of the root, each once. -/
def childKeys (t : Tree K V) : List K := (t.leaves.filterMap (fun l => l.1.head?)).dedup

omit [DecidableEq K] in
/-- Two leaves of one tree at comparable paths are the same leaf. -/
theorem leaf_unique (t : Tree K V) {p q : List K} {x y : V} (first : (p, x) ∈ t.leaves)
    (second : (q, y) ∈ t.leaves) (comparable : p <+: q) : p = q ∧ x = y := by
  by_contra different
  have ne : (p, x) ≠ (q, y) := fun same => different (Prod.mk.inj same)
  have apart := t.apart.forall first second ne
  exact apart.1 comparable

omit [DecidableEq K] in
/-- A tree with a value at the root and nowhere else. -/
theorem eq_leaf {t : Tree K V} {value : V} (some : t.leaves ≠ []) (all : ∀ l ∈ t.leaves, l = ([], value)) :
    t = leaf value := by
  refine Tree.ext ?_
  have distinct := t.apart
  match same : t.leaves with
  | [] => exact absurd same some
  | [first] =>
    rw [all first (by simp [same])]
    rfl
  | first :: second :: _ =>
    rw [same] at distinct
    have comparable := (List.pairwise_cons.mp distinct).1 second List.mem_cons_self
    rw [all first (by simp [same]), all second (by simp [same])] at comparable
    exact absurd List.prefix_rfl comparable.1

theorem at?_eq_some {t : Tree K V} {p : List K} {value : V} :
    t.at? p = some value ↔ (p, value) ∈ t.leaves := by
  constructor
  · intro found
    obtain ⟨l, search, rfl⟩ := Option.map_eq_some_iff.mp found
    have same : l.1 = p := by simpa using List.find?_some search
    rw [← same]
    exact List.mem_of_find?_eq_some search
  · intro member
    cases search : t.leaves.find? (fun l => l.1 = p) with
    | none => simpa using List.find?_eq_none.mp search (p, value) member
    | some l =>
      have same : l.1 = p := by simpa using List.find?_some search
      have listed := List.mem_of_find?_eq_some search
      obtain ⟨_, value_eq⟩ := t.leaf_unique (p := l.1) (x := l.2) listed member (by rw [same])
      simp [at?, search, value_eq]

omit [DecidableEq K] in
theorem present_iff {t : Tree K V} {p : List K} :
    t.Present p ↔ ∃ r value, (p ++ r, value) ∈ t.leaves := by
  constructor
  · rintro ⟨⟨_, value⟩, member, r, rfl⟩
    exact ⟨r, value, member⟩
  · rintro ⟨r, value, member⟩
    exact ⟨_, member, List.prefix_append p r⟩

theorem present_of_at? {t : Tree K V} {p : List K} {value : V} (found : t.at? p = some value) :
    t.Present p := ⟨_, at?_eq_some.mp found, List.prefix_rfl⟩

omit [DecidableEq K] in
theorem present_of_below {t : Tree K V} {p : List K} (r : List K) (present : t.Present (p ++ r)) :
    t.Present p := by
  obtain ⟨l, member, below⟩ := present
  exact ⟨l, member, (List.prefix_append p r).trans below⟩

theorem mem_below {p q : List K} {value : V} {leaves : List (List K × V)} :
    (q, value) ∈ below p leaves ↔ (p ++ q, value) ∈ leaves := by
  simp only [below, List.mem_filterMap]
  constructor
  · rintro ⟨⟨path, other⟩, member, cut⟩
    split at cut
    · rename_i here
      obtain ⟨r, rfl⟩ := here
      simp at cut
      obtain ⟨rfl, rfl⟩ := cut
      exact member
    · cases cut
  · intro member
    exact ⟨_, member, by simp⟩

/-- The subtree at a path. -/
def sub (t : Tree K V) (p : List K) : Tree K V where
  leaves := below p t.leaves
  apart := by
    refine List.Pairwise.filterMap _ ?_ t.apart
    intro a b apart a' keptA b' keptB
    simp only [Option.ite_none_right_eq_some, Option.some.injEq] at keptA keptB
    obtain ⟨⟨r, above⟩, rfl⟩ := keptA
    obtain ⟨⟨s, above'⟩, rfl⟩ := keptB
    rw [← above, ← above', apart_append] at apart
    simpa [← above, ← above'] using apart

@[simp] theorem mem_sub {t : Tree K V} {p q : List K} {value : V} :
    (q, value) ∈ (t.sub p).leaves ↔ (p ++ q, value) ∈ t.leaves := mem_below

@[simp] theorem at?_sub (t : Tree K V) (p q : List K) : (t.sub p).at? q = t.at? (p ++ q) := by
  ext value
  rw [at?_eq_some, at?_eq_some, mem_sub]

@[simp] theorem present_sub {t : Tree K V} {p q : List K} : (t.sub p).Present q ↔ t.Present (p ++ q) := by
  simp [present_iff, List.append_assoc]

theorem present_congr {t s : Tree K V} {p : List K} (same : t.sub p = s.sub p) : t.Present p ↔ s.Present p := by
  rw [← List.append_nil p, ← present_sub, ← present_sub, same]

theorem sub_sub (t : Tree K V) (p q : List K) : (t.sub p).sub q = t.sub (p ++ q) := by
  apply Tree.ext
  show below q (below p t.leaves) = below (p ++ q) t.leaves
  simp only [below, List.filterMap_filterMap]
  refine List.filterMap_congr ?_
  intro l _
  by_cases here : p <+: l.1
  · obtain ⟨r, above⟩ := here
    simp [← above, List.prefix_append_right_inj]
  · have further : ¬ p ++ q <+: l.1 := fun below => here ((List.prefix_append p q).trans below)
    simp [here, further]

theorem mem_childKeys {t : Tree K V} {k : K} : k ∈ t.childKeys ↔ t.Present [k] := by
  simp only [childKeys, List.mem_dedup, List.mem_filterMap, present_iff]
  constructor
  · rintro ⟨⟨path, value⟩, member, first⟩
    cases path with
    | nil => cases first
    | cons head rest =>
      cases first
      exact ⟨rest, value, member⟩
  · rintro ⟨r, value, member⟩
    exact ⟨_, member, rfl⟩

/-- The tree with only some of the children of the root. -/
def restrict (t : Tree K V) (keep : K → Bool) : Tree K V where
  leaves := t.leaves.filter (fun l => l.1.head?.any keep)
  apart := t.apart.filter _

omit [DecidableEq K] in
theorem mem_restrict {t : Tree K V} {keep : K → Bool} {k : K} {r : List K} {value : V} :
    (k :: r, value) ∈ (t.restrict keep).leaves ↔ keep k = true ∧ (k :: r, value) ∈ t.leaves := by
  simp [restrict, and_comm]

omit [DecidableEq K] in
theorem present_restrict {t : Tree K V} {keep : K → Bool} {k : K} :
    (t.restrict keep).Present [k] ↔ keep k = true ∧ t.Present [k] := by
  simp only [present_iff, List.cons_append, List.nil_append, mem_restrict]
  constructor
  · rintro ⟨r, value, kept, member⟩
    exact ⟨kept, r, value, member⟩
  · rintro ⟨kept, r, value, member⟩
    exact ⟨r, value, kept, member⟩

/-- Replace the subtree at a path. A leaf above the path gives way to the inner
    nodes that lead there, unless the new subtree is empty. -/
def put (t : Tree K V) (p : List K) (s : Tree K V) : Tree K V where
  leaves := t.leaves.filter (fun l => ¬ p <+: l.1 ∧ (s.leaves.isEmpty ∨ ¬ l.1 <+: p)) ++
    s.leaves.map (fun l => (p ++ l.1, l.2))
  apart := by
    refine List.pairwise_append.mpr ⟨t.apart.filter _, ?_, ?_⟩
    · refine List.Pairwise.map _ ?_ s.apart
      intro a b apart
      exact (apart_append p a.1 b.1).mpr apart
    · intro a kept b moved
      obtain ⟨b, member, rfl⟩ := List.mem_map.mp moved
      have nonempty : s.leaves.isEmpty = false := by
        cases all : s.leaves with
        | nil => simp [all] at member
        | cons _ _ => rfl
      have outside : ¬ p <+: a.1 ∧ ¬ a.1 <+: p := by simpa [nonempty] using (List.mem_filter.mp kept).2
      exact apart_below b.1 (apart_comm.mp outside)

theorem mem_put {t s : Tree K V} {p q : List K} {value : V} :
    (q, value) ∈ (t.put p s).leaves ↔
      (∃ r, q = p ++ r ∧ (r, value) ∈ s.leaves) ∨
        ((q, value) ∈ t.leaves ∧ ¬ p <+: q ∧ (s.leaves = [] ∨ ¬ q <+: p)) := by
  simp only [put, List.mem_append, List.mem_filter, List.mem_map, Prod.mk.injEq, Prod.exists,
    decide_eq_true_eq, List.isEmpty_iff]
  rw [or_comm]
  refine or_congr ?_ Iff.rfl
  constructor
  · rintro ⟨r, _, member, rfl, rfl⟩
    exact ⟨r, rfl, member⟩
  · rintro ⟨r, rfl, member⟩
    exact ⟨r, value, member, rfl, rfl⟩

theorem sub_put (t : Tree K V) (p : List K) (s : Tree K V) : (t.put p s).sub p = s := by
  apply Tree.ext
  show below p (t.put p s).leaves = s.leaves
  have old : below p (t.leaves.filter (fun l => ¬ p <+: l.1 ∧ (s.leaves.isEmpty ∨ ¬ l.1 <+: p))) = [] := by
    rw [below, List.filterMap_eq_nil_iff]
    intro l kept
    exact if_neg (of_decide_eq_true (List.mem_filter.mp kept).2).1
  have new : below p (s.leaves.map (fun l => (p ++ l.1, l.2))) = s.leaves := by
    rw [below, List.filterMap_map]
    simp
  have split : below p (t.put p s).leaves = below p _ ++ below p _ := List.filterMap_append ..
  rw [split, old, new, List.nil_append]

theorem present_put {t s : Tree K V} {p : List K} : (t.put p s).Present p ↔ s.Present [] := by
  rw [← List.append_nil p, ← present_sub, List.append_nil, sub_put]

/-- Removing a node that is not there changes nothing. -/
theorem put_empty {t : Tree K V} {p : List K} (absent : ¬ t.Present p) : t.put p empty = t := by
  apply Tree.ext
  show t.leaves.filter _ ++ [] = t.leaves
  rw [List.append_nil, List.filter_eq_self]
  intro l member
  exact decide_eq_true ⟨fun below => absent ⟨l, member, below⟩, .inl rfl⟩

/-- Subtrees to put at several paths. -/
abbrev Changes (K : Type u) (V : Type v) := List (List K × Tree K V)

/-- Put each subtree at its path. -/
def update (t : Tree K V) (changes : Changes K V) : Tree K V :=
  changes.foldl (fun t c => t.put c.1 c.2) t

/-- No two of the changed paths are equal or one above the other. -/
def Independent (changes : Changes K V) : Prop := changes.Pairwise (fun a b => Apart a.1 b.1)

/-- The leaves after independent changes: those of the new subtrees, and the old
    ones at no changed path, below none, and above none that stays filled. -/
theorem mem_update {changes : Changes K V} (independent : Independent changes) {t : Tree K V} {q : List K}
    {value : V} : (q, value) ∈ (t.update changes).leaves ↔
      (∃ c ∈ changes, ∃ r, q = c.1 ++ r ∧ (r, value) ∈ c.2.leaves) ∨
        ((q, value) ∈ t.leaves ∧ ∀ c ∈ changes, ¬ c.1 <+: q ∧ (c.2.leaves = [] ∨ ¬ q <+: c.1)) := by
  induction changes generalizing t with
  | nil => simp [update]
  | cons c rest ih =>
    obtain ⟨apart, restApart⟩ := List.pairwise_cons.mp independent
    have unfolded : t.update (c :: rest) = (t.put c.1 c.2).update rest := rfl
    rw [unfolded, ih restApart, mem_put]
    -- A leaf of the first new subtree lies at no later path, above none and below none.
    have survives : ∀ r d, d ∈ rest → ¬ d.1 <+: c.1 ++ r ∧ ¬ c.1 ++ r <+: d.1 := by
      intro r d member
      exact apart_below r (apart_comm.mp (apart d member))
    constructor
    · rintro (⟨d, member, r, rfl, new⟩ | ⟨⟨r, rfl, new⟩ | ⟨old, outside⟩, later⟩)
      · exact .inl ⟨d, List.mem_cons_of_mem _ member, r, rfl, new⟩
      · exact .inl ⟨c, List.mem_cons_self, r, rfl, new⟩
      · exact .inr ⟨old, List.forall_mem_cons.mpr ⟨outside, later⟩⟩
    · rintro (⟨d, member, r, rfl, new⟩ | ⟨old, outside⟩)
      · rcases List.mem_cons.mp member with rfl | member
        · exact .inr ⟨.inl ⟨r, rfl, new⟩, fun e inRest =>
            ⟨(survives r e inRest).1, .inr (survives r e inRest).2⟩⟩
        · exact .inl ⟨d, member, r, rfl, new⟩
      · obtain ⟨first, later⟩ := List.forall_mem_cons.mp outside
        exact .inr ⟨.inr ⟨old, first⟩, later⟩

/-- The changes that set fields of the node at a path. -/
def fieldChanges (base : List K) (fields : List (K × V)) : Changes K V :=
  fields.map (fun f => (base ++ [f.1], leaf f.2))

omit [DecidableEq K] in
theorem independent_fieldChanges (base : List K) {fields : List (K × V)}
    (distinct : fields.Pairwise (fun f g => f.1 ≠ g.1)) : Independent (fieldChanges base fields) := by
  rw [Independent, fieldChanges, List.pairwise_map]
  refine distinct.imp ?_
  intro f g different
  rw [apart_append]
  simp [Apart, different, Ne.symm different]

/-- Setting fields of a node gives these fields their values and keeps the other children. -/
theorem mem_update_fieldChanges {fields : List (K × V)} (distinct : fields.Pairwise (fun f g => f.1 ≠ g.1))
    (filled : fields ≠ []) {t : Tree K V} {base r : List K} {value : V} :
    (base ++ r, value) ∈ (t.update (fieldChanges base fields)).leaves ↔
      (∃ f ∈ fields, r = [f.1] ∧ value = f.2) ∨
        ((base ++ r, value) ∈ t.leaves ∧ r ≠ [] ∧ ∀ f ∈ fields, ¬ [f.1] <+: r) := by
  rw [mem_update (independent_fieldChanges base distinct), fieldChanges, List.forall_mem_map]
  refine or_congr ?_ (and_congr_right fun _ => ?_)
  · constructor
    · rintro ⟨c, member, s, path, new⟩
      obtain ⟨f, inFields, rfl⟩ := List.mem_map.mp member
      obtain ⟨rfl, rfl⟩ := Prod.mk.inj (List.mem_singleton.mp new)
      exact ⟨f, inFields, by simpa using path, rfl⟩
    · rintro ⟨f, inFields, rfl, rfl⟩
      exact ⟨_, List.mem_map.mpr ⟨f, inFields, rfl⟩, [], by simp, by simp [leaf]⟩
  · simp only [List.prefix_append_right_inj]
    constructor
    · intro outside
      obtain ⟨f, member⟩ := List.exists_mem_of_ne_nil fields filled
      refine ⟨?_, fun g inFields => (outside g inFields).1⟩
      rintro rfl
      simpa [leaf] using (outside f member).2
    · rintro ⟨nonempty, outside⟩ f member
      refine ⟨outside f member, .inr ?_⟩
      intro above
      rcases List.prefix_concat_iff.mp (show r <+: [] ++ [f.1] from above) with rfl | short
      · exact outside f member List.prefix_rfl
      · exact nonempty (List.prefix_nil.mp short)

/-- Changes apart from a path leave its subtree as it was. -/
theorem sub_update {changes : Changes K V} (t : Tree K V) {p : List K}
    (outside : ∀ c ∈ changes, Apart p c.1) : (t.update changes).sub p = t.sub p := by
  induction changes generalizing t with
  | nil => rfl
  | cons c rest ih =>
    obtain ⟨first, later⟩ := List.forall_mem_cons.mp outside
    have unfolded : t.update (c :: rest) = (t.put c.1 c.2).update rest := rfl
    rw [unfolded, ih _ later]
    have moved : below p (c.2.leaves.map (fun l => (c.1 ++ l.1, l.2))) = [] := by
      rw [below, List.filterMap_eq_nil_iff]
      intro l member
      obtain ⟨l', _, rfl⟩ := List.mem_map.mp member
      exact if_neg (apart_below l'.1 first).1
    have kept : below p (t.leaves.filter (fun l => ¬ c.1 <+: l.1 ∧ (c.2.leaves.isEmpty ∨ ¬ l.1 <+: c.1))) =
        below p t.leaves := by
      rw [below, List.filterMap_filter]
      refine List.filterMap_congr ?_
      intro l _
      by_cases here : p <+: l.1
      · obtain ⟨r, at_l⟩ := here
        have apart := apart_below r (apart_comm.mp first)
        rw [at_l] at apart
        simp [apart.1, apart.2]
      · simp [here]
    apply Tree.ext
    show below p (t.put c.1 c.2).leaves = below p t.leaves
    have split : below p (t.put c.1 c.2).leaves = below p _ ++ below p _ := List.filterMap_append ..
    rw [split, moved, List.append_nil, kept]

/-- Removing several nodes leaves exactly the leaves at or below none of them. -/
theorem leaves_update_nulls {changes : Changes K V} (nulls : ∀ c ∈ changes, c.2.leaves = []) (t : Tree K V) :
    (t.update changes).leaves = t.leaves.filter (fun l => ∀ c ∈ changes, ¬ c.1 <+: l.1) := by
  induction changes generalizing t with
  | nil => simp [update]
  | cons c rest ih =>
    obtain ⟨first, later⟩ := List.forall_mem_cons.mp nulls
    have unfolded : t.update (c :: rest) = (t.put c.1 c.2).update rest := rfl
    have removed : (t.put c.1 c.2).leaves = t.leaves.filter (fun l => ¬ c.1 <+: l.1) := by
      simp [put, first]
    rw [unfolded, ih later, removed, List.filter_filter]
    refine List.filter_congr fun l _ => ?_
    rw [Bool.eq_iff_iff]
    simp only [Bool.and_eq_true, decide_eq_true_eq, List.forall_mem_cons]
    exact and_comm

/-- Removing nodes that have been removed changes nothing. -/
theorem update_nulls_twice {changes : Changes K V} (nulls : ∀ c ∈ changes, c.2.leaves = []) (t : Tree K V) :
    (t.update changes).update changes = t.update changes := by
  apply Tree.ext
  rw [leaves_update_nulls nulls, leaves_update_nulls nulls, List.filter_filter]
  refine List.filter_congr fun l _ => ?_
  exact Bool.and_self _

theorem mem_update_apart {changes : Changes K V} {t : Tree K V} {p r : List K} {value : V}
    (outside : ∀ c ∈ changes, Apart p c.1) :
    (p ++ r, value) ∈ (t.update changes).leaves ↔ (p ++ r, value) ∈ t.leaves := by
  rw [← mem_sub, ← mem_sub, sub_update t outside]

end Tree
end SharedList
