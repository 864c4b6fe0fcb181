import SharedList.Feeds

/-!
A replica of a table of keys: the keys it holds, the reads it has started for
keys that it heard of, and the events it has heard. A key that it hears of and
does not hold is fetched first and held when the answer comes; a key whose
removal it hears is dropped if it is held, and a read for it is not called
back. The replica stays clean as long as no removal meets such a read, and is
bound to become unclean once one does.
-/
namespace SharedList
universe u

structure Replica (K : Type u) where
  held : List K
  /-- Reads started for keys heard of; the answer is held whatever is heard until then. -/
  fetching : List K
  /-- The events heard, newest first. -/
  history : List (ChildEvent K)

namespace Replica
variable {K : Type u} [DecidableEq K]

/-- A key of the initial snapshot. -/
def load (r : Replica K) (k : K) : Replica K := { r with held := r.held ++ [k] }

def hear (r : Replica K) : ChildEvent K → Replica K
  | .added k =>
    { r with fetching := if k ∈ r.held then r.fetching else r.fetching ++ [k], history := .added k :: r.history }
  | .removed k => { r with held := r.held.erase k, history := .removed k :: r.history }

/-- The answer to a read started by an added key. -/
def fetch (r : Replica K) (k : K) : Replica K :=
  { r with held := r.held ++ [k], fetching := r.fetching.erase k }

/-- What one step of a component does to its replica. -/
inductive Move (K : Type u) where
  | stay
  | load (k : K)
  | hear (e : ChildEvent K)
  | fetch (k : K)

def step (r : Replica K) : Move K → Option (Replica K)
  | .stay => some r
  | .load k => if k ∉ r.held ∧ r.history = [] then some (r.load k) else none
  | .hear e => if Possible r.history e then some (r.hear e) else none
  | .fetch k => if k ∈ r.fetching then some (r.fetch k) else none

/-- The move is no removal of a key that is being fetched. -/
def Unmet (r : Replica K) : Move K → Prop
  | .hear (.removed k) => k ∉ r.fetching
  | _ => True

/-- No key is held twice, and none whose removal was the last thing heard of it. -/
structure Clean (r : Replica K) : Prop where
  distinct : r.held.Nodup
  gone : ∀ k, standing r.history k = some false → k ∉ r.held

/-- How often a key may be held, by what was heard of it last. -/
def allowance : Option Bool → Nat
  | some false => 0
  | _ => 1

theorem allowance_le (heard : Option Bool) : allowance heard ≤ 1 := by
  unfold allowance
  split <;> omega

theorem clean_iff {r : Replica K} : Clean r ↔ ∀ k, r.held.count k ≤ allowance (standing r.history k) := by
  constructor
  · intro clean k
    rcases heard : standing r.history k with _ | _ | _
    · exact List.nodup_iff_count_le_one.mp clean.distinct k
    · exact (List.count_eq_zero.mpr (clean.gone k heard)).le
    · exact List.nodup_iff_count_le_one.mp clean.distinct k
  · intro counts
    refine ⟨List.nodup_iff_count_le_one.mpr fun k => (counts k).trans (allowance_le _), ?_⟩
    intro k removed
    have none := counts k
    rw [removed] at none
    exact List.count_eq_zero.mp (Nat.le_zero.mp none)

/-- How often a key may be held and fetched, by what was heard of it last: a key
    that is there once, and a removed one not at all. -/
def Balanced : Option Bool → Nat → Nat → Prop
  | some true, held, fetching => held + fetching = 1
  | some false, held, fetching => held + fetching = 0
  | none, held, fetching => held ≤ 1 ∧ fetching = 0

/-- What holds as long as no removal meets a read. -/
def Tracks (r : Replica K) : Prop :=
  ∀ k, Balanced (standing r.history k) (r.held.count k) (r.fetching.count k)

/-- A key will be held too often once the reads are answered. -/
def Stray (r : Replica K) (k : K) : Prop :=
  allowance (standing r.history k) < r.held.count k + r.fetching.count k

theorem count_hear_added (r : Replica K) (j k : K) : (r.hear (.added j)).fetching.count k =
    r.fetching.count k + if j = k ∧ r.held.count k = 0 then 1 else 0 := by
  by_cases held : j ∈ r.held
  · have some := List.count_pos_iff.mpr held
    simp only [hear, held, if_true]
    split
    · rename_i both
      obtain ⟨rfl, none⟩ := both
      omega
    · rfl
  · have none := List.count_eq_zero.mpr held
    by_cases same : j = k
    · subst same
      simp [hear, held, none]
    · simp [hear, held, same]

theorem count_hear_removed (r : Replica K) (j k : K) : (r.hear (.removed j)).held.count k =
    r.held.count k - if j = k then 1 else 0 := by
  simp [hear, List.count_erase]

theorem count_fetch (r : Replica K) (j k : K) :
    (r.fetch j).held.count k = (r.held.count k + if j = k then 1 else 0) ∧
      (r.fetch j).fetching.count k = r.fetching.count k - if j = k then 1 else 0 := by
  by_cases same : j = k
  · subst same
    simp [fetch]
  · simp [fetch, List.count_erase, same]

namespace Tracks

theorem clean {r : Replica K} (tracks : Tracks r) : Clean r := by
  rw [clean_iff]
  intro k
  have balanced := tracks k
  rcases heard : standing r.history k with _ | _ | _ <;> simp [heard, Balanced, allowance] at balanced ⊢ <;> omega

/-- Before any event the keys held need only be distinct. -/
theorem of_silent {held : List K} (distinct : held.Nodup) : Tracks ⟨held, [], []⟩ :=
  fun k => ⟨List.nodup_iff_count_le_one.mp distinct k, rfl⟩

theorem start : Tracks (⟨[], [], []⟩ : Replica K) := of_silent .nil

theorem load {r : Replica K} (tracks : Tracks r) {j : K} (new : j ∉ r.held) (silent : r.history = []) :
    Tracks (r.load j) := by
  intro k
  have balanced := tracks k
  have none := List.count_eq_zero.mpr new
  by_cases same : j = k
  · subst same
    simp only [Replica.load, silent, standing, Balanced, List.count_append, List.count_singleton_self] at balanced ⊢
    omega
  · simpa [Replica.load, same] using balanced

/-- Hearing an event keeps track, unless it removes a key that is being fetched. -/
theorem hear {r : Replica K} (tracks : Tracks r) {e : ChildEvent K} (possible : Possible r.history e)
    (unmet : ∀ k, e = .removed k → k ∉ r.fetching) : Tracks (r.hear e) := by
  intro k
  have balanced := tracks k
  cases e with
  | added j =>
    have absent := possible_added.mp possible
    have history : (r.hear (.added j)).history = .added j :: r.history := rfl
    rw [count_hear_added, history]
    by_cases same : j = k
    · subst same
      rcases heard : standing r.history j with _ | _ | _
      all_goals simp [heard, Balanced, standing_added, Replica.hear] at absent balanced ⊢
      · split <;> omega
      · simp [balanced]
    · rw [standing_added, if_neg same, if_neg (fun both => same both.1)]
      exact balanced
  | removed j =>
    have there := possible_removed.mp possible
    have notFetching := List.count_eq_zero.mpr (unmet j rfl)
    have history : (r.hear (.removed j)).history = .removed j :: r.history := rfl
    rw [count_hear_removed, history]
    by_cases same : j = k
    · subst same
      simp [there, Balanced, standing_removed, Replica.hear] at balanced ⊢
      omega
    · rw [standing_removed, if_neg same, if_neg same]
      exact balanced

theorem fetch {r : Replica K} (tracks : Tracks r) {j : K} (fetching : j ∈ r.fetching) : Tracks (r.fetch j) := by
  intro k
  have balanced := tracks k
  obtain ⟨held, rest⟩ := count_fetch r j k
  rw [held, rest]
  by_cases same : j = k
  · subst same
    have waiting := List.count_pos_iff.mpr fetching
    simp only [Replica.fetch, if_true]
    rcases heard : standing r.history j with _ | _ | _ <;> simp [heard, Balanced] at balanced ⊢ <;> omega
  · simpa [same, Replica.fetch] using balanced

theorem step {r t : Replica K} {move : Move K} (tracks : Tracks r) (unmet : Unmet r move)
    (stepped : r.step move = some t) : Tracks t := by
  cases move with
  | stay =>
    cases stepped
    exact tracks
  | load k =>
    obtain ⟨⟨new, silent⟩, rfl⟩ := Option.ite_none_right_eq_some.mp stepped |>.imp_right Option.some.inj
    exact tracks.load new silent
  | hear e =>
    obtain ⟨possible, rfl⟩ := Option.ite_none_right_eq_some.mp stepped |>.imp_right Option.some.inj
    refine tracks.hear possible ?_
    rintro k rfl
    exact unmet
  | fetch k =>
    obtain ⟨fetching, rfl⟩ := Option.ite_none_right_eq_some.mp stepped |>.imp_right Option.some.inj
    exact tracks.fetch fetching

end Tracks

namespace Stray

/-- A removal that meets a read leaves its key stray. -/
theorem of_met {r : Replica K} {k : K} (fetching : k ∈ r.fetching) : Stray (r.hear (.removed k)) k := by
  have waiting := List.count_pos_iff.mpr fetching
  simp only [Stray, Replica.hear, standing_removed, if_true, allowance]
  omega

/-- A stray key stays stray while the replica is clean. -/
theorem hear {r : Replica K} {k : K} (stray : Stray r k) (clean : Clean r) {e : ChildEvent K}
    (possible : Possible r.history e) : Stray (r.hear e) k := by
  have atMost := clean_iff.mp clean k
  unfold Stray at stray ⊢
  cases e with
  | added j =>
    have history : (r.hear (.added j)).history = .added j :: r.history := rfl
    have held : (r.hear (.added j)).held = r.held := rfl
    rw [count_hear_added, history, held, standing_added]
    by_cases same : j = k
    · subst same
      rcases heard : standing r.history j with _ | _ | _
      · simp [heard, allowance] at stray ⊢
        omega
      · have none : r.held.count j = 0 := by simpa [heard, allowance] using atMost
        rw [heard, none] at stray
        simp only [allowance, none, if_true, and_self] at stray ⊢
        omega
      · simp [heard, allowance] at stray ⊢
        omega
    · rw [if_neg same, if_neg (fun both => same both.1)]
      exact stray
  | removed j =>
    have there := possible_removed.mp possible
    have history : (r.hear (.removed j)).history = .removed j :: r.history := rfl
    have fetching : (r.hear (.removed j)).fetching = r.fetching := rfl
    rw [count_hear_removed, history, fetching, standing_removed]
    by_cases same : j = k
    · subst same
      simp only [there, allowance, if_true] at stray atMost ⊢
      omega
    · rw [if_neg same, if_neg same]
      exact stray

theorem fetch {r : Replica K} {k : K} (stray : Stray r k) {j : K} (fetching : j ∈ r.fetching) : Stray (r.fetch j) k := by
  obtain ⟨held, rest⟩ := count_fetch r j k
  have waiting := List.count_pos_iff.mpr fetching
  have history : (r.fetch j).history = r.history := rfl
  unfold Stray at stray ⊢
  rw [held, rest, history]
  by_cases same : j = k
  · subst same
    rw [if_pos rfl]
    omega
  · rw [if_neg same]
    exact stray

theorem load {r : Replica K} {k : K} (stray : Stray r k) (j : K) : Stray (r.load j) k := by
  unfold Stray at stray ⊢
  simp only [Replica.load, List.count_append]
  omega

theorem step {r t : Replica K} {move : Move K} {k : K} (stray : Stray r k) (clean : Clean r)
    (stepped : r.step move = some t) : Stray t k := by
  cases move with
  | stay =>
    cases stepped
    exact stray
  | load j =>
    obtain ⟨_, rfl⟩ := Option.ite_none_right_eq_some.mp stepped |>.imp_right Option.some.inj
    exact stray.load j
  | hear e =>
    obtain ⟨possible, rfl⟩ := Option.ite_none_right_eq_some.mp stepped |>.imp_right Option.some.inj
    exact stray.hear clean possible
  | fetch j =>
    obtain ⟨fetching, rfl⟩ := Option.ite_none_right_eq_some.mp stepped |>.imp_right Option.some.inj
    exact stray.fetch fetching

/-- A step that does not stay unmet leaves some key stray. -/
theorem of_step {r t : Replica K} {move : Move K} (met : ¬ Unmet r move) (stepped : r.step move = some t) :
    ∃ k, Stray t k := by
  unfold Unmet at met
  split at met
  · rename_i k
    obtain ⟨_, rfl⟩ := Option.ite_none_right_eq_some.mp stepped |>.imp_right Option.some.inj
    exact ⟨k, of_met (not_not.mp met)⟩
  · exact absurd trivial met

/-- A replica that fetches nothing and has a stray key is not clean. -/
theorem not_clean {r : Replica K} {k : K} (stray : Stray r k) (idle : r.fetching = []) : ¬ Clean r := by
  intro clean
  have atMost := clean_iff.mp clean k
  unfold Stray at stray
  rw [idle, List.count_nil] at stray
  omega

end Stray

/-- A held key was heard of, or will be. -/
def Backed (r : Replica K) (t : Table K) : Prop :=
  ∀ k ∈ r.held, standing r.history k = some true ∨ .added k ∈ t.queue

theorem Backed.of_keys {r : Replica K} {t : Table K} {order : List K} (replay : order.Nodup ∧ order.toFinset = t.keys)
    (current : ∀ k ∈ r.held, k ∈ t.keys) : Backed r (t.listen order replay) := by
  intro k held
  have listed : k ∈ order := by
    rw [← List.mem_toFinset, replay.2]
    exact current k held
  exact .inr (List.mem_map_of_mem listed)

theorem Backed.mono {r : Replica K} {t u : Table K} (backed : Backed r t) (queued : ∀ e ∈ t.queue, e ∈ u.queue) :
    Backed r u := fun k held => (backed k held).imp_right (queued _)

theorem Backed.hear {r : Replica K} {t : Table K} (backed : Backed r t) (tracks : Tracks r) {e : ChildEvent K}
    {rest : List (ChildEvent K)} (next : t.queue = e :: rest) : Backed (r.hear e) (t.deliver e rest next) := by
  intro k held
  have queued : .added k ∈ t.queue → .added k = e ∨ .added k ∈ rest := by
    intro member
    rwa [next, List.mem_cons] at member
  cases e with
  | added j =>
    by_cases same : j = k
    · exact .inl (by simp [Replica.hear, standing_added, same])
    · rcases backed k held with there | member
      · exact .inl (by simpa [Replica.hear, standing_added, same] using there)
      · refine .inr ((queued member).resolve_left ?_)
        rintro ⟨⟩
        exact same rfl
  | removed j =>
    obtain ⟨other, stillHeld⟩ := tracks.clean.distinct.mem_erase_iff.mp held
    rcases backed k stillHeld with there | member
    · exact .inl (by simpa [Replica.hear, standing_removed, Ne.symm other] using there)
    · exact .inr ((queued member).resolve_left (by simp))

theorem Backed.fetch {r : Replica K} {t : Table K} (backed : Backed r t) (tracks : Tracks r) {j : K}
    (fetching : j ∈ r.fetching) : Backed (r.fetch j) t := by
  intro k held
  rcases List.mem_append.mp held with old | new
  · exact backed k old
  · obtain rfl := List.mem_singleton.mp new
    have balanced := tracks k
    have waiting := List.count_pos_iff.mpr fetching
    rcases heard : standing r.history k with _ | _ | _
    · simp [heard, Balanced] at balanced
      omega
    · simp [heard, Balanced] at balanced
      omega
    · exact .inl heard

/-- A replica that has heard everything and fetches nothing holds the keys of the table. -/
theorem agrees {r : Replica K} {t : Table K} (tracks : Tracks r) (backed : Backed r t) (same : r.history = t.history)
    (listening : t.listening = true) (drained : t.queue = []) (idle : r.fetching = []) (k : K) :
    k ∈ r.held ↔ k ∈ t.keys := by
  rw [← t.standing_iff listening drained k, ← same]
  constructor
  · intro held
    rcases backed k held with there | queued
    · exact there
    · rw [drained] at queued
      cases queued
  · intro there
    have balanced := tracks k
    simp [there, Balanced, idle] at balanced
    exact List.count_pos_iff.mp (by omega)

end Replica
end SharedList
