import Mathlib.Data.Option.Basic

/-!
Runs of a state machine whose step is chosen by a label. `exec` is the state
after a list of labels; `Always` says that a property holds in every state of
the run, `Along` that every step taken meets a condition in the state before
it. The rules derive the first from the second by an invariant, in one
direction and, where a step outside the condition breaks the property at once,
in both.
-/
namespace SharedList.Runs
universe u v w x
variable {S : Type u} {L : Type v}

/-- The state after the labels, if every step is possible. -/
def exec (step : S → L → Option S) (s : S) : List L → Option S
  | [] => some s
  | l :: rest => (step s l).bind (fun t => exec step t rest)

/-- The property holds in every state of the run, which ends at the first
    impossible step. -/
def Always (step : S → L → Option S) (P : S → Prop) (s : S) : List L → Prop
  | [] => P s
  | l :: rest => P s ∧ ∀ t, step s l = some t → Always step P t rest

/-- Every step the run takes meets the condition in the state before it. -/
def Along (step : S → L → Option S) (cond : S → L → Prop) (s : S) : List L → Prop
  | [] => True
  | l :: rest => ∀ t, step s l = some t → cond s l ∧ Along step cond t rest

variable {step : S → L → Option S}

instance decidableAlong {cond : S → L → Prop} [∀ s l, Decidable (cond s l)] :
    ∀ (s : S) (labels : List L), Decidable (Along step cond s labels)
  | _, [] => isTrue trivial
  | s, l :: rest =>
    match stepped : step s l with
    | none => isTrue (fun t reached => by rw [stepped] at reached; cases reached)
    | some t =>
      have : Decidable (Along step cond t rest) := decidableAlong t rest
      decidable_of_iff (cond s l ∧ Along step cond t rest) (by simp [Along, stepped])

/-- The last state of a run has every property that the run always has. -/
theorem Always.last {P : S → Prop} {s t : S} {labels : List L} (always : Always step P s labels)
    (reached : exec step s labels = some t) : P t := by
  induction labels generalizing s with
  | nil => cases reached; exact always
  | cons l rest ih =>
    obtain ⟨u, stepped, tail⟩ := Option.bind_eq_some_iff.mp reached
    exact ih (always.2 u stepped) tail

/-- A test that the last state of the run passes is passed by a state with the property. -/
theorem Always.of_any {P : S → Prop} {test : S → Bool} {s : S} {labels : List L} (always : Always step P s labels)
    (passed : (exec step s labels).any test = true) : ∃ t, P t ∧ test t = true := by
  obtain ⟨t, reached, passes⟩ := (Option.any_eq_true _ _).mp passed
  exact ⟨t, always.last reached, passes⟩

theorem Always.mono {P Q : S → Prop} (weaker : ∀ s, P s → Q s) {s : S} {labels : List L}
    (always : Always step P s labels) : Always step Q s labels := by
  induction labels generalizing s with
  | nil => exact weaker s always
  | cons l rest ih => exact ⟨weaker s always.1, fun t stepped => ih (always.2 t stepped)⟩

/-- An invariant that every step within the condition keeps holds throughout
    every run whose steps stay within the condition. -/
theorem always_of_invariant {cond : S → L → Prop} {I : S → Prop}
    (keep : ∀ s l t, I s → cond s l → step s l = some t → I t) {s : S} (start : I s) {labels : List L}
    (along : Along step cond s labels) : Always step I s labels := by
  induction labels generalizing s with
  | nil => exact start
  | cons l rest ih =>
    refine ⟨start, ?_⟩
    intro t stepped
    obtain ⟨meets, later⟩ := along t stepped
    exact ih (keep s l t start meets stepped) later

theorem along_true (s : S) (labels : List L) : Along step (fun _ _ => True) s labels := by
  induction labels generalizing s with
  | nil => trivial
  | cons l rest ih => exact fun t _ => ⟨trivial, ih t⟩

/-- An invariant of every step holds throughout every run. -/
theorem always_invariant {I : S → Prop} (keep : ∀ s l t, I s → step s l = some t → I t) {s : S} (start : I s)
    (labels : List L) : Always step I s labels :=
  always_of_invariant (fun s l t inv _ stepped => keep s l t inv stepped) start (along_true s labels)

/-- An invariant of every step holds in the last state of every run. -/
theorem exec_invariant {I : S → Prop} (keep : ∀ s l t, I s → step s l = some t → I t) {s t : S}
    (start : I s) {labels : List L} (reached : exec step s labels = some t) : I t :=
  (always_invariant keep start labels).last reached

theorem exec_concat {s t u : S} {labels : List L} {l : L} (run : exec step s labels = some t) (stepped : step t l = some u) :
    exec step s (labels ++ [l]) = some u := by
  induction labels generalizing s with
  | nil =>
    cases run
    exact Option.bind_eq_some_iff.mpr ⟨u, stepped, rfl⟩
  | cons first rest ih =>
    obtain ⟨v, moved, later⟩ := Option.bind_eq_some_iff.mp run
    exact Option.bind_eq_some_iff.mpr ⟨v, moved, ih later⟩

/-- A property of the labels so far and the state they lead to, kept by every step. -/
theorem exec_history {P : List L → S → Prop} (keep : ∀ done s l t, P done s → step s l = some t → P (done ++ [l]) t)
    (done : List L) {s t : S} (start : P done s) {labels : List L} (run : exec step s labels = some t) :
    P (done ++ labels) t := by
  induction labels generalizing done s with
  | nil =>
    cases run
    rwa [List.append_nil]
  | cons l rest ih =>
    obtain ⟨u, stepped, later⟩ := Option.bind_eq_some_iff.mp run
    have next := ih (done ++ [l]) (keep done s l u start stepped) later
    rwa [List.append_assoc] at next

/-- A state that leaves a phase for one that lasts is in the first phase as long as it is not in the second. -/
theorem exec_phase {During After : S → Prop} (moves : ∀ s l t, During s → step s l = some t → During t ∨ After t)
    (lasts : ∀ s l t, After s → step s l = some t → After t) {s t : S} (start : During s) {labels : List L}
    (run : exec step s labels = some t) : During t ∨ After t := by
  refine @exec_invariant _ _ _ (fun s => During s ∨ After s) ?_ _ _ (.inl start) _ run
  rintro s l t (during | later) stepped
  · exact moves s l t during stepped
  · exact .inr (lasts s l t later stepped)

/-- Properties that agree wherever an invariant of every step holds always hold in the same runs. -/
theorem always_congr {I P Q : S → Prop} (same : ∀ s, I s → (P s ↔ Q s))
    (keep : ∀ s l t, I s → step s l = some t → I t) {s : S} (start : I s) (labels : List L) :
    Always step P s labels ↔ Always step Q s labels := by
  induction labels generalizing s with
  | nil => exact same s start
  | cons l rest ih =>
    exact and_congr (same s start) (forall₂_congr fun t stepped => ih (keep s l t start stepped))

/-- Where the condition on a step keeps the invariant and a step outside it
    breaks the property, a run always has the property exactly when all its
    steps meet the condition. -/
theorem always_iff_along {cond : S → L → Prop} {I P : S → Prop} (holds : ∀ s, I s → P s)
    (keep : ∀ s l t, I s → cond s l → step s l = some t → I t)
    (breaks : ∀ s l t, I s → ¬ cond s l → step s l = some t → ¬ P t) {s : S} (start : I s)
    (labels : List L) : Always step P s labels ↔ Along step cond s labels := by
  constructor
  · intro always
    induction labels generalizing s with
    | nil => trivial
    | cons l rest ih =>
      intro t stepped
      have next := always.2 t stepped
      have first : P t := by
        cases rest with
        | nil => exact next
        | cons _ _ => exact next.1
      by_cases meets : cond s l
      · exact ⟨meets, ih (keep s l t start meets stepped) next⟩
      · exact absurd first (breaks s l t start meets stepped)
  · intro along
    exact (always_of_invariant keep start along).mono holds

/-- Where steps within the condition keep a good state good, a step outside it makes
    it bad and a bad state stays bad, the last state of a run is good exactly when
    all its steps meet the condition. -/
theorem exec_iff_along {cond : S → L → Prop} {Good Bad P : S → Prop} (good : ∀ s, Good s → P s) (bad : ∀ s, Bad s → ¬ P s)
    (keep : ∀ s l t, Good s → cond s l → step s l = some t → Good t)
    (breaks : ∀ s l t, Good s → ¬ cond s l → step s l = some t → Bad t)
    (lasts : ∀ s l t, Bad s → step s l = some t → Bad t) {s t : S} (start : Good s) {labels : List L}
    (run : exec step s labels = some t) : P t ↔ Along step cond s labels := by
  induction labels generalizing s with
  | nil =>
    cases run
    exact iff_of_true (good _ start) trivial
  | cons l rest ih =>
    obtain ⟨u, stepped, later⟩ := Option.bind_eq_some_iff.mp run
    by_cases meets : cond s l
    · rw [ih (keep s l u start meets stepped) later]
      constructor
      · intro along v reached
        obtain rfl : u = v := Option.some.inj (stepped.symm.trans reached)
        exact ⟨meets, along⟩
      · exact fun along => (along u stepped).2
    · refine iff_of_false ?_ (fun along => meets (along u stepped).1)
      exact bad t (exec_invariant lasts (breaks s l u start meets stepped) later)

/-- Where every step of one machine is matched by a step of another, every run is. -/
theorem exec_matched {M : Type w} {K : Type x} {other : M → K → Option M} (R : S → M → Prop)
    (matched : ∀ s m l t, R s m → step s l = some t → ∃ k n, other m k = some n ∧ R t n) {s t : S} {m : M}
    (start : R s m) {labels : List L} (run : exec step s labels = some t) :
    ∃ others n, exec other m others = some n ∧ R t n := by
  induction labels generalizing s m with
  | nil =>
    cases run
    exact ⟨[], m, rfl, start⟩
  | cons l rest ih =>
    obtain ⟨u, stepped, later⟩ := Option.bind_eq_some_iff.mp run
    obtain ⟨k, n, moved, related⟩ := matched s m l u start stepped
    obtain ⟨others, last, ran, ends⟩ := ih related later
    exact ⟨k :: others, last, Option.bind_eq_some_iff.mpr ⟨n, moved, ran⟩, ends⟩

/-- Where every step of one machine is one of another by the same label, so is every run. -/
theorem exec_lockstep {M : Type w} {other : M → L → Option M} (R : S → M → Prop)
    (matched : ∀ s m l t, R s m → step s l = some t → ∃ n, other m l = some n ∧ R t n) {s t : S} {m : M}
    (start : R s m) {labels : List L} (run : exec step s labels = some t) : ∃ n, exec other m labels = some n ∧ R t n := by
  induction labels generalizing s m with
  | nil =>
    cases run
    exact ⟨m, rfl, start⟩
  | cons l rest ih =>
    obtain ⟨u, stepped, later⟩ := Option.bind_eq_some_iff.mp run
    obtain ⟨n, moved, related⟩ := matched s m l u start stepped
    obtain ⟨last, ran, ends⟩ := ih related later
    exact ⟨last, Option.bind_eq_some_iff.mpr ⟨n, moved, ran⟩, ends⟩

end SharedList.Runs
