import SharedList.Followers
import Mathlib.Logic.Function.Basic

/-!
Followers of one store. Every state of the store has a table of keys for each
follower. A move of the store raises events at the followers that listen: the
removals of the keys that have gone, then the additions of those that have come.
To a follower this is what other clients do to its own table key by key, so a
follower that stays in step holds, once it has settled, the keys of the store.
-/
namespace SharedList
universe u v

section
variable {K : Type u} [DecidableEq K]

/-- The events of a change of the keys, each kind sorted. -/
def keyChanges (le : K → K → Bool) (before after : List K) : List (ChildEvent K) :=
  ((before.filter (fun k => k ∉ after)).mergeSort le).map .removed ++
    ((after.filter (fun k => k ∉ before)).mergeSort le).map .added

namespace Table

def change (t : Table K) : ChildEvent K → Table K
  | .added k => if new : k ∉ t.keys then t.add k new else t
  | .removed k => if there : k ∈ t.keys then t.remove k there else t

def follow (t : Table K) (changes : List (ChildEvent K)) : Table K := changes.foldl change t

theorem mem_change_added {t : Table K} {j k : K} : k ∈ (t.change (.added j)).keys ↔ k ∈ t.keys ∨ k = j := by
  rw [change]
  by_cases there : j ∈ t.keys
  · rw [dif_neg (not_not.mpr there)]
    refine ⟨.inl, ?_⟩
    rintro (member | rfl)
    · exact member
    · exact there
  · rw [dif_pos there]
    simp [add, or_comm]

theorem mem_change_removed {t : Table K} {j k : K} : k ∈ (t.change (.removed j)).keys ↔ k ∈ t.keys ∧ k ≠ j := by
  rw [change]
  by_cases there : j ∈ t.keys
  · rw [dif_pos there]
    simp [remove, and_comm]
  · rw [dif_neg there]
    refine ⟨fun member => ⟨member, ?_⟩, And.left⟩
    rintro rfl
    exact there member

/-- A change of the keys raises an event at most. -/
theorem change_frame (t : Table K) (event : ChildEvent K) : (t.change event).history = t.history ∧
    (t.change event).listening = t.listening ∧ ∀ e ∈ t.queue, e ∈ (t.change event).queue := by
  have raised : ∀ e ∈ t.queue, e ∈ t.raise event := by
    intro e queued
    unfold raise
    split
    · exact List.mem_append_left _ queued
    · exact queued
  cases event with
  | added k =>
    rw [change]
    split
    · exact ⟨rfl, rfl, raised⟩
    · exact ⟨rfl, rfl, fun _ queued => queued⟩
  | removed k =>
    rw [change]
    split
    · exact ⟨rfl, rfl, raised⟩
    · exact ⟨rfl, rfl, fun _ queued => queued⟩

theorem follow_frame (changes : List (ChildEvent K)) (t : Table K) : (t.follow changes).history = t.history ∧
    (t.follow changes).listening = t.listening ∧ ∀ e ∈ t.queue, e ∈ (t.follow changes).queue := by
  induction changes generalizing t with
  | nil => exact ⟨rfl, rfl, fun _ queued => queued⟩
  | cons event rest ih =>
    obtain ⟨history, listening, queued⟩ := t.change_frame event
    obtain ⟨laterHistory, laterListening, laterQueued⟩ := ih (t.change event)
    exact ⟨laterHistory.trans history, laterListening.trans listening, fun e member => laterQueued e (queued e member)⟩

theorem mem_follow_added {order : List K} {t : Table K} {k : K} :
    k ∈ (t.follow (order.map .added)).keys ↔ k ∈ t.keys ∨ k ∈ order := by
  induction order generalizing t with
  | nil => simp [follow]
  | cons first rest ih =>
    have unfolded : t.follow ((first :: rest).map .added) = (t.change (.added first)).follow (rest.map .added) := rfl
    rw [unfolded, ih, mem_change_added, List.mem_cons, or_assoc]

theorem mem_follow_removed {order : List K} {t : Table K} {k : K} :
    k ∈ (t.follow (order.map .removed)).keys ↔ k ∈ t.keys ∧ k ∉ order := by
  induction order generalizing t with
  | nil => simp [follow]
  | cons first rest ih =>
    have unfolded : t.follow ((first :: rest).map .removed) = (t.change (.removed first)).follow (rest.map .removed) := rfl
    rw [unfolded, ih, mem_change_removed, List.mem_cons, not_or, and_assoc]

/-- The changes lead from the keys before to the keys after. -/
theorem follow_keyChanges {t : Table K} (le : K → K → Bool) {before after : List K} (keys : t.keys = before.toFinset) :
    (t.follow (keyChanges le before after)).keys = after.toFinset := by
  ext k
  rw [follow, keyChanges, List.foldl_append]
  change k ∈ ((t.follow _).follow _).keys ↔ _
  rw [mem_follow_added, mem_follow_removed, keys]
  simp only [List.mem_toFinset, List.mem_mergeSort, List.mem_filter, decide_eq_true_eq]
  by_cases old : k ∈ before <;> by_cases new : k ∈ after <;> simp [old, new]

end Table
end

/-- A store with moves `L` and one follower for each index. -/
structure Network (W L : Type u) {ι : Type v} (S I : ι → Type u) (K : Type u) [DecidableEq K] where
  advance : W → L → Option W
  keys : ι → W → List K
  /-- The order in which the events of one change are raised. -/
  le : K → K → Bool
  follower : ∀ i, Follower (S i) (I i) K
  /-- Whether a store that has been in these states, the newest first, gives the follower this input. -/
  serves : ∀ i, List W → I i → Bool

namespace Network
variable {W L : Type u} {ι : Type v} {S I : ι → Type u} {K : Type u} [DecidableEq K]

structure State (W : Type u) {ι : Type v} (S : ι → Type u) (K : Type u) [DecidableEq K] where
  store : W
  /-- The states of the store so far, the present one first. -/
  past : List W
  device : ∀ i, Follower.World (S i) K

inductive Event (L : Type u) {ι : Type v} (I : ι → Type u) (K : Type u) where
  | store (l : L)
  /-- The server reads the keys for one follower. -/
  | readKeys (i : ι)
  | listen (i : ι) (order : List K)
  | input (i : ι) (x : I i)

variable (n : Network W L S I K)

def start (w : W) (states : ∀ i, S i) : State W S K := ⟨w, [w], fun i => .start (states i) (n.keys i w).toFinset⟩

/-- The store moves; the follower is told of the change of its keys. -/
def tell (i : ι) (device : Follower.World (S i) K) (before after : W) : Follower.World (S i) K :=
  { device with table := device.table.follow (keyChanges n.le (n.keys i before) (n.keys i after)) }

def moved (s : State W S K) (store : W) : State W S K := ⟨store, store :: s.past, fun i => n.tell i (s.device i) s.store store⟩

variable [DecidableEq ι]

def State.set (s : State W S K) (i : ι) (device : Follower.World (S i) K) : State W S K :=
  { s with device := Function.update s.device i device }

def step (s : State W S K) : Event L I K → Option (State W S K)
  | .store l => (n.advance s.store l).map (n.moved s)
  | .readKeys i => ((n.follower i).step (s.device i) .readKeys).map (s.set i)
  | .listen i order => ((n.follower i).step (s.device i) (.listen order)).map (s.set i)
  | .input i x => if n.serves i s.past x then ((n.follower i).step (s.device i) (.input x)).map (s.set i) else none

/-- The follower stays in step, whatever the others do. -/
def StaysInStep (i : ι) (s : State W S K) : Event L I K → Prop
  | .listen j order => j = i → (n.follower j).StaysInStep (s.device j) (.listen order)
  | .input j x => j = i → (n.follower j).StaysInStep (s.device j) (.input x)
  | _ => True

instance (i : ι) (s : State W S K) : ∀ event, Decidable (n.StaysInStep i s event)
  | .listen j order => inferInstanceAs (Decidable (j = i → (n.follower j).StaysInStep (s.device j) (.listen order)))
  | .input j x => inferInstanceAs (Decidable (j = i → (n.follower j).StaysInStep (s.device j) (.input x)))
  | .store _ | .readKeys _ => isTrue trivial

/-- Once the follower has settled, it holds exactly the keys that the store has for it. -/
def AgreesWithStore (i : ι) (s : State W S K) : Prop :=
  (n.follower i).Settled (s.device i) → ∀ k, k ∈ (n.follower i).held (s.device i).state ↔ k ∈ n.keys i s.store

/-- The step of a follower that an event of the network is. -/
inductive Own (n : Network W L S I K) (s : State W S K) : Event L I K → (i : ι) → Follower.Event (I i) K → Prop where
  | readKeys (i : ι) : Own n s (.readKeys i) i .readKeys
  | listen (i : ι) (order : List K) : Own n s (.listen i order) i (.listen order)
  | input (i : ι) (x : I i) (served : n.serves i s.past x = true) : Own n s (.input i x) i (.input x)

variable {n}

/-- The store moves, or one follower does. -/
theorem step_cases {s t : State W S K} {event : Event L I K} (stepped : n.step s event = some t) :
    (∃ l store, event = .store l ∧ n.advance s.store l = some store ∧ t = n.moved s store) ∨
      ∃ i own device, Own n s event i own ∧ (n.follower i).step (s.device i) own = some device ∧ t = s.set i device := by
  cases event with
  | store l =>
    obtain ⟨store, advanced, rfl⟩ := Option.map_eq_some_iff.mp stepped
    exact .inl ⟨l, store, rfl, advanced, rfl⟩
  | readKeys i =>
    obtain ⟨device, own, rfl⟩ := Option.map_eq_some_iff.mp stepped
    exact .inr ⟨i, _, device, .readKeys i, own, rfl⟩
  | listen i order =>
    obtain ⟨device, own, rfl⟩ := Option.map_eq_some_iff.mp stepped
    exact .inr ⟨i, _, device, .listen i order, own, rfl⟩
  | input i x =>
    obtain ⟨served, moved⟩ := Option.ite_none_right_eq_some.mp stepped
    obtain ⟨device, own, rfl⟩ := Option.map_eq_some_iff.mp moved
    exact .inr ⟨i, _, device, .input i x served, own, rfl⟩

omit [DecidableEq ι] in
theorem StaysInStep.own {i : ι} {s : State W S K} {event : Event L I K} {own : Follower.Event (I i) K}
    (stays : n.StaysInStep i s event) (isOwn : Own n s event i own) : (n.follower i).StaysInStep (s.device i) own := by
  cases isOwn with
  | readKeys => trivial
  | listen | input => exact stays rfl

omit [DecidableEq ι] in
/-- A follower's own step leaves the keys alone, and only an input is handled. -/
theorem own_frame {s : State W S K} {event : Event L I K} {i : ι} {own : Follower.Event (I i) K}
    {device : Follower.World (S i) K} (isOwn : Own n s event i own)
    (stepped : (n.follower i).step (s.device i) own = some device) : device.table.keys = (s.device i).table.keys ∧
      (device.state = (s.device i).state ∨
        ∃ x, event = .input i x ∧ n.serves i s.past x = true ∧ (n.follower i).handle (s.device i).state x = some device.state) := by
  cases isOwn with
  | readKeys =>
    simp only [Follower.step, Option.ite_none_right_eq_some, Option.some.injEq] at stepped
    obtain ⟨_, rfl⟩ := stepped
    exact ⟨rfl, .inl rfl⟩
  | listen _ order =>
    simp only [Follower.step, Option.dite_none_right_eq_some, Option.ite_none_right_eq_some, Option.some.injEq] at stepped
    obtain ⟨_, _, rfl⟩ := stepped
    exact ⟨rfl, .inl rfl⟩
  | input _ x served =>
    simp only [Follower.step] at stepped
    split at stepped
    · split at stepped
      · cases stepped
      · simp only [Option.ite_none_right_eq_some, Option.map_eq_some_iff] at stepped
        obtain ⟨_, _, handled, rfl⟩ := stepped
        exact ⟨rfl, .inr ⟨x, rfl, served, handled⟩⟩
    · split at stepped
      · simp only [Option.ite_none_right_eq_some, Option.map_eq_some_iff] at stepped
        obtain ⟨_, _, handled, rfl⟩ := stepped
        exact ⟨rfl, .inr ⟨x, rfl, served, handled⟩⟩
      · obtain ⟨_, handled, rfl⟩ := Option.map_eq_some_iff.mp stepped
        exact ⟨rfl, .inr ⟨x, rfl, served, handled⟩⟩

/-- Only an input that the store can give changes the state of a follower. -/
theorem step_state {s t : State W S K} {event : Event L I K} (stepped : n.step s event = some t) (i : ι) :
    (t.device i).state = (s.device i).state ∨ ∃ x, event = .input i x ∧ n.serves i s.past x = true ∧
      (n.follower i).handle (s.device i).state x = some (t.device i).state := by
  rcases step_cases stepped with ⟨_, _, _, _, rfl⟩ | ⟨j, own, device, isOwn, moved, rfl⟩
  · exact .inl rfl
  · by_cases here : j = i
    · subst here
      have same : (s.set j device).device j = device := Function.update_self ..
      rw [same]
      exact (own_frame isOwn moved).2
    · have same : (s.set j device).device i = s.device i := Function.update_of_ne (Ne.symm here) ..
      exact .inl (congrArg _ same)

/-- What holds of one follower in every state reached in step. -/
structure Kept (n : Network W L S I K) (i : ι) (Inv : S i → List (ChildEvent K) → Prop) (s : State W S K) : Prop where
  inStep : (n.follower i).InStep Inv (s.device i)
  keys : (s.device i).table.keys = (n.keys i s.store).toFinset

theorem Kept.step {i : ι} {Inv : S i → List (ChildEvent K) → Prop} (refines : (n.follower i).Refines Inv)
    {s t : State W S K} {event : Event L I K} (kept : n.Kept i Inv s) (stays : n.StaysInStep i s event)
    (stepped : n.step s event = some t) : n.Kept i Inv t := by
  rcases step_cases stepped with ⟨l, store, rfl, _, rfl⟩ | ⟨j, own, device, isOwn, moved, rfl⟩
  · obtain ⟨history, listening, queued⟩ :=
      Table.follow_frame (keyChanges n.le (n.keys i s.store) (n.keys i store)) (s.device i).table
    exact ⟨kept.inStep.changed history listening queued, Table.follow_keyChanges n.le kept.keys⟩
  · by_cases here : j = i
    · subst here
      have same : (s.set j device).device j = device := Function.update_self ..
      refine ⟨?_, ?_⟩
      · rw [same]
        exact kept.inStep.step refines (stays.own isOwn) moved
      · rw [same, (own_frame isOwn moved).1]
        exact kept.keys
    · have same : (s.set j device).device i = s.device i := Function.update_of_ne (Ne.symm here) ..
      exact ⟨same ▸ kept.inStep, same ▸ kept.keys⟩

/-- The rule for a whole run: a follower that moves as a replica and stays in step
    holds the keys of the store whenever it has settled, whatever the others do. -/
theorem agrees_with_store {i : ι} {Inv : S i → List (ChildEvent K) → Prop} (refines : (n.follower i).Refines Inv)
    {states : ∀ i, S i} (inv : Inv (states i) []) (nothing : (n.follower i).held (states i) = [])
    (noReads : (n.follower i).fetching (states i) = []) (w : W) {events : List (Event L I K)}
    (stays : Runs.Along n.step (n.StaysInStep i) (n.start w states) events) :
    Runs.Always n.step (n.AgreesWithStore i) (n.start w states) events := by
  have start : n.Kept i Inv (n.start w states) := ⟨.start (n.keys i w).toFinset inv nothing noReads, rfl⟩
  have always := Runs.always_of_invariant (fun _ _ _ kept stays stepped => Kept.step refines kept stays stepped) start stays
  refine always.mono fun s kept settled k => ?_
  rw [kept.inStep.agrees settled k, kept.keys, List.mem_toFinset]

end Network
end SharedList
