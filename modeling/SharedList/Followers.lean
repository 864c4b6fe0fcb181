import SharedList.Replicas
import SharedList.Runs

/-!
Components that follow a table of keys: one read of the keys, and from the
registration of an observer on the events of every change. The world holds the
component, the table and a read on its way; other clients change the table at
any time. A component that moves as a replica does agrees with the table
whenever it has loaded and nothing is outstanding, if it held only current keys
when it began to observe and handled no removal of a key it was fetching.
-/
namespace SharedList
universe u

/-- What a world asks of a component with states `S` and inputs `I`. -/
structure Follower (S I K : Type u) [DecidableEq K] where
  handle : S → I → Option S
  /-- The read of the keys waits for its answer. -/
  awaits : S → Bool
  /-- The observers are registered. -/
  observes : S → Bool
  held : S → List K
  /-- The keys it heard of and reads before it holds them. -/
  fetching : S → List K
  /-- No other read is outstanding. -/
  idle : S → Bool
  /-- The keys that an answer to the read of the keys reports. -/
  keys? : I → Option (Finset K)
  /-- The event that an input is. -/
  event? : I → Option (ChildEvent K)

namespace Follower
variable {S I K : Type u} [DecidableEq K]

structure World (S K : Type u) [DecidableEq K] where
  state : S
  table : Table K
  /-- The keys that the server has read for the component and not yet delivered. -/
  snapshot : Option (Finset K)

inductive Event (I K : Type u) where
  /-- Another client adds or removes a key. -/
  | add (k : K)
  | remove (k : K)
  /-- The server reads the keys for the component. -/
  | readKeys
  /-- The registration of the observers takes effect; the keys are replayed in this order. -/
  | listen (order : List K)
  /-- An input of the component; one that is an event must be the oldest on its way. -/
  | input (i : I)

def World.start (s : S) (keys : Finset K) : World S K := ⟨s, Table.unheard keys, none⟩

variable (f : Follower S I K)

def step (w : World S K) : Event I K → Option (World S K)
  | .add k => if new : k ∉ w.table.keys then some { w with table := w.table.add k new } else none
  | .remove k => if there : k ∈ w.table.keys then some { w with table := w.table.remove k there } else none
  | .readKeys => if f.awaits w.state ∧ w.snapshot = none then some { w with snapshot := some w.table.keys } else none
  | .listen order =>
    if replay : order.Nodup ∧ order.toFinset = w.table.keys then
      if f.observes w.state = true ∧ w.table.listening = false then
        some { w with table := w.table.listen order replay }
      else none
    else none
  | .input i =>
    match f.event? i with
    | some event =>
      match next : w.table.queue with
      | [] => none
      | first :: rest =>
        if first = event then
          (f.handle w.state i).map (fun s => { w with state := s, table := w.table.deliver first rest next })
        else none
    | none =>
      match f.keys? i with
      | some keys =>
        if w.snapshot = some keys then (f.handle w.state i).map (fun s => { w with state := s, snapshot := none }) else none
      | none => (f.handle w.state i).map (fun s => { w with state := s })

/-- The load has finished and no read or event is outstanding. -/
structure Settled (w : World S K) : Prop where
  listening : w.table.listening = true
  drained : w.table.queue = []
  answered : w.snapshot = none
  fetched : f.fetching w.state = []
  idle : f.idle w.state = true

instance (w : World S K) : Decidable (f.Settled w) :=
  decidable_of_iff (w.table.listening = true ∧ w.table.queue = [] ∧ w.snapshot = none ∧ f.fetching w.state = [] ∧
      f.idle w.state = true)
    ⟨fun all => ⟨all.1, all.2.1, all.2.2.1, all.2.2.2.1, all.2.2.2.2⟩,
     fun settled => ⟨settled.1, settled.2, settled.3, settled.4, settled.5⟩⟩

/-- Whenever everything has settled, the component holds exactly the keys of the table. -/
def AgreesWhenSettled (w : World S K) : Prop := f.Settled w → ∀ k, k ∈ f.held w.state ↔ k ∈ w.table.keys

/-- The event removes no key that is being fetched. -/
def Unread (s : S) : Option (ChildEvent K) → Prop
  | some (.removed k) => k ∉ f.fetching s
  | _ => True

instance (s : S) : ∀ event, Decidable (f.Unread s event)
  | some (.removed k) => inferInstanceAs (Decidable (k ∉ f.fetching s))
  | some (.added _) | none => isTrue trivial

/-- The keys held are current when the observers are registered, and no removal
    is handled of a key that is being fetched. -/
def StaysInStep (w : World S K) : Event I K → Prop
  | .listen _ => ∀ k ∈ f.held w.state, k ∈ w.table.keys
  | .input i => f.Unread w.state (f.event? i)
  | _ => True

instance (w : World S K) : ∀ event, Decidable (f.StaysInStep w event)
  | .listen _ => inferInstanceAs (Decidable (∀ k ∈ f.held w.state, k ∈ w.table.keys))
  | .input i => inferInstanceAs (Decidable (f.Unread w.state (f.event? i)))
  | .add _ | .remove _ | .readKeys => isTrue trivial

def replica (s : S) (history : List (ChildEvent K)) : Replica K := ⟨f.held s, f.fetching s, history⟩

/-- An input that is no event fetches a key at most, or, before the component observes, loads keys. -/
structure QuietMove (Inv : S → List (ChildEvent K) → Prop) (s t : S) (history : List (ChildEvent K)) : Prop where
  inv : Inv t history
  tracks : (f.replica s history).Tracks → (f.replica t history).Tracks
  observes : f.observes s = true → f.observes t = true
  moved : f.observes s = true → f.replica t history = f.replica s history ∨
    ∃ k ∈ f.fetching s, f.replica t history = (f.replica s history).fetch k

/-- The component moves as a replica: an event is heard, and possibly its key fetched at once. -/
structure Refines (Inv : S → List (ChildEvent K) → Prop) : Prop where
  heard : ∀ {s t : S} {i : I} {history : List (ChildEvent K)} {event : ChildEvent K}, Inv s history →
    f.observes s = true → f.event? i = some event → Possible history event → f.handle s i = some t →
    Inv t (event :: history) ∧ f.observes t = true ∧
      (f.replica t (event :: history) = (f.replica s history).hear event ∨
        ∃ k ∈ ((f.replica s history).hear event).fetching,
          f.replica t (event :: history) = ((f.replica s history).hear event).fetch k)
  quiet : ∀ {s t : S} {i : I} {history : List (ChildEvent K)}, Inv s history → f.event? i = none →
    f.handle s i = some t → f.QuietMove Inv s t history

/-- What holds in every world reached in step. -/
structure InStep (Inv : S → List (ChildEvent K) → Prop) (w : World S K) : Prop where
  inv : Inv w.state w.table.history
  tracks : (f.replica w.state w.table.history).Tracks
  observes : w.table.listening = true → f.observes w.state = true
  backed : w.table.listening = true → (f.replica w.state w.table.history).Backed w.table

variable {f} {Inv : S → List (ChildEvent K) → Prop}

namespace InStep

theorem start {s : S} (keys : Finset K) (inv : Inv s []) (nothing : f.held s = []) (noReads : f.fetching s = []) :
    f.InStep Inv (World.start s keys) := by
  refine ⟨inv, ?_, ?_, ?_⟩
  · have empty : f.replica s [] = ⟨[], [], []⟩ := by rw [replica, nothing, noReads]
    exact empty ▸ Replica.Tracks.start
  · simp [World.start, Table.unheard]
  · simp [World.start, Table.unheard]

/-- A change of the keys leaves the component alone and queues at most one event more. -/
theorem changed {w : World S K} (inStep : f.InStep Inv w) {table : Table K} (history : table.history = w.table.history)
    (listening : table.listening = w.table.listening) (queued : ∀ e ∈ w.table.queue, e ∈ table.queue) :
    f.InStep Inv { w with table := table } := by
  refine ⟨?_, ?_, ?_, ?_⟩
  · rw [history]
    exact inStep.inv
  · rw [history]
    exact inStep.tracks
  · rw [listening]
    exact inStep.observes
  · rw [listening, history]
    exact fun heard => (inStep.backed heard).mono queued

theorem listen {w : World S K} (inStep : f.InStep Inv w) {order : List K}
    (replay : order.Nodup ∧ order.toFinset = w.table.keys) (observes : f.observes w.state = true)
    (silent : w.table.listening = false) (current : ∀ k ∈ f.held w.state, k ∈ w.table.keys) :
    f.InStep Inv { w with table := w.table.listen order replay } := by
  have noHistory := (w.table.silent silent).1
  have inv := inStep.inv
  have tracks := inStep.tracks
  rw [noHistory] at inv tracks
  exact ⟨inv, tracks, fun _ => observes, fun _ => Replica.Backed.of_keys replay current⟩

theorem deliver (refines : f.Refines Inv) {w : World S K} (inStep : f.InStep Inv w) {i : I} {event : ChildEvent K}
    {rest : List (ChildEvent K)} (next : w.table.queue = event :: rest) (isEvent : f.event? i = some event) {t : S}
    (handled : f.handle w.state i = some t) (unread : f.Unread w.state (some event)) :
    f.InStep Inv { w with state := t, table := w.table.deliver event rest next } := by
  have heard : w.table.listening = true := by
    by_contra silent
    rw [(w.table.silent (by simpa using silent)).2] at next
    cases next
  have possible := Table.possible_next next
  obtain ⟨inv, observes, moved⟩ := refines.heard inStep.inv (inStep.observes heard) isEvent possible handled
  have hearing : ((f.replica w.state w.table.history).hear event).Tracks := by
    refine inStep.tracks.hear possible ?_
    rintro k rfl
    exact unread
  have backed := (inStep.backed heard).hear inStep.tracks next
  rcases moved with same | ⟨k, fetching, same⟩
  · refine ⟨inv, ?_, fun _ => observes, fun _ => ?_⟩
    · exact same ▸ hearing
    · exact same ▸ backed
  · refine ⟨inv, ?_, fun _ => observes, fun _ => ?_⟩
    · exact same ▸ hearing.fetch fetching
    · exact same ▸ backed.fetch hearing fetching

theorem quiet (refines : f.Refines Inv) {w : World S K} (inStep : f.InStep Inv w) {i : I} (noEvent : f.event? i = none)
    {t : S} (handled : f.handle w.state i = some t) (snapshot : Option (Finset K)) :
    f.InStep Inv { w with state := t, snapshot := snapshot } := by
  have move := refines.quiet inStep.inv noEvent handled
  refine ⟨move.inv, move.tracks inStep.tracks, fun heard => move.observes (inStep.observes heard), ?_⟩
  intro heard
  rcases move.moved (inStep.observes heard) with same | ⟨k, fetching, same⟩
  · exact same ▸ inStep.backed heard
  · exact same ▸ (inStep.backed heard).fetch inStep.tracks fetching

theorem step (refines : f.Refines Inv) {w t : World S K} {event : Event I K} (inStep : f.InStep Inv w)
    (stays : f.StaysInStep w event) (stepped : f.step w event = some t) : f.InStep Inv t := by
  cases event with
  | add k =>
    simp only [Follower.step, Option.dite_none_right_eq_some, Option.some.injEq] at stepped
    obtain ⟨new, rfl⟩ := stepped
    refine inStep.changed rfl rfl ?_
    intro e queued
    simp only [Table.add, Table.raise]
    split <;> simp [queued]
  | remove k =>
    simp only [Follower.step, Option.dite_none_right_eq_some, Option.some.injEq] at stepped
    obtain ⟨there, rfl⟩ := stepped
    refine inStep.changed rfl rfl ?_
    intro e queued
    simp only [Table.remove, Table.raise]
    split <;> simp [queued]
  | readKeys =>
    simp only [Follower.step, Option.ite_none_right_eq_some, Option.some.injEq] at stepped
    obtain ⟨_, rfl⟩ := stepped
    exact ⟨inStep.inv, inStep.tracks, inStep.observes, inStep.backed⟩
  | listen order =>
    simp only [Follower.step, Option.dite_none_right_eq_some, Option.ite_none_right_eq_some, Option.some.injEq] at stepped
    obtain ⟨replay, ⟨observes, silent⟩, rfl⟩ := stepped
    exact inStep.listen replay observes silent stays
  | input i =>
    have unread : f.Unread w.state (f.event? i) := stays
    simp only [Follower.step] at stepped
    split at stepped
    · rename_i event isEvent
      rw [isEvent] at unread
      split at stepped
      · cases stepped
      · rename_i first rest next
        simp only [Option.ite_none_right_eq_some, Option.map_eq_some_iff] at stepped
        obtain ⟨rfl, s, handled, rfl⟩ := stepped
        exact inStep.deliver refines next isEvent handled unread
    · rename_i noEvent
      split at stepped
      · simp only [Option.ite_none_right_eq_some, Option.map_eq_some_iff] at stepped
        obtain ⟨_, s, handled, rfl⟩ := stepped
        exact inStep.quiet refines noEvent handled none
      · simp only [Option.map_eq_some_iff] at stepped
        obtain ⟨s, handled, rfl⟩ := stepped
        exact inStep.quiet refines noEvent handled w.snapshot

theorem agrees {w : World S K} (inStep : f.InStep Inv w) : f.AgreesWhenSettled w := by
  intro settled
  exact Replica.agrees inStep.tracks (inStep.backed settled.listening) rfl settled.listening settled.drained settled.fetched

end InStep

/-- The rule for a whole run: a component that moves as a replica and stays in
    step agrees with the table whenever it has settled. -/
theorem Refines.agrees_always (refines : f.Refines Inv) {s : S} (keys : Finset K) (inv : Inv s []) (nothing : f.held s = [])
    (noReads : f.fetching s = []) {events : List (Event I K)}
    (stays : Runs.Along f.step f.StaysInStep (World.start s keys) events) :
    Runs.Always f.step f.AgreesWhenSettled (World.start s keys) events := by
  have start := InStep.start keys inv nothing noReads
  have always := Runs.always_of_invariant (fun _ _ _ inStep stays stepped => InStep.step refines inStep stays stepped) start stays
  exact always.mono fun _ inStep => inStep.agrees

end Follower
end SharedList
