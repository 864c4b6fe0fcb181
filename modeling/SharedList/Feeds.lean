import Mathlib.Data.Finset.Basic
import Mathlib.Data.Finset.Dedup
import Mathlib.Data.Finset.Insert

/-!
Tables of keys with one listener. A listener that registers hears first of
every key that is there and then, in order, of every change. `standing` is what
the events heard so far say of a key, and `Leads` that the events still queued
lead from there to the keys of the table; `Table` carries this as a field.
-/
namespace SharedList
universe u

inductive ChildEvent (K : Type u) where
  | added (k : K)
  | removed (k : K)
deriving DecidableEq

namespace ChildEvent
variable {K : Type u} [DecidableEq K]

def key : ChildEvent K → K
  | .added k | .removed k => k
/-- Whether the event leaves its key there. -/
def here : ChildEvent K → Bool
  | .added _ => true
  | .removed _ => false

end ChildEvent

section
variable {K : Type u} [DecidableEq K]

/-- What the last event about the key says, in a history with the newest event first. -/
def standing : List (ChildEvent K) → K → Option Bool
  | [], _ => none
  | e :: earlier, k => if e.key = k then some e.here else standing earlier k

/-- An event that may follow: a key is added when it is not there and removed when it is. -/
def Possible (history : List (ChildEvent K)) (e : ChildEvent K) : Prop :=
  e.here = false ↔ standing history e.key = some true
instance (history : List (ChildEvent K)) (e : ChildEvent K) : Decidable (Possible history e) :=
  inferInstanceAs (Decidable (_ ↔ _))

/-- The queued events can follow the history, one after the other, and lead to the keys. -/
def Leads : List (ChildEvent K) → List (ChildEvent K) → Finset K → Prop
  | history, [], keys => ∀ k, standing history k = some true ↔ k ∈ keys
  | history, e :: queue, keys => Possible history e ∧ Leads (e :: history) queue keys

@[simp] theorem standing_cons_self (e : ChildEvent K) (history : List (ChildEvent K)) :
    standing (e :: history) e.key = some e.here := by
  rw [standing, if_pos rfl]
theorem standing_cons_other {e : ChildEvent K} {k : K} (other : e.key ≠ k) (history : List (ChildEvent K)) :
    standing (e :: history) k = standing history k := by
  rw [standing, if_neg other]

theorem standing_added (j k : K) (history : List (ChildEvent K)) :
    standing (.added j :: history) k = if j = k then some true else standing history k := rfl
theorem standing_removed (j k : K) (history : List (ChildEvent K)) :
    standing (.removed j :: history) k = if j = k then some false else standing history k := rfl

theorem possible_added {history : List (ChildEvent K)} {k : K} :
    Possible history (.added k) ↔ standing history k ≠ some true := by
  simp [Possible, ChildEvent.here, ChildEvent.key]
theorem possible_removed {history : List (ChildEvent K)} {k : K} :
    Possible history (.removed k) ↔ standing history k = some true := by
  simp [Possible, ChildEvent.here, ChildEvent.key]

/-- A change that can follow the keys is queued last. -/
theorem Leads.append {history queue : List (ChildEvent K)} {keys after : Finset K} {e : ChildEvent K}
    (leads : Leads history queue keys) (possible : e.here = false ↔ e.key ∈ keys)
    (here : e.here = true ↔ e.key ∈ after) (others : ∀ k, e.key ≠ k → (k ∈ keys ↔ k ∈ after)) :
    Leads history (queue ++ [e]) after := by
  induction queue generalizing history with
  | nil =>
    refine ⟨possible.trans (leads e.key).symm, ?_⟩
    intro k
    by_cases same : e.key = k
    · subst same
      rw [standing_cons_self, Option.some.injEq]
      exact here
    · rw [standing_cons_other same]
      exact (leads k).trans (others k same)
  | cons first rest ih => exact ⟨leads.1, ih leads.2⟩

/-- Adding keys that are not there, one after the other, leads to the old and the new keys. -/
theorem leads_added {order : List K} (nodup : order.Nodup) {history : List (ChildEvent K)} {keys : Finset K}
    (fresh : ∀ k ∈ order, standing history k ≠ some true)
    (all : ∀ k, k ∈ keys ↔ standing history k = some true ∨ k ∈ order) :
    Leads history (order.map .added) keys := by
  induction order generalizing history with
  | nil =>
    intro k
    simpa using (all k).symm
  | cons first rest ih =>
    obtain ⟨notInRest, restNodup⟩ := List.nodup_cons.mp nodup
    refine ⟨possible_added.mpr (fresh first List.mem_cons_self), ih restNodup ?_ ?_⟩
    · intro k member
      have other : first ≠ k := by
        rintro rfl
        exact notInRest member
      rw [standing_added, if_neg other]
      exact fresh k (List.mem_cons_of_mem _ member)
    · intro k
      rw [all k, List.mem_cons]
      by_cases same : first = k
      · subst same
        simp [standing_added]
      · rw [standing_added, if_neg same]
        simp [Ne.symm same]

/-- Events of different keys that are all possible at once lead to the keys they leave, in any order. -/
theorem leads_batch {events : List (ChildEvent K)} (distinct : (events.map ChildEvent.key).Nodup)
    {history : List (ChildEvent K)} {keys : Finset K} (possible : ∀ e ∈ events, Possible history e)
    (here : ∀ e ∈ events, e.here = true ↔ e.key ∈ keys)
    (others : ∀ k ∉ events.map ChildEvent.key, standing history k = some true ↔ k ∈ keys) : Leads history events keys := by
  induction events generalizing history with
  | nil => exact fun k => others k List.not_mem_nil
  | cons first rest ih =>
    obtain ⟨notInRest, restDistinct⟩ := List.nodup_cons.mp distinct
    obtain ⟨firstPossible, restPossible⟩ := List.forall_mem_cons.mp possible
    obtain ⟨firstHere, restHere⟩ := List.forall_mem_cons.mp here
    refine ⟨firstPossible, ih restDistinct ?_ restHere ?_⟩
    · intro e member
      have other : first.key ≠ e.key := by
        intro same
        exact notInRest (List.mem_map.mpr ⟨e, member, same.symm⟩)
      rw [Possible, standing_cons_other other]
      exact restPossible e member
    · intro k notLater
      by_cases same : first.key = k
      · subst same
        rw [standing_cons_self, Option.some.injEq]
        exact firstHere
      · rw [standing_cons_other same]
        refine others k ?_
        rw [List.map_cons, List.mem_cons, not_or]
        exact ⟨Ne.symm same, notLater⟩

end

/-- A table of keys, the events its listener has heard and those on their way. -/
structure Table (K : Type u) [DecidableEq K] where
  keys : Finset K
  listening : Bool
  /-- The events delivered, newest first. -/
  history : List (ChildEvent K)
  /-- The events raised and not yet delivered, oldest first. -/
  queue : List (ChildEvent K)
  leads : listening = true → Leads history queue keys
  silent : listening = false → history = [] ∧ queue = []

namespace Table
variable {K : Type u} [DecidableEq K]

/-- A table that nobody listens to. -/
def unheard (keys : Finset K) : Table K where
  keys := keys
  listening := false
  history := []
  queue := []
  leads := by simp
  silent := by simp

def raise (t : Table K) (e : ChildEvent K) : List (ChildEvent K) := if t.listening then t.queue ++ [e] else t.queue

/-- Another client adds a key. -/
def add (t : Table K) (k : K) (new : k ∉ t.keys) : Table K where
  keys := insert k t.keys
  listening := t.listening
  history := t.history
  queue := t.raise (.added k)
  leads := by
    intro listening
    rw [raise, if_pos listening]
    refine (t.leads listening).append ?_ ?_ ?_
    · simpa [ChildEvent.here, ChildEvent.key] using new
    · simp [ChildEvent.here, ChildEvent.key]
    · intro j other
      simp [Finset.mem_insert, Ne.symm (show k ≠ j from other)]
  silent := by
    intro silent
    simpa [raise, silent] using t.silent silent

/-- Another client removes a key. -/
def remove (t : Table K) (k : K) (there : k ∈ t.keys) : Table K where
  keys := t.keys.erase k
  listening := t.listening
  history := t.history
  queue := t.raise (.removed k)
  leads := by
    intro listening
    rw [raise, if_pos listening]
    refine (t.leads listening).append ?_ ?_ ?_
    · simpa [ChildEvent.here, ChildEvent.key] using there
    · simp [ChildEvent.here, ChildEvent.key]
    · intro j other
      simp [Finset.mem_erase, Ne.symm (show k ≠ j from other)]
  silent := by
    intro silent
    simpa [raise, silent] using t.silent silent

/-- The registration takes effect, and the keys are replayed in some order. -/
def listen (t : Table K) (order : List K) (replay : order.Nodup ∧ order.toFinset = t.keys) : Table K where
  keys := t.keys
  listening := true
  history := []
  queue := order.map .added
  leads := by
    intro _
    refine leads_added replay.1 (by simp [standing]) ?_
    intro k
    rw [← replay.2]
    simp [standing]
  silent := by simp

/-- The oldest event on its way is delivered. -/
def deliver (t : Table K) (e : ChildEvent K) (rest : List (ChildEvent K)) (next : t.queue = e :: rest) : Table K where
  keys := t.keys
  listening := t.listening
  history := e :: t.history
  queue := rest
  leads := by
    intro listening
    have leads := t.leads listening
    rw [next] at leads
    exact leads.2
  silent := by
    intro silent
    rw [(t.silent silent).2] at next
    cases next

theorem possible_next {t : Table K} {e : ChildEvent K} {rest : List (ChildEvent K)} (next : t.queue = e :: rest) :
    Possible t.history e := by
  cases listening : t.listening with
  | true =>
    have leads := t.leads listening
    rw [next] at leads
    exact leads.1
  | false =>
    rw [(t.silent listening).2] at next
    cases next

/-- When every event has been delivered, the history tells the keys. -/
theorem standing_iff {t : Table K} (listening : t.listening = true) (drained : t.queue = []) (k : K) :
    standing t.history k = some true ↔ k ∈ t.keys := by
  have leads := t.leads listening
  rw [drained] at leads
  exact leads k

end Table
end SharedList
