import SharedList.Traces
import SharedList.UpdatePaths
import SharedList.ListRecords

/-!
The order in which the server applies writes. Whatever else the clients do in
between, it matters only for writes of which one touches a node that the other
touches, or one above or below it.
-/
namespace SharedList
open FrbUtils

instance (a b : Update) : Decidable (Separate a b) :=
  inferInstanceAs (Decidable (∀ c ∈ a.changes, ∀ d ∈ b.changes, Apart c.1 d.1))

/-- Databases with the same leaves. -/
instance sameLeaves : Setoid Database where
  r a b := ∀ q v, (q, v) ∈ a.leaves ↔ (q, v) ∈ b.leaves
  iseqv := ⟨fun _ _ _ => Iff.rfl, fun same q v => (same q v).symm, fun first second q v => (first q v).trans (second q v)⟩

theorem updateChildValues_congr {a b : Database} (same : a ≈ b) (data : Update) :
    updateChildValues a data ≈ updateChildValues b data := by
  have put : ∀ {a b : Database} (c : List Key × Database), a ≈ b → a.put c.1 c.2 ≈ b.put c.1 c.2 := by
    intro a b c same q v
    rw [Tree.mem_put, Tree.mem_put, same q v]
  exact Traces.foldl_congr put data.changes same

/-- The writes that are applied in the course of the actions. -/
def appliedWrites (actions : List Action) : List Write :=
  actions.filterMap fun
    | .applied write _ => some write
    | _ => none

/-- The database after a run is what the writes applied in it make of the one before. -/
theorem db_of_run {w t : World} {actions : List Action} (run : Runs.exec step w actions = some t) :
    t.db = (appliedWrites actions).foldl (fun db write => write.apply db) w.db := by
  induction actions generalizing w with
  | nil =>
    cases run
    rfl
  | cons action rest ih =>
    obtain ⟨u, stepped, later⟩ := Option.bind_eq_some_iff.mp run
    rw [ih later]
    cases action with
    | applied write signedIn =>
      rw [(step_applied stepped).2]
      rfl
    | _ =>
      rcases step_db stepped with same | ⟨_, _, other, _⟩
      · rw [same]
        rfl
      · cases other

theorem applied_valid {w t : World} (sound : Sound w) {actions : List Action} (run : Runs.exec step w actions = some t) :
    ∀ write ∈ appliedWrites actions, write.Valid := by
  induction actions generalizing w with
  | nil => simp [appliedWrites]
  | cons action rest ih =>
    obtain ⟨u, stepped, later⟩ := Option.bind_eq_some_iff.mp run
    have tail := ih (sound.step stepped) later
    cases action with
    | applied write signedIn => exact List.forall_mem_cons.mpr ⟨sound.valid (step_applied stepped).1, tail⟩
    | _ => exact tail

/-- Two runs from one reachable state that apply the same writes, those that overlap in the same
    order, lead to databases with the same leaves. -/
theorem order_matters_only_where_writes_overlap {w t u : World} (reachable : Reachable w) {first second : List Action}
    (toT : Runs.exec step w first = some t) (toU : Runs.exec step w second = some u)
    (same : Traces.SameOrder (fun a b : Write => Separate a.data b.data) (appliedWrites first) (appliedWrites second))
    (q : List Key) (v : Value) : (q, v) ∈ t.db.leaves ↔ (q, v) ∈ u.db.leaves := by
  rw [db_of_run toT, db_of_run toU]
  have valid := applied_valid reachable.sound toT
  refine Traces.foldl_sameOrder (fun write same => updateChildValues_congr same write.data) same ?_ w.db q v
  intro a first b second separate db q v
  exact separate_commute (Write.independent (valid a first)) (Write.independent (valid b second)) separate

namespace Sample
abbrev eggs : Key := { val := "eggs" }
def addMilk : Write := .addNewItem aliceCall.object milk "Milk" alice
def addEggs : Write := .addNewItem aliceCall.object eggs "Eggs" alice
end Sample

/-- Milk and eggs are put on the list, and the two writes wait for the server. -/
def twoItemsRun : List Action :=
  open Sample in
  [.addNewList aliceCall, .applied (.addNewList aliceCall) none, .loadList groceries,
   .addNewItem aliceCall.object "Milk" alice milk, .addNewItem aliceCall.object "Eggs" alice eggs]

theorem order_matters_only_where_writes_overlap_twoItemsRun : ∃ w t u, Reachable w ∧
    Runs.exec step w [.applied Sample.addMilk none, .applied Sample.addEggs none] = some t ∧
    Runs.exec step w [.applied Sample.addEggs none, .applied Sample.addMilk none] = some u ∧
    ∀ q v, (q, v) ∈ t.db.leaves ↔ (q, v) ∈ u.db.leaves := by
  have passed : ((Runs.exec step (World.registered Sample.alice "alice@mail") twoItemsRun).any fun w =>
      (Runs.exec step w [.applied Sample.addMilk none, .applied Sample.addEggs none]).isSome &&
        (Runs.exec step w [.applied Sample.addEggs none, .applied Sample.addMilk none]).isSome) = true := by
    decide +kernel
  obtain ⟨w, toW, both⟩ := (Option.any_eq_true _ _).mp passed
  obtain ⟨one, other⟩ := Bool.and_eq_true_iff.mp both
  obtain ⟨t, toT⟩ := Option.isSome_iff_exists.mp one
  obtain ⟨u, toU⟩ := Option.isSome_iff_exists.mp other
  refine ⟨w, t, u, ⟨_, twoItemsRun, initial_registered Sample.alice "alice@mail", toW⟩, toT, toU, ?_⟩
  exact order_matters_only_where_writes_overlap ⟨_, twoItemsRun, initial_registered Sample.alice "alice@mail", toW⟩ toT toU
    (by decide +kernel)

end SharedList
