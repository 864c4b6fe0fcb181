import Mathlib.Data.Finset.Range
import SharedList.Observers
import SharedList.Reachability

/-!
Who keeps the observers of lists and items alive. An entry of a manager's `data`
(`ListWithObserver`, `ItemWithObserver`) holds a `ChangedObserver`, whose `deinit`
is the only thing that ends its registration. It runs when nothing refers to the
observer any more; but Firebase holds the callback of the registration, the
callback is `Updated` of the entry, and the entry holds the observer. So no
`deinit` ever runs, and an entry that `data` drops goes on hearing changes.
-/
namespace SharedList.Retention
open Observers
universe u v

/-- `ListWithObserver` and `ItemWithObserver`. -/
structure Entry where
  dbRef : FrbUtils.Reference
  observer : Option Nat
deriving DecidableEq

/-- A `ChangedObserver` and the entry whose `Updated` is its `dataChangedCallback`. -/
structure Observing where
  observer : ChangedObserver
  callback : Nat
  /-- Its `deinit` has run. -/
  gone : Bool
deriving DecidableEq

/-- The objects of one manager. Entries and observers are numbered as they are made. -/
structure Memory where
  registry : Registry
  entries : List Entry
  observers : List Observing
  data : List Nat
deriving DecidableEq

/-- Who else refers to the manager: the view controller, and Firebase through the manager's
    other callbacks. -/
structure Holders where
  viewController : Bool
  callbacks : Bool

inductive Node where
  | registry | viewController | manager
  | entry (e : Nat)
  | observer (o : Nat)
deriving DecidableEq

inductive Operation where
  /-- `AddListWithObserver` or `AddItemWithObserver`, for each record in turn. -/
  | add (dbRefs : List FrbUtils.Reference)
  /-- `data.remove(at:)`. -/
  | remove (index : Nat)

namespace Memory

def empty : Memory := ⟨⟨[], 0⟩, [], [], []⟩

/-! ## The operations of the manager -/

/-- `Activate` of an entry. -/
def activate (m : Memory) (e : Nat) : Memory :=
  match m.entries[e]? with
  | some entry =>
    if entry.observer = none then
      let (observer, registry) := (ChangedObserver.mk entry.dbRef false).activate m.observers.length m.registry
      { m with registry := registry, observers := m.observers ++ [⟨observer, e, false⟩],
               entries := m.entries.set e { entry with observer := some m.observers.length } }
    else m
  | none => m

def addWithObserver (m : Memory) (dbRef : FrbUtils.Reference) : Memory :=
  let observer := m.entries.length
  let created : Memory := { m with entries := m.entries ++ [⟨dbRef, none⟩] }
  let activated := created.activate observer
  { activated with data := activated.data ++ [observer] }

def perform (m : Memory) : Operation → Memory
  | .add dbRefs => dbRefs.foldl addWithObserver m
  | .remove index => { m with data := m.data.eraseIdx index }

/-! ## References and `deinit` -/

/-- The entry whose `Updated` the registration calls. -/
def callback (m : Memory) (r : Registration) : Option Nat :=
  match r.owner with
  | .object o => m.observers[o]?.map Observing.callback
  | .read => none

/-- The objects that an object holds strongly. -/
def refers (h : Holders) (m : Memory) : Node → List Node
  | .registry =>
    m.registry.registrations.filterMap (fun r => (m.callback r).map .entry) ++ if h.callbacks then [.manager] else []
  | .viewController => if h.viewController then [.manager] else []
  | .manager => m.data.map .entry
  | .entry e => .manager :: (m.entries[e]?.bind Entry.observer).toList.map .observer
  | .observer o => m.observers[o]?.toList.map (fun observing => .entry observing.callback)

def roots : Finset Node := {.registry, .viewController}

def nodes (m : Memory) : Finset Node :=
  {.registry, .viewController, .manager} ∪ (Finset.range m.entries.length).image .entry ∪
    (Finset.range m.observers.length).image .observer

def reachable (h : Holders) (m : Memory) : Finset Node := Reachability.reach (m.refers h) m.nodes.card roots

def deinit (m : Memory) (o : Nat) : Memory :=
  match m.observers[o]? with
  | some observing =>
    let (observer, registry) := observing.observer.deactivate m.registry
    { m with registry := registry, observers := m.observers.set o { observing with observer := observer, gone := true } }
  | none => m

/-- An observer that still exists, and to which nothing leads. -/
def lost? (h : Holders) (m : Memory) : Option Nat :=
  (List.range m.observers.length).find? (fun o =>
    m.observers[o]?.any (fun observing => !observing.gone) ∧ .observer o ∉ m.reachable h)

/-- One lost observer goes. -/
def release (h : Holders) (m : Memory) : Memory :=
  match m.lost? h with
  | some o => m.deinit o
  | none => m

/-- All go, those too that only others held. -/
def collect (h : Holders) (m : Memory) : Memory := (release h)^[m.observers.length] m

/-! ## Change events -/

/-- The entries whose `Updated` runs for an event at some of the registrations. -/
def reached (m : Memory) (select : FrbUtils.Reference → Nat → Bool) : List Nat :=
  m.registry.registrations.filterMap (fun r => (m.callback r).filter (select r.path))

end Memory

/-- A class of managers: what an input does to its entries, and which registrations it is an
    event for. The manager's own state tells the records of the entries in `data` and of
    those dropped from it. -/
structure Keeper (S : Type u) (I : Type v) where
  step : S → I → Option S
  operation : S → I → Operation
  selects : I → Option (FrbUtils.Reference → Nat → Bool)
  holders : S → Holders
  shown : S → List FrbUtils.Reference
  dropped : S → List FrbUtils.Reference
  adds : ∀ {s t input dbRefs}, step s input = some t → operation s input = .add dbRefs →
    shown t = shown s ++ dbRefs ∧ dropped t = dropped s
  removes : ∀ {s t input index}, step s input = some t → operation s input = .remove index →
    shown t = (shown s).eraseIdx index ∧ dropped t = dropped s ++ (shown s)[index]?.toList

/-- A manager with its objects. -/
structure World (S : Type u) where
  manager : S
  memory : Memory
  /-- The entries that have heard a change when they were no longer in `data`. -/
  strays : List Nat

namespace World
variable {S : Type u} {I : Type v} (k : Keeper S I)

def start (manager : S) : World S := ⟨manager, .empty, []⟩

/-- The entries that hear the input; a change event comes only where a registration takes it. -/
def hears (w : World S) (input : I) : Option (List Nat) :=
  match k.selects input with
  | some select => if w.memory.reached select = [] then none else some (w.memory.reached select)
  | none => some []

def step (w : World S) (input : I) : Option (World S) :=
  (w.hears k input).bind fun heard => (k.step w.manager input).map fun manager =>
    ⟨manager, (w.memory.perform (k.operation w.manager input)).collect (k.holders manager),
      w.strays ++ heard.filter (fun e => e ∉ w.memory.data)⟩

/-- Every registration belongs to an entry in `data`, and no other entry has heard a change. -/
structure Silent (w : World S) : Prop where
  registered : ∀ r ∈ w.memory.registry.registrations, ∀ e, w.memory.callback r = some e → e ∈ w.memory.data
  unheard : w.strays = []

/-- The input takes no entry out of `data`. -/
def DropsNothing (w : World S) (input : I) : Prop :=
  ∀ index, k.operation w.manager input = .remove index → (k.shown w.manager).length ≤ index

end World

/-! ## The objects as a function of the entries made -/

namespace Memory

/-- The objects when entries have been made for these records and nothing has ended. -/
def ofPaths (dbRefs : List FrbUtils.Reference) (data : List Nat) : Memory where
  registry := ⟨dbRefs.mapIdx (fun o dbRef => ⟨dbRef, o, .childChanged, .object o⟩), dbRefs.length⟩
  entries := dbRefs.mapIdx (fun e dbRef => ⟨dbRef, some e⟩)
  observers := dbRefs.mapIdx (fun o dbRef => ⟨⟨dbRef, true⟩, o, false⟩)
  data := data

variable {dbRefs : List FrbUtils.Reference} {data : List Nat}

theorem addWithObserver_ofPaths (dbRef : FrbUtils.Reference) :
    (ofPaths dbRefs data).addWithObserver dbRef = ofPaths (dbRefs ++ [dbRef]) (data ++ [dbRefs.length]) := by
  simp [addWithObserver, activate, ofPaths, ChangedObserver.activate, Registry.observe, List.mapIdx_append]

theorem add_ofPaths (more : List FrbUtils.Reference) : (ofPaths dbRefs data).perform (.add more) =
    ofPaths (dbRefs ++ more) (data ++ List.range' dbRefs.length more.length) := by
  induction more generalizing dbRefs data with
  | nil => simp [perform]
  | cons dbRef rest ih =>
    show ((ofPaths dbRefs data).addWithObserver dbRef).perform (.add rest) = _
    rw [addWithObserver_ofPaths, ih]
    simp [List.range'_succ]

/-- The registrations are one for each entry, whose `Updated` it calls. -/
theorem mem_registrations {r : Registration} : r ∈ (ofPaths dbRefs data).registry.registrations ↔
    ∃ e, ∃ inside : e < dbRefs.length, r = ⟨dbRefs[e], e, .childChanged, .object e⟩ := by
  simp [ofPaths, List.mem_mapIdx, eq_comm]

theorem callback_ofPaths {e : Nat} (inside : e < dbRefs.length) :
    (ofPaths dbRefs data).callback ⟨dbRefs[e], e, .childChanged, .object e⟩ = some e := by
  simp [callback, ofPaths, inside]

theorem mem_refers_registry {h : Holders} {e : Nat} :
    .entry e ∈ (ofPaths dbRefs data).refers h .registry ↔ e < dbRefs.length := by
  simp only [refers, List.mem_append, List.mem_filterMap, mem_registrations]
  constructor
  · rintro (⟨_, ⟨d, inside, rfl⟩, found⟩ | other)
    · rw [callback_ofPaths inside] at found
      cases found
      exact inside
    · split at other <;> simp at other
  · intro inside
    exact .inl ⟨_, ⟨e, inside, rfl⟩, by rw [callback_ofPaths inside]; rfl⟩

/-- The nodes hold nothing but nodes. -/
theorem closed_nodes (h : Holders) (bounded : ∀ e ∈ data, e < dbRefs.length) :
    Reachability.Closed ((ofPaths dbRefs data).refers h) (ofPaths dbRefs data).nodes := by
  have entries : (ofPaths dbRefs data).entries.length = dbRefs.length := List.length_mapIdx
  have observers : (ofPaths dbRefs data).observers.length = dbRefs.length := List.length_mapIdx
  have entry_iff : ∀ e, Node.entry e ∈ (ofPaths dbRefs data).nodes ↔ e < dbRefs.length := by
    simp [nodes, entries]
  have observer_iff : ∀ o, Node.observer o ∈ (ofPaths dbRefs data).nodes ↔ o < dbRefs.length := by
    simp [nodes, observers]
  have manager : Node.manager ∈ (ofPaths dbRefs data).nodes := by simp [nodes]
  intro node member other held
  cases node with
  | registry =>
    cases other with
    | entry e => exact (entry_iff e).mpr (mem_refers_registry.mp held)
    | manager => exact manager
    | _ => simp [refers] at held
  | viewController =>
    simp only [refers] at held
    split at held
    · rw [List.mem_singleton.mp held]
      exact manager
    · cases held
  | manager =>
    obtain ⟨e, listed, rfl⟩ := List.mem_map.mp held
    exact (entry_iff e).mpr (bounded e listed)
  | entry e =>
    rcases List.mem_cons.mp held with rfl | held
    · exact manager
    · have inside := (entry_iff e).mp member
      simp [ofPaths, inside] at held
      rw [held]
      exact (observer_iff e).mpr inside
  | observer o =>
    have inside := (observer_iff o).mp member
    simp [refers, ofPaths, inside] at held
    rw [held]
    exact (entry_iff o).mpr inside

/-- Firebase holds the callback, that is the entry, and the entry holds its observer. -/
theorem observer_reachable (h : Holders) (bounded : ∀ e ∈ data, e < dbRefs.length) {o : Nat} (inside : o < dbRefs.length) :
    .observer o ∈ (ofPaths dbRefs data).reachable h := by
  have isRoots : roots ⊆ (ofPaths dbRefs data).nodes := by
    intro node member
    simp only [roots, Finset.mem_insert, Finset.mem_singleton] at member
    rcases member with rfl | rfl <;> simp [nodes]
  refine (Reachability.mem_reach_iff isRoots (closed_nodes h bounded)).mpr ?_
  have registry : Reachability.Reachable ((ofPaths dbRefs data).refers h) roots .registry := .root (by simp [roots])
  have entry := registry.next (mem_refers_registry.mpr inside)
  refine entry.next ?_
  simp [refers, ofPaths, inside]

/-- No observer is ever lost. -/
theorem collect_ofPaths (h : Holders) (bounded : ∀ e ∈ data, e < dbRefs.length) :
    (ofPaths dbRefs data).collect h = ofPaths dbRefs data := by
  have none : (ofPaths dbRefs data).lost? h = none := by
    rw [lost?, List.find?_eq_none]
    intro o listed
    have inside : o < dbRefs.length := by simpa [ofPaths] using listed
    simp [observer_reachable h bounded inside]
  have kept : (ofPaths dbRefs data).release h = ofPaths dbRefs data := by rw [release, none]
  exact Function.iterate_fixed kept _

end Memory

/-- The memory holds the entries made for the records, whatever `data` has dropped. -/
structure Made (m : Memory) (dbRefs : List FrbUtils.Reference) : Prop where
  whole : m = .ofPaths dbRefs m.data
  bounded : ∀ e ∈ m.data, e < dbRefs.length
  distinct : m.data.Nodup

namespace Made

theorem empty : Made .empty [] := ⟨rfl, by simp [Memory.empty], List.nodup_nil⟩

variable {m : Memory} {dbRefs : List FrbUtils.Reference} (made : Made m dbRefs)
include made

theorem add (more : List FrbUtils.Reference) : Made (m.perform (.add more)) (dbRefs ++ more) ∧
    (m.perform (.add more)).data = m.data ++ List.range' dbRefs.length more.length := by
  rw [made.whole, Memory.add_ofPaths]
  refine ⟨⟨rfl, ?_, ?_⟩, rfl⟩
  · intro e member
    rw [List.length_append]
    rcases List.mem_append.mp member with old | new
    · exact Nat.lt_add_right _ (made.bounded e old)
    · exact (List.mem_range'_1.mp new).2
  · refine List.Nodup.append made.distinct List.nodup_range' ?_
    intro e old new
    exact absurd (made.bounded e old) (Nat.not_lt.mpr (List.mem_range'_1.mp new).1)

theorem remove (index : Nat) : Made (m.perform (.remove index)) dbRefs := by
  refine ⟨?_, ?_, made.distinct.eraseIdx index⟩
  · conv_lhs => rw [made.whole]
    rfl
  · intro e member
    exact made.bounded e (List.mem_of_mem_eraseIdx member)

theorem collect (h : Holders) : m.collect h = m := by
  rw [made.whole]
  exact Memory.collect_ofPaths h made.bounded

theorem length_entries : m.entries.length = dbRefs.length := by
  rw [made.whole]
  exact List.length_mapIdx

/-- Every entry made is registered: the silent ones are all in `data`. -/
theorem registered_iff : (∀ r ∈ m.registry.registrations, ∀ e, m.callback r = some e → e ∈ m.data) ↔
    ∀ e < dbRefs.length, e ∈ m.data := by
  rw [made.whole]
  constructor
  · intro registered e inside
    exact registered _ (Memory.mem_registrations.mpr ⟨e, inside, rfl⟩) e (Memory.callback_ofPaths inside)
  · intro all r member e called
    obtain ⟨d, inside, rfl⟩ := Memory.mem_registrations.mp member
    rw [Memory.callback_ofPaths inside] at called
    cases called
    exact all _ inside

/-- As long as nothing has been dropped, a change is heard by entries in `data` only. -/
theorem reached_in_data (all : ∀ e < dbRefs.length, e ∈ m.data) (select : FrbUtils.Reference → Nat → Bool) :
    ∀ e ∈ m.reached select, e ∈ m.data := by
  intro e heard
  obtain ⟨r, member, called⟩ := List.mem_filterMap.mp heard
  exact made.registered_iff.mpr all r member e (Option.filter_eq_some_iff.mp called).1

end Made

/-! ## Runs -/

namespace World
variable {S : Type u} {I : Type v} {k : Keeper S I} {w t : World S} {input : I}

/-- A removal drops nothing exactly when it finds no entry to remove. -/
theorem dropsNothing_iff {index : Option Nat} (removal : k.operation w.manager input = index.elim (.add []) .remove)
    (inside : ∀ i ∈ index, i < (k.shown w.manager).length) : w.DropsNothing k input ↔ index = none := by
  cases index with
  | none => exact iff_of_true (fun i removes => by rw [removal] at removes; cases removes) rfl
  | some i =>
    have found := inside i rfl
    constructor
    · intro drops
      have beyond := drops i removal
      omega
    · rintro ⟨⟩

theorem step_eq_some : w.step k input = some t ↔ ∃ heard, w.hears k input = some heard ∧
    ∃ manager, k.step w.manager input = some manager ∧
      t = ⟨manager, (w.memory.perform (k.operation w.manager input)).collect (k.holders manager),
        w.strays ++ heard.filter (fun e => e ∉ w.memory.data)⟩ := by
  simp only [step, Option.bind_eq_some_iff, Option.map_eq_some_iff]
  refine exists_congr fun heard => and_congr_right fun _ => exists_congr fun manager => and_congr_right fun _ => ?_
  exact eq_comm

variable {dbRefs : List FrbUtils.Reference}

/-- After a step the memory is as the operation leaves it: nothing was lost. -/
theorem memory_step (made : Made w.memory dbRefs) (stepped : w.step k input = some t) :
    k.step w.manager input = some t.manager ∧ t.memory = w.memory.perform (k.operation w.manager input) ∧
      ∃ after, Made t.memory (dbRefs ++ after) := by
  obtain ⟨heard, _, manager, ran, rfl⟩ := step_eq_some.mp stepped
  cases operation : k.operation w.manager input with
  | add more =>
    have added := (made.add more).1
    rw [added.collect]
    exact ⟨ran, rfl, more, added⟩
  | remove index =>
    have removed := made.remove index
    rw [removed.collect]
    exact ⟨ran, rfl, [], by rwa [List.append_nil]⟩

/-- The memory holds exactly the entries that the manager's state tells of, each registered. -/
structure Linked (k : Keeper S I) (w : World S) (dbRefs : List FrbUtils.Reference) : Prop where
  made : Made w.memory dbRefs
  shown : w.memory.data.map (fun e => dbRefs[e]?) = (k.shown w.manager).map some
  dropped : ∃ fallen, (w.memory.data ++ fallen).Perm (List.range dbRefs.length) ∧
    fallen.map (fun e => dbRefs[e]?) = (k.dropped w.manager).map some

theorem linked_start {manager : S} (nothing : k.shown manager = []) (never : k.dropped manager = []) :
    Linked k (start manager) [] := by
  refine ⟨.empty, ?_, [], .refl _, ?_⟩
  · rw [start, nothing]
    rfl
  · rw [start, never]
    rfl

/-- More entries do not change the records of the earlier ones. -/
theorem records_append {entries : List Nat} (bounded : ∀ e ∈ entries, e < dbRefs.length) (more : List FrbUtils.Reference) :
    entries.map (fun e => (dbRefs ++ more)[e]?) = entries.map (fun e => dbRefs[e]?) := by
  refine List.map_congr_left fun e member => ?_
  exact List.getElem?_append_left (bounded e member)

theorem records_new (more : List FrbUtils.Reference) :
    (List.range' dbRefs.length more.length).map (fun e => (dbRefs ++ more)[e]?) = more.map some := by
  refine List.ext_getElem? fun i => ?_
  by_cases inside : i < more.length
  · simp [inside]
  · simp [inside]

/-- What is erased and what stays. -/
theorem dropped_perm (entries : List Nat) (index : Nat) : (entries[index]?.toList ++ entries.eraseIdx index).Perm entries := by
  by_cases inside : index < entries.length
  · rw [List.getElem?_eq_getElem inside]
    exact List.getElem_cons_eraseIdx_perm inside
  · have beyond := Nat.not_lt.mp inside
    rw [List.getElem?_eq_none beyond, List.eraseIdx_of_length_le beyond]
    exact .refl _

theorem Linked.add {more : List FrbUtils.Reference} (linked : Linked k w dbRefs) (ran : k.step w.manager input = some t.manager)
    (operation : k.operation w.manager input = .add more) (performed : t.memory = w.memory.perform (.add more)) :
    Linked k t (dbRefs ++ more) := by
  obtain ⟨fallen, all, records⟩ := linked.dropped
  obtain ⟨made, data⟩ := linked.made.add more
  obtain ⟨shown, sameDropped⟩ := k.adds ran operation
  have fallenBounded : ∀ e ∈ fallen, e < dbRefs.length := by
    intro e member
    exact List.mem_range.mp (all.mem_iff.mp (List.mem_append_right _ member))
  refine ⟨performed ▸ made, ?_, fallen, ?_, ?_⟩
  · rw [performed, data, List.map_append, records_append linked.made.bounded, records_new, linked.shown, shown,
      List.map_append]
  · rw [performed, data, List.length_append, List.range_eq_range', ← List.range'_append_1, ← List.range_eq_range',
      Nat.zero_add, List.append_assoc]
    refine (List.perm_append_comm.append_left _).trans ?_
    rw [← List.append_assoc]
    exact all.append_right _
  · rw [records_append fallenBounded, records, sameDropped]

theorem Linked.remove {index : Nat} (linked : Linked k w dbRefs) (ran : k.step w.manager input = some t.manager)
    (operation : k.operation w.manager input = .remove index) (performed : t.memory = w.memory.perform (.remove index)) :
    Linked k t dbRefs := by
  obtain ⟨fallen, all, records⟩ := linked.dropped
  obtain ⟨shown, dropped⟩ := k.removes ran operation
  refine ⟨?_, ?_, fallen ++ w.memory.data[index]?.toList, ?_, ?_⟩
  · rw [performed]
    exact linked.made.remove index
  · rw [performed, shown]
    rw [Memory.perform, ← List.eraseIdx_map, linked.shown, List.eraseIdx_map]
  · rw [performed]
    refine List.Perm.trans ?_ all
    rw [← List.append_assoc]
    refine List.perm_append_comm.trans ?_
    rw [← List.append_assoc]
    exact (dropped_perm _ index).append_right fallen
  · have same : (w.memory.data[index]?).map (fun e => dbRefs[e]?) = (k.shown w.manager)[index]?.map some := by
      rw [← List.getElem?_map, ← List.getElem?_map, linked.shown]
    rw [dropped, List.map_append, List.map_append, records, ← Option.toList_map, same, Option.toList_map]

theorem Linked.step (linked : Linked k w dbRefs) (stepped : w.step k input = some t) :
    ∃ after, Linked k t (dbRefs ++ after) := by
  obtain ⟨ran, performed, _⟩ := memory_step linked.made stepped
  cases operation : k.operation w.manager input with
  | add more =>
    rw [operation] at performed
    exact ⟨more, linked.add ran operation performed⟩
  | remove index =>
    rw [operation] at performed
    refine ⟨[], ?_⟩
    rw [List.append_nil]
    exact linked.remove ran operation performed

/-- In every reached state the registrations are those of the entries shown and dropped. -/
theorem Linked.registrations (linked : Linked k w dbRefs) :
    (w.memory.registry.registrations.map Registration.path).Perm (k.shown w.manager ++ k.dropped w.manager) := by
  obtain ⟨fallen, all, records⟩ := linked.dropped
  have paths : w.memory.registry.registrations.map Registration.path = dbRefs := by
    rw [linked.made.whole]
    exact List.ext_getElem? fun i => by simp [Memory.ofPaths, Function.comp_def]
  have whole : (List.range dbRefs.length).map (fun e => dbRefs[e]?) = dbRefs.map some := by
    refine List.ext_getElem? fun i => ?_
    by_cases inside : i < dbRefs.length
    · simp [inside]
    · simp [inside]
  have someRecords := all.map (fun e => dbRefs[e]?)
  rw [List.map_append, linked.shown, records, ← List.map_append, whole] at someRecords
  rw [paths]
  exact ((List.map_perm_map_iff (Option.some_injective _)).mp someRecords).symm

/-- An event at a record is heard once for each entry made for the record, shown or dropped. -/
theorem Linked.length_reached (linked : Linked k w dbRefs) (dbRef : FrbUtils.Reference) :
    (w.memory.reached (fun path _ => path = dbRef)).length = (k.shown w.manager ++ k.dropped w.manager).count dbRef := by
  have called : ∀ r ∈ w.memory.registry.registrations,
      ((w.memory.callback r).filter (fun _ => decide (r.path = dbRef))).isSome = decide (r.path = dbRef) := by
    rw [linked.made.whole]
    intro r member
    obtain ⟨e, inside, rfl⟩ := Memory.mem_registrations.mp member
    rw [Memory.callback_ofPaths inside]
    by_cases here : dbRefs[e] = dbRef <;> simp [here]
  rw [Memory.reached, List.length_filterMap_eq_countP, List.countP_congr (fun r member => by rw [called r member]),
    ← linked.registrations.count_eq, List.count, List.countP_map]
  exact List.countP_congr fun r _ => by simp

/-- All entries made are in `data` exactly when the manager has dropped none. -/
theorem Linked.all_iff (linked : Linked k w dbRefs) : (∀ e < dbRefs.length, e ∈ w.memory.data) ↔ k.dropped w.manager = [] := by
  obtain ⟨fallen, all, records⟩ := linked.dropped
  have same : k.dropped w.manager = [] ↔ fallen = [] := by
    rw [← @List.map_eq_nil_iff _ _ some, ← records, List.map_eq_nil_iff]
  have distinct : (w.memory.data ++ fallen).Nodup := all.nodup_iff.mpr List.nodup_range
  rw [same]
  constructor
  · intro listed
    refine List.eq_nil_iff_forall_not_mem.mpr fun e gone => ?_
    have made := List.mem_range.mp (all.mem_iff.mp (List.mem_append_right _ gone))
    exact (List.nodup_append.mp distinct).2.2 e (listed e made) e gone rfl
  · rintro rfl e inside
    rw [List.append_nil] at all
    exact all.mem_iff.mpr (List.mem_range.mpr inside)

/-- So it is in every state reached. -/
theorem linked_of_run {manager : S} (nothing : k.shown manager = []) (never : k.dropped manager = []) {inputs : List I}
    (run : Runs.exec (step k) (start manager) inputs = some w) : ∃ dbRefs, Linked k w dbRefs := by
  refine Runs.exec_invariant (I := fun w => ∃ dbRefs, Linked k w dbRefs) ?_ ⟨[], linked_start nothing never⟩ run
  rintro w input t ⟨dbRefs, linked⟩ stepped
  obtain ⟨after, still⟩ := linked.step stepped
  exact ⟨_, still⟩

/-! ## As long as nothing has been dropped -/

/-- The manager has dropped no entry, and so none has heard a change that is not in `data`. -/
structure Held (k : Keeper S I) (w : World S) : Prop where
  linked : ∃ dbRefs, Linked k w dbRefs
  none : k.dropped w.manager = []
  unheard : w.strays = []

theorem held_start {manager : S} (nothing : k.shown manager = []) (never : k.dropped manager = []) : Held k (start manager) :=
  ⟨⟨[], linked_start nothing never⟩, never, rfl⟩

theorem Held.silent (held : Held k w) : w.Silent := by
  obtain ⟨_, linked⟩ := held.linked
  exact ⟨linked.made.registered_iff.mpr (linked.all_iff.mpr held.none), held.unheard⟩

theorem Held.strays (held : Held k w) (stepped : w.step k input = some t) : t.strays = [] := by
  obtain ⟨_, linked⟩ := held.linked
  obtain ⟨heard, delivered, manager, _, rfl⟩ := step_eq_some.mp stepped
  have listed : ∀ e ∈ heard, e ∈ w.memory.data := by
    unfold hears at delivered
    split at delivered
    · obtain ⟨_, rfl⟩ := Option.ite_none_left_eq_some.mp delivered |>.imp_right Option.some.inj
      exact linked.made.reached_in_data (linked.all_iff.mpr held.none) _
    · cases delivered
      simp
  simpa [held.unheard] using listed

theorem Held.step (held : Held k w) (drops : w.DropsNothing k input) (stepped : w.step k input = some t) : Held k t := by
  obtain ⟨dbRefs, linked⟩ := held.linked
  obtain ⟨after, still⟩ := linked.step stepped
  refine ⟨⟨_, still⟩, ?_, held.strays stepped⟩
  obtain ⟨ran, _, _⟩ := memory_step linked.made stepped
  cases operation : k.operation w.manager input with
  | add more => exact (k.adds ran operation).2.trans held.none
  | remove index =>
    rw [(k.removes ran operation).2, held.none, List.getElem?_eq_none (drops index operation)]
    rfl

/-- A dropped entry is still registered. -/
theorem Held.not_silent (held : Held k w) (drops : ¬ w.DropsNothing k input) (stepped : w.step k input = some t) :
    ¬ t.Silent := by
  simp only [DropsNothing, not_forall, Nat.not_le] at drops
  obtain ⟨index, operation, inside⟩ := drops
  obtain ⟨dbRefs, linked⟩ := held.linked
  obtain ⟨after, still⟩ := linked.step stepped
  obtain ⟨ran, _, _⟩ := memory_step linked.made stepped
  intro silent
  have none := still.all_iff.mp (still.made.registered_iff.mp silent.registered)
  rw [(k.removes ran operation).2, held.none, List.getElem?_eq_getElem inside] at none
  cases none

/-- In every run the registrations are those of entries in `data`, and no other entry hears
    a change, exactly when no entry is ever taken out of `data`. -/
theorem silent_iff {manager : S} (nothing : k.shown manager = []) (never : k.dropped manager = [])
    {cond : World S → I → Prop} (same : ∀ w input, cond w input ↔ w.DropsNothing k input) (inputs : List I) :
    Runs.Always (step k) Silent (start manager) inputs ↔ Runs.Along (step k) cond (start manager) inputs := by
  refine Runs.always_iff_along (I := Held k) (fun _ held => held.silent) ?_ ?_ (held_start nothing never) inputs
  · exact fun w input t held drops stepped => held.step ((same w input).mp drops) stepped
  · exact fun w input t held drops stepped => held.not_silent (fun keeps => drops ((same w input).mpr keeps)) stepped

end World

end SharedList.Retention
