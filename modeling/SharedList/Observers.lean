import Mathlib.Logic.Function.Basic
import SharedList.References
import SharedList.Runs

/-!
The registrations that observer objects make with Firebase. The registry is one
for the whole app and goes by database path: `removeObserver` takes one handle
away, `removeAllObservers` everything at the path, whoever registered it, and a
one-shot read is a registration until it is answered. `ObserversHandler` and
`ChangedObserver` use the second where they mean their own.
-/
namespace SharedList.Observers

inductive DataEventType where
  | childAdded | childRemoved | childChanged | childMoved | value
deriving DecidableEq

/-- Who made a registration: an observer object, or a caller of `observeSingleEvent`. -/
inductive Owner where
  | object (id : Nat)
  | read
deriving DecidableEq

structure Registration where
  path : FrbUtils.Reference
  handle : Nat
  type : DataEventType
  owner : Owner
deriving DecidableEq

/-! ## The registry -/

structure Registry where
  registrations : List Registration
  nextHandle : Nat
deriving DecidableEq

namespace Registry

def observe (registry : Registry) (dbRef : FrbUtils.Reference) (type : DataEventType) (owner : Owner) : Registry :=
  ⟨registry.registrations ++ [⟨dbRef, registry.nextHandle, type, owner⟩], registry.nextHandle + 1⟩

def removeObserver (registry : Registry) (dbRef : FrbUtils.Reference) (handle : Nat) : Registry :=
  { registry with registrations := registry.registrations.filter (fun r => ¬ (r.path = dbRef ∧ r.handle = handle)) }

def removeAllObservers (registry : Registry) (dbRef : FrbUtils.Reference) : Registry :=
  { registry with registrations := registry.registrations.filter (fun r => r.path ≠ dbRef) }

end Registry

/-! ## The observer objects -/

/-- `class ObserversHandler`. -/
structure ObserversHandler where
  dbRef : FrbUtils.Reference
  foo : List (DataEventType × Nat)
deriving DecidableEq

namespace ObserversHandler

def findHandler (self : ObserversHandler) (eventType : DataEventType) : Option (DataEventType × Nat) :=
  self.foo.find? (fun entry => entry.1 = eventType)

def addObserver (self : ObserversHandler) (id : Nat) (eventType : DataEventType) (registry : Registry) :
    ObserversHandler × Registry :=
  match self.findHandler eventType with
  | some _ => (self, registry)
  | none => ({ self with foo := self.foo ++ [(eventType, registry.nextHandle)] },
      registry.observe self.dbRef eventType (.object id))

def removeObserver (self : ObserversHandler) (eventType : DataEventType) (registry : Registry) : Registry :=
  match self.findHandler eventType with
  | some handler => registry.removeObserver self.dbRef handler.2
  | none => registry

def removeAllObservers (self : ObserversHandler) (registry : Registry) : Registry :=
  registry.removeAllObservers self.dbRef

end ObserversHandler

/-- `class ChangedObserver`. -/
structure ChangedObserver where
  dbRef : FrbUtils.Reference
  active : Bool
deriving DecidableEq

namespace ChangedObserver

def activate (self : ChangedObserver) (id : Nat) (registry : Registry) : ChangedObserver × Registry :=
  if self.active = false then
    ({ self with active := true }, registry.observe self.dbRef .childChanged (.object id))
  else (self, registry)

def deactivate (self : ChangedObserver) (registry : Registry) : ChangedObserver × Registry :=
  if self.active then ({ self with active := false }, registry.removeAllObservers self.dbRef) else (self, registry)

end ChangedObserver

inductive Object where
  | observersHandler (self : ObserversHandler)
  | changedObserver (self : ChangedObserver)
deriving DecidableEq

inductive Operation where
  | addObserver (eventType : DataEventType)
  | removeObserver (eventType : DataEventType)
  | removeAllObservers
  | activate
  | deactivate
  | deinit
deriving DecidableEq

/-- A call on an object; `none` where its class has no such operation. -/
def Object.call (id : Nat) (registry : Registry) : Object → Operation → Option (Object × Registry)
  | .observersHandler self, .addObserver eventType =>
    let (after, registered) := self.addObserver id eventType registry
    some (.observersHandler after, registered)
  | .observersHandler self, .removeObserver eventType =>
    some (.observersHandler self, self.removeObserver eventType registry)
  | .observersHandler self, .removeAllObservers | .observersHandler self, .deinit =>
    some (.observersHandler self, self.removeAllObservers registry)
  | .changedObserver self, .activate =>
    let (after, registered) := self.activate id registry
    some (.changedObserver after, registered)
  | .changedObserver self, .deactivate | .changedObserver self, .deinit =>
    let (after, removed) := self.deactivate registry
    some (.changedObserver after, removed)
  | _, _ => none

/-- The path of the `removeAllObservers` that a call makes. -/
def Object.clears : Object → Operation → Option FrbUtils.Reference
  | .observersHandler self, .removeAllObservers | .observersHandler self, .deinit => some self.dbRef
  | .changedObserver self, .deactivate | .changedObserver self, .deinit => if self.active then some self.dbRef else none
  | _, _ => none

/-! ## Runs -/

structure State where
  registry : Registry
  objects : Nat → Option Object
  nextId : Nat
  /-- The registrations that objects have made and not ended themselves. -/
  made : List Registration

inductive Action where
  | newObserversHandler (dbRef : FrbUtils.Reference)
  | newChangedObserver (dbRef : FrbUtils.Reference)
  | call (id : Nat) (operation : Operation)
  | observeSingleEvent (dbRef : FrbUtils.Reference)
  /-- A one-shot read gets its answer. -/
  | answered (read : Registration)

/-- What an object ends by its own operation: of its registrations the one of the
    event type, or all. -/
def Ends (id : Nat) (operation : Operation) (r : Registration) : Prop :=
  r.owner = .object id ∧
    match operation with
    | .removeObserver eventType => r.type = eventType
    | .removeAllObservers | .deactivate | .deinit => True
    | .addObserver _ | .activate => False

instance (id : Nat) (operation : Operation) (r : Registration) : Decidable (Ends id operation r) := by
  cases operation <;> exact inferInstanceAs (Decidable (_ ∧ _))

namespace State

def start : State := ⟨⟨[], 0⟩, fun _ => none, 0, []⟩

def create (s : State) (object : Object) : State :=
  { s with objects := Function.update s.objects s.nextId (some object), nextId := s.nextId + 1 }

def afterCall (s : State) (id : Nat) (operation : Operation) (object : Object) (registry : Registry) : State where
  registry := registry
  objects := Function.update s.objects id (if operation = .deinit then none else some object)
  nextId := s.nextId
  made := s.made.filter (fun r => ¬ Ends id operation r) ++
    registry.registrations.filter (fun r => s.registry.nextHandle ≤ r.handle)

end State

def step (s : State) : Action → Option State
  | .newObserversHandler dbRef => some (s.create (.observersHandler ⟨dbRef, []⟩))
  | .newChangedObserver dbRef => some (s.create (.changedObserver ⟨dbRef, false⟩))
  | .call id operation => do
    let object ← s.objects id
    let (after, registry) ← object.call id s.registry operation
    return s.afterCall id operation after registry
  | .observeSingleEvent dbRef => some { s with registry := s.registry.observe dbRef .value .read }
  | .answered read =>
    if read ∈ s.registry.registrations ∧ read.owner = .read then
      some { s with registry := { s.registry with registrations := s.registry.registrations.erase read } }
    else none

/-- Every registration that an object has made and not ended itself is in place. -/
def Undisturbed (s : State) : Prop := ∀ r ∈ s.made, r ∈ s.registry.registrations

/-- An object removes everything at its path only when no other object has a registration there. -/
def Alone (s : State) : Action → Prop
  | .call id operation => ∀ object, s.objects id = some object → ∀ path, object.clears operation = some path →
      ∀ r ∈ s.made, r.path = path → r.owner = .object id
  | _ => True

/-! ## What a call does -/

/-- The handles that an object keeps. -/
def Object.foo : Object → List (DataEventType × Nat)
  | .observersHandler self => self.foo
  | .changedObserver _ => []

/-- A call registers one observer, ends one of the object's own by its handle,
    removes everything at a path, or does nothing. -/
theorem call_cases {id : Nat} {registry after : Registry} {object changed : Object} {operation : Operation}
    (called : object.call id registry operation = some (changed, after)) :
    (after = registry ∧ changed.foo = object.foo ∧ object.clears operation = none) ∨
    (∃ dbRef type, after = registry.observe dbRef type (.object id) ∧ object.clears operation = none ∧
      ∀ entry ∈ changed.foo, entry ∈ object.foo ∨ entry = (type, registry.nextHandle)) ∨
    (∃ dbRef entry, operation = .removeObserver entry.1 ∧ entry ∈ object.foo ∧
      after = registry.removeObserver dbRef entry.2 ∧ changed.foo = object.foo ∧ object.clears operation = none) ∨
    (∃ path, object.clears operation = some path ∧ after = registry.removeAllObservers path ∧
      changed.foo = object.foo ∧ ∀ r : Registration, r.owner = .object id → Ends id operation r) := by
  cases object with
  | observersHandler self =>
    cases operation with
    | addObserver eventType =>
      simp only [Object.call, ObserversHandler.addObserver, Option.some.injEq, Prod.mk.injEq] at called
      cases found : self.findHandler eventType with
      | some entry =>
        simp only [found] at called
        obtain ⟨rfl, rfl⟩ := called
        exact .inl ⟨rfl, rfl, rfl⟩
      | none =>
        simp only [found] at called
        obtain ⟨rfl, rfl⟩ := called
        refine .inr (.inl ⟨self.dbRef, eventType, rfl, rfl, ?_⟩)
        intro entry member
        simpa [Object.foo] using member
    | removeObserver eventType =>
      simp only [Object.call, ObserversHandler.removeObserver, Option.some.injEq, Prod.mk.injEq] at called
      obtain ⟨rfl, rfl⟩ := called
      cases found : self.findHandler eventType with
      | some entry =>
        have sameType : entry.1 = eventType := by simpa using List.find?_some found
        subst sameType
        exact .inr (.inr (.inl ⟨self.dbRef, entry, rfl, List.mem_of_find?_eq_some found, rfl, rfl, rfl⟩))
      | none => exact .inl ⟨rfl, rfl, rfl⟩
    | removeAllObservers | deinit =>
      cases called
      exact .inr (.inr (.inr ⟨self.dbRef, rfl, rfl, rfl, fun r own => ⟨own, trivial⟩⟩))
    | activate | deactivate => cases called
  | changedObserver self =>
    cases operation with
    | activate =>
      simp only [Object.call, ChangedObserver.activate, Option.some.injEq, Prod.mk.injEq] at called
      by_cases inactive : self.active = false
      · simp only [if_pos inactive] at called
        obtain ⟨rfl, rfl⟩ := called
        exact .inr (.inl ⟨self.dbRef, .childChanged, rfl, rfl, fun entry member => .inl member⟩)
      · simp only [if_neg inactive] at called
        obtain ⟨rfl, rfl⟩ := called
        exact .inl ⟨rfl, rfl, rfl⟩
    | deactivate | deinit =>
      simp only [Object.call, ChangedObserver.deactivate, Option.some.injEq, Prod.mk.injEq] at called
      by_cases active : self.active
      · simp only [if_pos active] at called
        obtain ⟨rfl, rfl⟩ := called
        exact .inr (.inr (.inr ⟨self.dbRef, by simp [Object.clears, active], rfl, rfl, fun r own => ⟨own, trivial⟩⟩))
      · simp only [if_neg active] at called
        obtain ⟨rfl, rfl⟩ := called
        exact .inl ⟨rfl, rfl, by simp [Object.clears, active]⟩
    | addObserver | removeObserver | removeAllObservers => cases called

/-! ## Runs in which no object removes what another has registered -/

/-- What holds in every state of such a run. The handle that an object keeps for an
    event type is of its own registration for that type. -/
structure Kept (s : State) : Prop where
  undisturbed : Undisturbed s
  owned : ∀ r ∈ s.made, r.owner ≠ .read
  handles : ∀ r ∈ s.registry.registrations, r.handle < s.registry.nextHandle
  foo : ∀ id object, s.objects id = some object → ∀ entry ∈ object.foo, entry.2 < s.registry.nextHandle ∧
    ∀ r ∈ s.registry.registrations, r.handle = entry.2 → r.owner = .object id ∧ r.type = entry.1

theorem step_call {s t : State} {id : Nat} {operation : Operation} (stepped : step s (.call id operation) = some t) :
    ∃ object changed registry, s.objects id = some object ∧
      object.call id s.registry operation = some (changed, registry) ∧ t = s.afterCall id operation changed registry := by
  simp only [step, Option.bind_eq_bind, Option.pure_def, Option.bind_eq_some_iff, Option.some.injEq, Prod.exists] at stepped
  obtain ⟨object, here, changed, registry, called, rfl⟩ := stepped
  exact ⟨object, changed, registry, here, called, rfl⟩

theorem start_kept : Kept State.start where
  undisturbed := by simp [Undisturbed, State.start]
  owned := by simp [State.start]
  handles := by simp [State.start]
  foo := by simp [State.start]

theorem Kept.create {s : State} (kept : Kept s) {object : Object} (fresh : object.foo = []) : Kept (s.create object) := by
  refine ⟨kept.undisturbed, kept.owned, kept.handles, ?_⟩
  intro id other here
  by_cases new : id = s.nextId
  · subst new
    obtain rfl : object = other := by simpa [State.create] using here
    simp [fresh]
  · exact kept.foo id other (by simpa [State.create, new] using here)

/-- A registration with a new handle does not touch the handles that objects keep. -/
theorem Kept.foo_observe {s : State} (kept : Kept s) (dbRef : FrbUtils.Reference) (type : DataEventType) (owner : Owner)
    {id : Nat} {object : Object} (here : s.objects id = some object) {entry : DataEventType × Nat}
    (member : entry ∈ object.foo) : entry.2 < (s.registry.observe dbRef type owner).nextHandle ∧
      ∀ r ∈ (s.registry.observe dbRef type owner).registrations, r.handle = entry.2 →
        r.owner = .object id ∧ r.type = entry.1 := by
  obtain ⟨old, own⟩ := kept.foo id object here entry member
  refine ⟨Nat.lt_succ_of_lt old, ?_⟩
  intro r registered sameHandle
  rcases List.mem_append.mp registered with earlier | new
  · exact own r earlier sameHandle
  · obtain rfl := List.mem_singleton.mp new
    simp only at sameHandle
    omega

theorem Kept.handles_observe {s : State} (kept : Kept s) (dbRef : FrbUtils.Reference) (type : DataEventType) (owner : Owner) :
    ∀ r ∈ (s.registry.observe dbRef type owner).registrations,
      r.handle < (s.registry.observe dbRef type owner).nextHandle := by
  intro r registered
  rcases List.mem_append.mp registered with earlier | new
  · exact Nat.lt_succ_of_lt (kept.handles r earlier)
  · obtain rfl := List.mem_singleton.mp new
    exact Nat.lt_succ_self _

/-- Fewer registrations keep everything but the registrations that are to stay. -/
theorem Kept.fewer {s : State} (kept : Kept s) {id : Nat} {operation : Operation} {object changed : Object}
    {registry : Registry} (here : s.objects id = some object) (sameFoo : changed.foo = object.foo)
    (sameNext : registry.nextHandle = s.registry.nextHandle)
    (fewer : ∀ r ∈ registry.registrations, r ∈ s.registry.registrations)
    (stays : ∀ r ∈ s.made, ¬ Ends id operation r → r ∈ registry.registrations) :
    Kept (s.afterCall id operation changed registry) := by
  refine ⟨?_, ?_, ?_, ?_⟩
  · intro r member
    rcases List.mem_append.mp member with old | new
    · obtain ⟨made, lasts⟩ := List.mem_filter.mp old
      exact stays r made (of_decide_eq_true lasts)
    · exact (List.mem_filter.mp new).1
  · intro r member
    rcases List.mem_append.mp member with old | new
    · exact kept.owned r (List.mem_filter.mp old).1
    · obtain ⟨registered, late⟩ := List.mem_filter.mp new
      have early := kept.handles r (fewer r registered)
      have late := of_decide_eq_true late
      omega
  · intro r registered
    exact sameNext ▸ kept.handles r (fewer r registered)
  · intro other otherObject there entry member
    have before : ∃ earlier, s.objects other = some earlier ∧ entry ∈ earlier.foo := by
      by_cases same : other = id
      · subst same
        simp only [State.afterCall, Function.update_self, Option.ite_none_left_eq_some, Option.some.injEq] at there
        exact ⟨object, here, by rw [← sameFoo, there.2]; exact member⟩
      · exact ⟨otherObject, by simpa [State.afterCall, same] using there, member⟩
    obtain ⟨earlier, thereBefore, member⟩ := before
    obtain ⟨old, own⟩ := kept.foo other earlier thereBefore entry member
    exact ⟨sameNext ▸ old, fun r registered sameHandle => own r (fewer r registered) sameHandle⟩

/-- A call that registers an observer. -/
theorem Kept.observed {s : State} (kept : Kept s) {id : Nat} {operation : Operation} {object changed : Object}
    (here : s.objects id = some object) (dbRef : FrbUtils.Reference) (type : DataEventType)
    (sameFoo : ∀ entry ∈ changed.foo, entry ∈ object.foo ∨ entry = (type, s.registry.nextHandle)) :
    Kept (s.afterCall id operation changed (s.registry.observe dbRef type (.object id))) := by
  refine ⟨?_, ?_, kept.handles_observe dbRef type _, ?_⟩
  · intro r member
    rcases List.mem_append.mp member with old | new
    · exact List.mem_append_left _ (kept.undisturbed r (List.mem_filter.mp old).1)
    · exact (List.mem_filter.mp new).1
  · intro r member
    rcases List.mem_append.mp member with old | new
    · exact kept.owned r (List.mem_filter.mp old).1
    · obtain ⟨registered, late⟩ := List.mem_filter.mp new
      rcases List.mem_append.mp registered with earlier | last
      · have early := kept.handles r earlier
        have late := of_decide_eq_true late
        omega
      · obtain rfl := List.mem_singleton.mp last
        simp
  · intro other otherObject there entry member
    by_cases same : other = id
    · subst same
      simp only [State.afterCall, Function.update_self, Option.ite_none_left_eq_some, Option.some.injEq] at there
      obtain ⟨_, rfl⟩ := there
      rcases sameFoo entry member with old | rfl
      · exact kept.foo_observe dbRef type _ here old
      · refine ⟨Nat.lt_succ_self _, ?_⟩
        intro r registered sameHandle
        rcases List.mem_append.mp registered with earlier | last
        · have early := kept.handles r earlier
          simp only at sameHandle
          omega
        · obtain rfl := List.mem_singleton.mp last
          exact ⟨rfl, rfl⟩
    · have thereBefore : s.objects other = some otherObject := by simpa [State.afterCall, same] using there
      exact kept.foo_observe dbRef type _ thereBefore member

theorem Kept.step {s t : State} {action : Action} (kept : Kept s) (alone : Alone s action)
    (stepped : Observers.step s action = some t) : Kept t := by
  cases action with
  | newObserversHandler dbRef | newChangedObserver dbRef =>
    cases stepped
    exact kept.create rfl
  | observeSingleEvent dbRef =>
    cases stepped
    exact ⟨fun r member => List.mem_append_left _ (kept.undisturbed r member), kept.owned,
      kept.handles_observe dbRef .value .read, fun id object here entry member =>
        kept.foo_observe dbRef .value .read here member⟩
  | answered read =>
    simp only [Observers.step, Option.ite_none_right_eq_some, Option.some.injEq] at stepped
    obtain ⟨⟨_, byRead⟩, rfl⟩ := stepped
    refine ⟨?_, kept.owned, fun r member => kept.handles r (List.mem_of_mem_erase member), ?_⟩
    · intro r member
      have other : r ≠ read := by
        rintro rfl
        exact kept.owned r member byRead
      exact (List.mem_erase_of_ne other).mpr (kept.undisturbed r member)
    · intro id object here entry member
      obtain ⟨old, own⟩ := kept.foo id object here entry member
      exact ⟨old, fun r registered => own r (List.mem_of_mem_erase registered)⟩
  | call id operation =>
    obtain ⟨object, changed, registry, here, called, rfl⟩ := step_call stepped
    rcases call_cases called with ⟨rfl, sameFoo, _⟩ | ⟨dbRef, type, rfl, _, sameFoo⟩ |
        ⟨dbRef, entry, rfl, member, rfl, sameFoo, _⟩ | ⟨path, clears, rfl, sameFoo, endsOwn⟩
    · exact kept.fewer here sameFoo rfl (fun _ registered => registered) (fun r made _ => kept.undisturbed r made)
    · exact kept.observed here dbRef type sameFoo
    · refine kept.fewer here sameFoo rfl (fun _ registered => (List.mem_filter.mp registered).1) ?_
      -- The handle that goes is of the object's own registration for the event type.
      intro r made lasts
      refine List.mem_filter.mpr ⟨kept.undisturbed r made, decide_eq_true ?_⟩
      rintro ⟨_, sameHandle⟩
      obtain ⟨own, sameType⟩ := (kept.foo id object here entry member).2 r (kept.undisturbed r made) sameHandle
      exact lasts ⟨own, sameType⟩
    · refine kept.fewer here sameFoo rfl (fun _ registered => (List.mem_filter.mp registered).1) ?_
      intro r made lasts
      refine List.mem_filter.mpr ⟨kept.undisturbed r made, decide_eq_true ?_⟩
      intro samePath
      exact lasts (endsOwn r (alone object here path clears r made samePath))

/-- An object that removes everything at its path takes the registration of another with it. -/
theorem disturbed {s t : State} {action : Action} (outside : ¬ Alone s action) (stepped : step s action = some t) :
    ¬ Undisturbed t := by
  cases action with
  | call id operation =>
    simp only [Alone, not_forall] at outside
    obtain ⟨object, here, path, clears, r, made, samePath, others⟩ := outside
    obtain ⟨found, changed, registry, foundHere, called, rfl⟩ := step_call stepped
    obtain rfl : object = found := Option.some.inj (here.symm.trans foundHere)
    intro undisturbed
    have lasts : r ∈ (s.afterCall id operation changed registry).made :=
      List.mem_append_left _ (List.mem_filter.mpr ⟨made, decide_eq_true fun ends => others ends.1⟩)
    have registered := undisturbed r lasts
    rcases call_cases called with ⟨_, _, none⟩ | ⟨_, _, _, none, _⟩ | ⟨_, _, _, _, _, _, none⟩ | ⟨cleared, some, rfl, _, _⟩
    · rw [clears] at none; cases none
    · rw [clears] at none; cases none
    · rw [clears] at none; cases none
    · obtain rfl : path = cleared := Option.some.inj (clears.symm.trans some)
      exact of_decide_eq_true (List.mem_filter.mp registered).2 samePath
  | _ => exact absurd trivial outside

/-- Whatever is created, called, read and released in whatever order, the
    registrations of every object stay in place until it ends them itself exactly when no
    object removes everything at a path where another has a registration. -/
theorem undisturbed_iff (actions : List Action) :
    Runs.Always step Undisturbed State.start actions ↔ Runs.Along step Alone State.start actions :=
  Runs.always_iff_along (fun _ kept => kept.undisturbed) (fun _ _ _ kept alone stepped => kept.step alone stepped)
    (fun _ _ _ _ outside stepped => disturbed outside stepped) start_kept actions

/-- The handlers of two managers for one list: the first never registers anything
    and is released after the second has registered its observers. -/
def releasedLaterRun : List Action :=
  open FrbUtils in
  let itemsRef := child (itemsDbRef Sample.groceryItems.val) Keys.items.val
  [.newObserversHandler itemsRef, .newObserversHandler itemsRef, .call 1 (.addObserver .childAdded),
   .call 1 (.addObserver .childRemoved), .call 0 .deinit]

theorem released_handler_disturbs : ¬ ∀ actions, Runs.Always step Undisturbed State.start actions := by
  intro claim
  have passed : (Runs.exec step State.start releasedLaterRun).any
      (fun s => decide (s.made.length = 2 ∧ s.registry.registrations = [])) = true := by decide +kernel
  obtain ⟨s, undisturbed, lost⟩ := (claim releasedLaterRun).of_any passed
  obtain ⟨two, none⟩ := of_decide_eq_true lost
  obtain ⟨r, member⟩ := List.exists_mem_of_length_pos (show 0 < s.made.length by omega)
  have registered := undisturbed r member
  rw [none] at registered
  cases registered

end SharedList.Observers
