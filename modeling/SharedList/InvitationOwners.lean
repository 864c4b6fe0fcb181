import SharedList.InvitationManager
import SharedList.Runs

/-!
`InvitationManager` while users log in and out. It forgets its invitations and
its observers when `LogOut` says so, but an answer or an event that has been
raised by then is still handled, and a log-in of another user clears nothing.
-/
namespace SharedList.InvitationManager

/-- A call of one of the manager's blocks, with the user at whose node it was registered. -/
inductive Event where
  | loadAnswered (userId : Key) (invitationsSnapshot : Snapshot) (listIds : List Key)
  | childAdded (userId listId : Key) (invitationSnapshot : Snapshot)
  | childRemoved (userId listId : Key)
deriving DecidableEq

def Event.handle (manager : State) : Event → Option State
  | .loadAnswered _ invitationsSnapshot listIds => manager.loadAnswered invitationsSnapshot listIds
  | .childAdded _ listId invitationSnapshot => manager.invitationsChildAdded listId invitationSnapshot
  | .childRemoved _ listId => some (manager.invitationsChildRemoved listId)

structure Session where
  manager : State
  /-- For each invitation held, in order, the user under whom it was read. -/
  sources : List Key
  /-- `Auth.auth().currentUser`. -/
  signedIn : Option Key
  /-- The users at whose invitations the two observers are registered. -/
  registered : List Key
  /-- The reads of `LoadData` not yet answered. -/
  reads : List Key
  /-- Answers and events on their way to the main thread. -/
  raised : List Event

namespace Session

inductive Action where
  | logIn (userId : Key)
  /-- `LogOut`, where `signOut` may throw. -/
  | logOut (throws : Bool)
  | loadData
  | activateObservers
  | raise (event : Event)
  | deliver (event : Event)

def new : Session := ⟨State.new, [], none, [], [], []⟩

/-- The user under whom each invitation was read, after an event. -/
def sourcesAfter (s : Session) (manager : State) : Event → List Key
  | .loadAnswered userId _ _ | .childAdded userId _ _ =>
    s.sources ++ List.replicate (manager.invitations.length - s.manager.invitations.length) userId
  | .childRemoved _ listId =>
    match s.manager.invitations.findIdx? (fun invitation => invitation.list_id = listId) with
    | some index => s.sources.eraseIdx index
    | none => s.sources

def step (s : Session) : Action → Option Session
  | .logIn userId => some { s with signedIn := some userId }
  | .logOut throws =>
    -- The handler's `deinit` removes all that is registered at its node.
    some { s with manager := s.manager.cleanup, sources := [], signedIn := if throws then s.signedIn else none,
                  registered := s.registered.filter (fun userId => some userId ≠ s.manager.observersHandler),
                  reads := s.reads.filter (fun userId => some userId ≠ s.manager.observersHandler) }
  | .loadData => s.signedIn.map (fun userId => { s with reads := s.reads ++ [userId] })
  | .activateObservers =>
    (s.manager.activateObservers s.signedIn).map fun manager =>
      { s with manager := manager, registered := match s.manager.observersHandler with
                                                 | some _ => s.registered
                                                 | none => s.registered ++ s.signedIn.toList }
  | .raise event =>
    match event with
    | .loadAnswered userId _ _ =>
      if userId ∈ s.reads then some { s with reads := s.reads.erase userId, raised := s.raised ++ [event] } else none
    | .childAdded userId _ _ | .childRemoved userId _ =>
      if userId ∈ s.registered then some { s with raised := s.raised ++ [event] } else none
  | .deliver event =>
    if event ∈ s.raised then
      (event.handle s.manager).map fun manager =>
        { s with manager := manager, sources := s.sourcesAfter manager event, raised := s.raised.erase event }
    else none

/-- Every invitation held was read under the user signed in; there is none when nobody is. -/
structure OwnOnly (s : Session) : Prop where
  length : s.sources.length = s.manager.invitations.length
  own : ∀ userId ∈ s.sources, s.signedIn = some userId

/-- An answer or an event is of the user signed in, unless it brings nothing, and
    nobody logs in over the invitations of another. -/
def InTime (s : Session) : Action → Prop
  | .deliver (.loadAnswered userId invitationsSnapshot listIds) => s.signedIn = some userId ∨
      dictionary? invitationsSnapshot = none ∨ ∀ listId ∈ listIds, Invitation.read listId (invitationsSnapshot.sub [listId]) = none
  | .deliver (.childAdded userId listId invitationSnapshot) => s.signedIn = some userId ∨
      listId ∈ s.manager.ids ∨ Invitation.read listId invitationSnapshot = none
  | .logIn userId => s.signedIn = some userId ∨ s.manager.invitations = []
  | _ => True

theorem new_ownOnly : OwnOnly new := ⟨rfl, by simp [new]⟩

/-- Where a user's block adds invitations, they are the signed-in user's exactly when
    that user is the one, or there are none. -/
theorem OwnOnly.adds_iff {s t : Session} (ownOnly : OwnOnly s) {userId : Key} {more : List Invitation}
    (sameUser : t.signedIn = s.signedIn) (adds : t.manager.invitations = s.manager.invitations ++ more)
    (sources : t.sources = s.sources ++ List.replicate (t.manager.invitations.length - s.manager.invitations.length) userId) :
    OwnOnly t ↔ s.signedIn = some userId ∨ more = [] := by
  have count : t.manager.invitations.length - s.manager.invitations.length = more.length := by
    rw [adds, List.length_append]
    omega
  rw [count] at sources
  constructor
  · intro after
    by_cases none : more = []
    · exact .inr none
    · left
      rw [← sameUser]
      refine after.own userId ?_
      rw [sources]
      exact List.mem_append_right _ (List.mem_replicate.mpr ⟨by simpa using none, rfl⟩)
  · intro fits
    refine ⟨?_, ?_⟩
    · rw [sources, adds, List.length_append, List.length_append, List.length_replicate, ownOnly.length]
    · intro source member
      rw [sources] at member
      rw [sameUser]
      rcases List.mem_append.mp member with old | new
      · exact ownOnly.own source old
      · obtain ⟨some, rfl⟩ := List.mem_replicate.mp new
        exact fits.resolve_right (by simpa using some)

/-- After a delivered answer or addition the property holds exactly when it came in time. -/
theorem OwnOnly.delivered_iff {s t : Session} (ownOnly : OwnOnly s) {event : Event}
    (stepped : step s (.deliver event) = some t) : OwnOnly t ↔ InTime s (.deliver event) := by
  simp only [step, Option.ite_none_right_eq_some, Option.map_eq_some_iff] at stepped
  obtain ⟨_, manager, handled, rfl⟩ := stepped
  cases event with
  | loadAnswered userId invitationsSnapshot listIds =>
    rw [InTime, ← State.loaded_eq_nil]
    exact ownOnly.adds_iff rfl (State.loadAnswered_spec handled).1 rfl
  | childAdded userId listId invitationSnapshot =>
    rw [InTime, ← State.added_eq_nil]
    exact ownOnly.adds_iff rfl (State.invitationsChildAdded_spec handled).1 rfl
  | childRemoved userId listId =>
    obtain rfl := Option.some.inj handled
    refine iff_of_true ⟨?_, ?_⟩ trivial
    · simp only [sourcesAfter, (State.invitationsChildRemoved_spec ..).1, List.eraseP_eq_eraseIdx]
      cases found : s.manager.invitations.findIdx? (fun invitation => invitation.list_id = listId) with
      | none => exact ownOnly.length
      | some index => simp only [List.length_eraseIdx, ownOnly.length]
    · intro source member
      refine ownOnly.own source ?_
      simp only [sourcesAfter] at member
      split at member
      · exact List.mem_of_mem_eraseIdx member
      · exact member

/-- One step keeps the property exactly when it is in time. -/
theorem OwnOnly.step_iff {s t : Session} (ownOnly : OwnOnly s) {action : Action} (stepped : step s action = some t) :
    OwnOnly t ↔ InTime s action := by
  cases action with
  | deliver event => exact ownOnly.delivered_iff stepped
  | logIn userId =>
    cases stepped
    simp only [InTime]
    constructor
    · intro after
      by_cases none : s.manager.invitations = []
      · exact .inr none
      · -- Whoever the first invitation is from was signed in before and is so now.
        left
        have some : 0 < s.sources.length := by
          rw [ownOnly.length]
          exact List.length_pos_iff.mpr none
        obtain ⟨source, member⟩ := List.exists_mem_of_length_pos some
        rw [ownOnly.own source member]
        exact (after.own source member).symm
    · rintro (same | none)
      · exact ⟨ownOnly.length, fun source member => by rw [← same]; exact ownOnly.own source member⟩
      · have noSources : s.sources = [] := List.eq_nil_of_length_eq_zero (by rw [ownOnly.length, none]; rfl)
        exact ⟨ownOnly.length, by simp [noSources]⟩
  | logOut throws =>
    cases stepped
    exact iff_of_true ⟨rfl, by simp⟩ trivial
  | loadData =>
    obtain ⟨userId, _, rfl⟩ := Option.map_eq_some_iff.mp stepped
    exact iff_of_true ⟨ownOnly.length, ownOnly.own⟩ trivial
  | activateObservers =>
    obtain ⟨manager, activated, rfl⟩ := Option.map_eq_some_iff.mp stepped
    have sameInvitations : manager.invitations = s.manager.invitations := by
      unfold State.activateObservers at activated
      split at activated
      · cases activated; rfl
      · obtain ⟨userId, _, rfl⟩ := Option.map_eq_some_iff.mp activated; rfl
    exact iff_of_true ⟨by rw [ownOnly.length, sameInvitations], ownOnly.own⟩ trivial
  | raise event =>
    refine iff_of_true ?_ trivial
    cases event with
    | loadAnswered | childAdded | childRemoved =>
      simp only [step, Option.ite_none_right_eq_some, Option.some.injEq] at stepped
      obtain ⟨_, rfl⟩ := stepped
      exact ⟨ownOnly.length, ownOnly.own⟩

/-- Through all log-ins and log-outs the invitations held are always the signed-in
    user's exactly when every block runs in time and nobody logs in over another's invitations. -/
theorem always_own_iff (actions : List Action) :
    Runs.Always step OwnOnly new actions ↔ Runs.Along step InTime new actions :=
  Runs.always_iff_along (fun _ ownOnly => ownOnly) (fun _ _ _ ownOnly inTime stepped => (ownOnly.step_iff stepped).mpr inTime)
    (fun _ _ _ ownOnly late stepped => (ownOnly.step_iff stepped).not.mpr late) new_ownOnly actions

/-- The answer to Bob's `LoadData` is on its way to the main thread when he logs out. -/
def lateAnswerRun : List Action :=
  open Sample in
  let invitations : Snapshot := Tree.empty.put [groceries] (Invitation.record "alice@mail" "Join")
  [.logIn bob, .loadData, .activateObservers, .raise (.loadAnswered bob invitations [groceries]), .logOut false,
   .deliver (.loadAnswered bob invitations [groceries])]

theorem invitation_shown_after_logOut : ¬ ∀ actions, Runs.Always step OwnOnly new actions := by
  intro claim
  have passed : (Runs.exec step new lateAnswerRun).any
      (fun s => decide (s.signedIn = none ∧ s.sources = [Sample.bob])) = true := by decide +kernel
  obtain ⟨s, ownOnly, shown⟩ := (claim lateAnswerRun).of_any passed
  obtain ⟨signedOut, sources⟩ := of_decide_eq_true shown
  have own := ownOnly.own Sample.bob (by simp [sources])
  rw [signedOut] at own
  cases own

end Session
end SharedList.InvitationManager
