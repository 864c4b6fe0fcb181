import SharedList.Records

/-!
`InvitationManager`: the invitations of the signed-in user, read once by
`LoadData` and kept up to date by two observers of the same node. Only the
`childAdded` observer looks whether an invitation is already held. `none` is a
cast or an unwrap that fails.
-/
namespace SharedList

namespace InvitationManager

/-- The calls of `InvitationManagerDelegate`. -/
inductive DelegateCall where
  | invitationAdded | invitationRemoved
deriving DecidableEq

structure State where
  invitations : List Invitation
  /-- The user whose invitations the two observers of the handler follow. -/
  observersHandler : Option Key
  calls : List DelegateCall
deriving DecidableEq

namespace State

def new : State := ⟨[], none, []⟩

def ids (s : State) : List Key := s.invitations.map Invitation.list_id

/-- `self.delegates.invokeDelegates`. -/
def tell (s : State) (call : DelegateCall) : State := { s with calls := s.calls ++ [call] }

/-- The answer to the read of `LoadData`; a dictionary has its keys in any order. -/
def loadAnswered (s : State) (invitationsSnapshot : Snapshot) (listIds : List Key) : Option State :=
  match dictionary? invitationsSnapshot with
  | some invitationsDict =>
    if listIds.Perm invitationsDict.childKeys then
      let loaded := listIds.filterMap (fun listId => Invitation.read listId (invitationsDict.sub [listId]))
      some ({ s with invitations := s.invitations ++ loaded }.tell .invitationAdded)
    else none
  | none => some s

/-- A handler that is there has both observers already, and `AddObserver` does nothing. -/
def activateObservers (s : State) (signedIn : Option Key) : Option State :=
  match s.observersHandler with
  | some _ => some s
  | none => signedIn.map (fun userId => { s with observersHandler := some userId })

def invitationsChildAdded (s : State) (listId : Key) (invitationSnapshot : Snapshot) : Option State :=
  if listId ∈ s.ids then some s
  else do
    let dataDict ← stringDictionary? invitationSnapshot
    match Invitation.deserialize listId dataDict with
    | some invitation => some ({ s with invitations := s.invitations ++ [invitation] }.tell .invitationAdded)
    | none => some s

def invitationsChildRemoved (s : State) (listId : Key) : State :=
  match s.invitations.findIdx? (fun invitation => invitation.list_id = listId) with
  | some index => { s with invitations := s.invitations.eraseIdx index }.tell .invitationRemoved
  | none => s

def cleanup (s : State) : State := { s with observersHandler := none, invitations := [] }

/-! ## What the handlers do -/

/-- What the answer to `LoadData` adds. -/
def loaded (invitationsSnapshot : Snapshot) (listIds : List Key) : List Invitation :=
  match dictionary? invitationsSnapshot with
  | some invitationsDict => listIds.filterMap (fun listId => Invitation.read listId (invitationsDict.sub [listId]))
  | none => []

/-- What a `childAdded` event adds. -/
def added (s : State) (listId : Key) (invitationSnapshot : Snapshot) : List Invitation :=
  if listId ∈ s.ids then [] else (Invitation.read listId invitationSnapshot).toList

theorem added_eq_nil {s : State} {listId : Key} {invitationSnapshot : Snapshot} :
    s.added listId invitationSnapshot = [] ↔ listId ∈ s.ids ∨ Invitation.read listId invitationSnapshot = none := by
  unfold added
  by_cases held : listId ∈ s.ids
  · simp [held]
  · simp [held, Option.toList_eq_nil_iff]

theorem loaded_eq_nil {invitationsSnapshot : Snapshot} {listIds : List Key} : loaded invitationsSnapshot listIds = [] ↔
    dictionary? invitationsSnapshot = none ∨ ∀ listId ∈ listIds, Invitation.read listId (invitationsSnapshot.sub [listId]) = none := by
  unfold loaded
  split
  · rename_i invitationsDict dictionary
    rw [(dictionary?_eq_some dictionary).1, List.filterMap_eq_nil_iff]
    simp [(dictionary?_eq_some dictionary).1 ▸ dictionary]
  · rename_i undecoded
    simp [undecoded]

theorem loadAnswered_spec {s t : State} {invitationsSnapshot : Snapshot} {listIds : List Key}
    (handled : s.loadAnswered invitationsSnapshot listIds = some t) :
    t.invitations = s.invitations ++ loaded invitationsSnapshot listIds ∧ t.observersHandler = s.observersHandler ∧
      ∀ invitationsDict, dictionary? invitationsSnapshot = some invitationsDict → listIds.Perm invitationsDict.childKeys := by
  unfold loadAnswered at handled
  unfold loaded
  cases dictionary : dictionary? invitationsSnapshot with
  | none =>
    simp only [dictionary, Option.some.injEq] at handled
    subst handled
    exact ⟨by simp, rfl, by simp⟩
  | some invitationsDict =>
    simp only [dictionary, Option.ite_none_right_eq_some, Option.some.injEq] at handled
    obtain ⟨order, rfl⟩ := handled
    refine ⟨rfl, rfl, ?_⟩
    rintro _ ⟨⟩
    exact order

theorem invitationsChildAdded_spec {s t : State} {listId : Key} {invitationSnapshot : Snapshot}
    (handled : s.invitationsChildAdded listId invitationSnapshot = some t) :
    t.invitations = s.invitations ++ s.added listId invitationSnapshot ∧ t.observersHandler = s.observersHandler := by
  unfold invitationsChildAdded at handled
  unfold added
  by_cases held : listId ∈ s.ids
  · simp only [if_pos held, Option.some.injEq] at handled
    subst handled
    exact ⟨by simp [held], rfl⟩
  · simp only [if_neg held, Option.bind_eq_bind, Option.bind_eq_some_iff] at handled
    obtain ⟨dataDict, dictionary, handled⟩ := handled
    rw [if_neg held, Invitation.read, dictionary, Option.bind_some]
    split at handled
    · rename_i invitation decoded
      cases handled
      exact ⟨by simp [decoded, tell], rfl⟩
    · rename_i undecoded
      cases handled
      exact ⟨by simp [undecoded], rfl⟩

theorem invitationsChildRemoved_spec (s : State) (listId : Key) :
    (s.invitationsChildRemoved listId).invitations = s.invitations.eraseP (fun invitation => invitation.list_id = listId) ∧
      (s.invitationsChildRemoved listId).observersHandler = s.observersHandler := by
  rw [List.eraseP_eq_eraseIdx]
  unfold invitationsChildRemoved
  split
  · rename_i index found
    exact ⟨by simp only [found]; rfl, rfl⟩
  · rename_i missing
    exact ⟨by simp only [missing], rfl⟩

end State
end InvitationManager
end SharedList
