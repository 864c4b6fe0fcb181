import SharedList.Acceptance
import SharedList.InvitationManager
import SharedList.Keyed

/-!
`InvitationManager` of one user and the node it follows. The answer to `LoadData`
is a snapshot of some earlier moment; `ActivateObservers` starts with a
`childAdded` for every child there is, and every change of the children raises
an event after it. An overwritten child raises neither of the two events.
-/
namespace SharedList.InvitationManager
open FrbUtils

def userInvitationsDbRef (userId : Key) : Reference :=
  child dbRef (Keys.users.val ++ "/" ++ userId.val ++ "/" ++ Keys.invitations.val)

@[simp] theorem userInvitationsDbRef_key (userId : Key) :
    userInvitationsDbRef userId = [Keys.users, userId, Keys.invitations] := by
  simp [-String.reduceAppend, userInvitationsDbRef, child, dbRef]

theorem invitationDbRef_child (userId listId : Key) :
    userInvitationsDbRef userId ++ [listId] = invitationDbRef userId listId := by
  rw [userInvitationsDbRef_key, invitationDbRef_key]
  rfl

/-! ## Events -/

inductive ChildEvent where
  | added (listId : Key) (invitationSnapshot : Snapshot)
  | removed (listId : Key)
deriving DecidableEq

namespace ChildEvent

def handle (manager : State) : ChildEvent → Option State
  | .added listId invitationSnapshot => manager.invitationsChildAdded listId invitationSnapshot
  | .removed listId => some (manager.invitationsChildRemoved listId)

/-- What an event makes of the invitation held for a list. -/
def on (L : Key) (held : Option Invitation) : ChildEvent → Option Invitation
  | .added listId invitationSnapshot => if listId = L then held.or (Invitation.read L invitationSnapshot) else held
  | .removed listId => if listId = L then none else held

/-- A `childAdded` for each of the keys. -/
def additions (node : Snapshot) (listIds : List Key) : List ChildEvent :=
  listIds.map (fun listId => .added listId (node.sub [listId]))

/-- The events that a change of the node raises. -/
def ofChange (before after : Snapshot) : List ChildEvent :=
  (before.childKeys.filter (fun listId => ¬ after.Present [listId])).map .removed ++
    additions after (after.childKeys.filter (fun listId => ¬ before.Present [listId]))

/-- The invitation held for a list once the events are handled. -/
def settle (events : List ChildEvent) (L : Key) (held : Option Invitation) : Option Invitation :=
  events.foldl (on L) held

theorem settle_append (events more : List ChildEvent) (L : Key) (held : Option Invitation) :
    settle (events ++ more) L held = settle more L (settle events L held) := List.foldl_append

theorem settle_additions (node : Snapshot) (listIds : List Key) (L : Key) (held : Option Invitation) :
    settle (additions node listIds) L held =
      held.or (if L ∈ listIds then Invitation.read L (node.sub [L]) else none) := by
  induction listIds generalizing held with
  | nil => simp [settle, additions]
  | cons listId rest ih =>
    have unfolded : settle (additions node (listId :: rest)) L held =
      settle (additions node rest) L (on L held (.added listId (node.sub [listId]))) := rfl
    rw [unfolded, ih]
    by_cases here : listId = L
    · subst here
      by_cases again : listId ∈ rest
      · simp [on, again, Option.or_assoc]
      · simp [on, again]
    · simp [on, here, Ne.symm here]

theorem settle_removals (listIds : List Key) (L : Key) (held : Option Invitation) :
    settle (listIds.map .removed) L held = if L ∈ listIds then none else held := by
  induction listIds generalizing held with
  | nil => simp [settle]
  | cons listId rest ih =>
    have unfolded : settle ((listId :: rest).map .removed) L held =
      settle (rest.map .removed) L (on L held (.removed listId)) := rfl
    rw [unfolded, ih]
    by_cases here : listId = L
    · simp [on, here]
    · simp [on, here, Ne.symm here]

/-- After a removal it does not matter what was held before. -/
theorem settle_of_removed {events : List ChildEvent} {L : Key} (removed : .removed L ∈ events)
    (first second : Option Invitation) : settle events L first = settle events L second := by
  induction events generalizing first second with
  | nil => cases removed
  | cons event rest ih =>
    show settle rest L (on L first event) = settle rest L (on L second event)
    rcases List.mem_cons.mp removed with rfl | later
    · simp [on]
    · exact ih later _ _

/-- What is held stays as long as no removal comes. -/
theorem settle_some {events : List ChildEvent} {L : Key} (lasts : .removed L ∉ events) (invitation : Invitation) :
    settle events L (some invitation) = some invitation := by
  induction events with
  | nil => rfl
  | cons event rest ih =>
    obtain ⟨first, later⟩ := not_or.mp (fun either => lasts (List.mem_cons.mpr either))
    have same : on L (some invitation) event = some invitation := by
      cases event with
      | added listId invitationSnapshot => simp [on]
      | removed listId =>
        have other : listId ≠ L := fun here => first (congrArg _ here.symm)
        simp [on, other]
    show settle rest L (on L (some invitation) event) = some invitation
    rw [same]
    exact ih later

theorem read_absent {node : Snapshot} {L : Key} (absent : ¬ node.Present [L]) : Invitation.read L (node.sub [L]) = none := by
  refine Invitation.read_of_no_leaves (List.eq_nil_iff_forall_not_mem.mpr ?_)
  rintro ⟨r, v⟩ leaf
  exact absent (Tree.present_iff.mpr ⟨r, v, Tree.mem_sub.mp leaf⟩)

/-- The events of a change lead from the old invitation of a list to the new one,
    unless it was overwritten. -/
theorem settle_ofChange {before after : Snapshot} {L : Key}
    (kept : before.Present [L] → after.Present [L] → Invitation.read L (after.sub [L]) = Invitation.read L (before.sub [L])) :
    settle (ofChange before after) L (Invitation.read L (before.sub [L])) = Invitation.read L (after.sub [L]) := by
  rw [ofChange, settle_append, settle_removals, settle_additions]
  simp only [List.mem_filter, Tree.mem_childKeys, decide_eq_true_eq]
  by_cases was : before.Present [L]
  · by_cases is : after.Present [L]
    · simp [was, is, kept was is]
    · simp [was, is, read_absent is]
  · by_cases is : after.Present [L]
    · simp [was, is, read_absent was]
    · simp [was, is, read_absent was, read_absent is]

/-- Handling an event does to each list's invitation what `on` says. -/
theorem handle_spec {manager after : State} {event : ChildEvent} (distinct : manager.ids.Nodup)
    (handled : event.handle manager = some after) : after.ids.Nodup ∧ after.observersHandler = manager.observersHandler ∧
      ∀ L, Keyed.lookup Invitation.list_id after.invitations L =
        event.on L (Keyed.lookup Invitation.list_id manager.invitations L) := by
  cases event with
  | added listId invitationSnapshot =>
    obtain ⟨adds, sameHandler⟩ := State.invitationsChildAdded_spec handled
    by_cases held : listId ∈ manager.ids
    · have same : after.invitations = manager.invitations := by rw [adds, State.added, if_pos held, List.append_nil]
      refine ⟨by rw [State.ids, same]; exact distinct, sameHandler, ?_⟩
      intro L
      rw [same]
      by_cases here : listId = L
      · subst here
        obtain ⟨invitation, found⟩ := Option.ne_none_iff_exists'.mp (fun none => Keyed.lookup_eq_none.mp none held)
        simp [on, found]
      · simp [on, here]
    · have more : after.invitations = manager.invitations ++ (Invitation.read listId invitationSnapshot).toList := by
        rw [adds, State.added, if_neg held]
      have keyed : ∀ invitation ∈ Invitation.read listId invitationSnapshot, invitation.list_id = listId :=
        fun _ decoded => Invitation.read_list_id decoded
      refine ⟨?_, sameHandler, ?_⟩
      · rw [State.ids, more, List.map_append]
        refine List.Nodup.append distinct ?_ ?_
        · cases Invitation.read listId invitationSnapshot <;> simp
        · intro L old new
          obtain ⟨invitation, member, rfl⟩ := List.mem_map.mp new
          rw [keyed invitation (Option.mem_toList.mp member)] at old
          exact held old
      · intro L
        rw [more, Keyed.lookup_append, Keyed.lookup_toList keyed, on]
        by_cases here : listId = L
        · subst here
          rw [if_pos rfl, if_pos rfl, Keyed.lookup_eq_none.mpr held]
        · rw [if_neg here, if_neg here, Option.or_none]
  | removed listId =>
    obtain rfl := Option.some.inj handled
    obtain ⟨removes, sameHandler⟩ := State.invitationsChildRemoved_spec manager listId
    refine ⟨?_, sameHandler, ?_⟩
    · rw [State.ids, removes]
      exact Keyed.nodup_eraseP distinct _
    · intro L
      rw [removes, Keyed.lookup_eraseP distinct, on]
      simp only [eq_comm]

end ChildEvent

/-! ## Runs -/

/-- How far the one call of `LoadData` has come. -/
inductive Load where
  | notCalled
  | called
  | taken (invitationsSnapshot : Snapshot)
  | answered
deriving DecidableEq

/-- A user's manager and the database as the user's client sees it. -/
structure World where
  userId : Key
  db : Database
  manager : State
  load : Load
  /-- The child events raised and not yet handled, in order. -/
  raised : List ChildEvent

namespace World

def start (userId : Key) (db : Database) : World := ⟨userId, db, State.new, .notCalled, []⟩

def node (w : World) : Snapshot := w.db.sub (userInvitationsDbRef w.userId)
/-- The invitation stored for a list. -/
def stored (w : World) (L : Key) : Option Invitation := Invitation.read L (w.node.sub [L])
def held (w : World) (L : Key) : Option Invitation := Keyed.lookup Invitation.list_id w.manager.invitations L
def Observing (w : World) : Prop := w.manager.observersHandler.isSome
instance (w : World) : Decidable w.Observing := inferInstanceAs (Decidable (_ = true))

inductive Action where
  /-- The server applies a write, of this user or of another. -/
  | applied (write : Write)
  | loadData
  | snapshotTaken
  | loadAnswered (listIds : List Key)
  /-- The children there are come first, in some order. -/
  | activateObservers (listIds : List Key)
  | deliver

def step (w : World) : Action → Option World
  | .applied write =>
    let after := { w with db := write.apply w.db }
    some { after with raised := if w.Observing then w.raised ++ ChildEvent.ofChange w.node after.node else w.raised }
  | .loadData => if w.load = .notCalled then some { w with load := .called } else none
  | .snapshotTaken => if w.load = .called then some { w with load := .taken w.node } else none
  | .loadAnswered listIds =>
    match w.load with
    | .taken invitationsSnapshot =>
      (w.manager.loadAnswered invitationsSnapshot listIds).map (fun manager => { w with manager := manager, load := .answered })
    | _ => none
  | .activateObservers listIds => do
    let manager ← w.manager.activateObservers (some w.userId)
    if w.Observing then return { w with manager := manager }
    else if listIds.Perm w.node.childKeys then
      return { w with manager := manager, raised := ChildEvent.additions w.node listIds }
    else none
  | .deliver =>
    match w.raised with
    | event :: rest => (event.handle w.manager).map (fun manager => { w with manager := manager, raised := rest })
    | [] => none

/-- Every child of the node is an invitation as `SendInvitation` stores them. -/
def WellFormed (w : World) : Prop := ∀ L, w.node.Present [L] → (w.stored L).isSome

/-- The observers are registered, and no answer and no event is on its way. -/
def Settled (w : World) : Prop := w.Observing ∧ (w.load = .notCalled ∨ w.load = .answered) ∧ w.raised = []
instance (w : World) : Decidable w.Settled := inferInstanceAs (Decidable (_ ∧ _ ∧ _))

/-- The manager holds one invitation for each key of the node, with the stored
    sender and message, and nothing else. -/
structure Agrees (w : World) : Prop where
  unique : w.manager.ids.Nodup
  keys : ∀ L, L ∈ w.manager.ids ↔ w.node.Present [L]
  same : ∀ invitation ∈ w.manager.invitations, w.stored invitation.list_id = some invitation

/-- While the observers are registered no invitation is overwritten by another one,
    and the answer to `LoadData` has nothing that is held and nothing that is gone
    without a removal to come; and what is held when they are registered is stored. -/
def Steady (w : World) : Action → Prop
  | .applied (.sendInvitation userId L myEmail message) =>
    w.Observing → userId = w.userId → w.node.Present [L] → w.stored L = some ⟨L, myEmail, message⟩
  | .loadAnswered _ => w.Observing → ∀ invitationsSnapshot, w.load = .taken invitationsSnapshot →
      (dictionary? invitationsSnapshot).isSome → ∀ L invitation, Invitation.read L (invitationsSnapshot.sub [L]) = some invitation →
        L ∉ w.manager.ids ∧ (w.stored L = some invitation ∨ .removed L ∈ w.raised)
  | .activateObservers _ => ¬ w.Observing →
      ∀ invitation ∈ w.manager.invitations, w.stored invitation.list_id = some invitation
  | _ => True

/-- What holds in every state of a steady run: once the observers are registered,
    the events on their way lead from what is held to what is stored. -/
structure Synced (w : World) : Prop where
  wellFormed : w.WellFormed
  unique : w.manager.ids.Nodup
  before : ¬ w.Observing → w.raised = [] ∧ (w.load ≠ .answered → w.manager.invitations = [])
  during : w.Observing → ∀ L, ChildEvent.settle w.raised L (w.held L) = w.stored L

theorem stored_present {w : World} {L : Key} (some : (w.stored L).isSome) : w.node.Present [L] := by
  by_contra absent
  rw [stored, ChildEvent.read_absent absent] at some
  cases some

theorem Synced.agrees {w : World} (synced : Synced w) (settled : w.Settled) : w.Agrees := by
  obtain ⟨observing, _, none⟩ := settled
  have current : ∀ L, w.held L = w.stored L := by
    intro L
    have leads := synced.during observing L
    rwa [none] at leads
  refine ⟨synced.unique, ?_, ?_⟩
  · intro L
    constructor
    · intro member
      refine stored_present ?_
      rw [← current, Option.isSome_iff_ne_none]
      exact fun none => Keyed.lookup_eq_none.mp none member
    · intro present
      obtain ⟨invitation, found⟩ := Option.isSome_iff_exists.mp (synced.wellFormed L present)
      rw [← current] at found
      obtain ⟨member, rfl⟩ := Keyed.key_of_lookup found
      exact List.mem_map.mpr ⟨invitation, member, rfl⟩
  · intro invitation member
    rw [← current]
    exact (Keyed.lookup_eq_some synced.unique).mpr ⟨member, rfl⟩

theorem node_sub (w : World) (L : Key) : w.node.sub [L] = w.db.sub (invitationDbRef w.userId L) := by
  rw [node, Tree.sub_sub, invitationDbRef_child]

/-- A write leaves the invitation for a list as it was, puts one there or takes it away. -/
theorem applied_cases (w : World) (write : Write) (L : Key) :
    ({ w with db := write.apply w.db }.node.sub [L] = w.node.sub [L]) ∨
      (∃ myEmail message, write = .sendInvitation w.userId L myEmail message ∧
        { w with db := write.apply w.db }.stored L = some ⟨L, myEmail, message⟩) ∨
      ¬ { w with db := write.apply w.db }.node.Present [L] := by
  by_cases sends : ∃ myEmail message, write = .sendInvitation w.userId L myEmail message
  · obtain ⟨myEmail, message, rfl⟩ := sends
    refine .inr (.inl ⟨myEmail, message, rfl, ?_⟩)
    rw [stored, node_sub]
    simp only [Write.sendInvitation_apply, Tree.sub_put]
    exact Invitation.read_record L myEmail message
  · by_cases removes : write = .removeInvitation w.userId L
    · subst removes
      refine .inr (.inr ?_)
      rw [node, Tree.present_sub, invitationDbRef_child]
      exact Write.removeInvitation_gone w.db w.userId L
    · left
      rw [node_sub, node_sub]
      exact Write.invitation_frame w.db (fun myEmail message same => sends ⟨myEmail, message, same⟩) removes

theorem Synced.applied {w : World} (synced : Synced w) {write : Write} (steady : w.Steady (.applied write)) :
    let after : World := { w with db := write.apply w.db }
    Synced { after with raised := if w.Observing then w.raised ++ ChildEvent.ofChange w.node after.node else w.raised } := by
  intro after
  refine ⟨?_, synced.unique, ?_, ?_⟩
  · intro L present
    change after.node.Present [L] at present
    show (after.stored L).isSome
    rcases applied_cases w write L with same | ⟨_, _, _, put⟩ | gone
    · rw [stored, same]
      refine synced.wellFormed L ?_
      exact (Tree.present_congr same).mp present
    · rw [put]
      rfl
    · exact absurd present gone
  · intro idle
    change ¬ w.Observing at idle
    simp only [if_neg idle]
    exact synced.before idle
  · intro observing L
    change w.Observing at observing
    show ChildEvent.settle (if w.Observing then w.raised ++ _ else w.raised) L (w.held L) = after.stored L
    rw [if_pos observing, ChildEvent.settle_append, synced.during observing L]
    refine ChildEvent.settle_ofChange ?_
    intro was is
    rcases applied_cases w write L with same | ⟨myEmail, message, rfl, put⟩ | gone
    · exact congrArg _ same
    · have before : w.stored L = some ⟨L, myEmail, message⟩ := steady observing rfl was
      exact put.trans before.symm
    · exact absurd is gone

/-- The invitations that the answer adds, by list. -/
theorem lookup_loaded {invitationsSnapshot : Snapshot} {listIds : List Key}
    (order : ∀ dict, dictionary? invitationsSnapshot = some dict → listIds.Perm dict.childKeys) :
    ((State.loaded invitationsSnapshot listIds).map Invitation.list_id).Nodup ∧
      ∀ invitation ∈ State.loaded invitationsSnapshot listIds, (dictionary? invitationsSnapshot).isSome ∧
        Invitation.read invitation.list_id (invitationsSnapshot.sub [invitation.list_id]) = some invitation := by
  unfold State.loaded
  split
  · rename_i dict dictionary
    have sameKeys := order dict dictionary
    obtain ⟨rfl, _⟩ := dictionary?_eq_some dictionary
    refine ⟨?_, ?_⟩
    · have distinct : listIds.Nodup := sameKeys.nodup_iff.mpr (List.nodup_dedup _)
      rw [List.map_filterMap]
      refine distinct.filterMap ?_
      intro first second L fromFirst fromSecond
      obtain ⟨a, readA, rfl⟩ := Option.map_eq_some_iff.mp fromFirst
      obtain ⟨b, readB, sameId⟩ := Option.map_eq_some_iff.mp fromSecond
      rw [← Invitation.read_list_id readA, ← Invitation.read_list_id readB, sameId]
    · intro invitation member
      obtain ⟨L, _, decoded⟩ := List.mem_filterMap.mp member
      rw [Invitation.read_list_id decoded]
      exact ⟨by rw [dictionary]; rfl, decoded⟩
  · exact ⟨List.nodup_nil, by simp⟩

theorem Synced.loadAnswered {w : World} (synced : Synced w) {listIds : List Key} (steady : w.Steady (.loadAnswered listIds))
    {invitationsSnapshot : Snapshot} (taken : w.load = .taken invitationsSnapshot) {manager : State}
    (handled : w.manager.loadAnswered invitationsSnapshot listIds = some manager) :
    Synced { w with manager := manager, load := .answered } := by
  obtain ⟨adds, sameHandler, order⟩ := State.loadAnswered_spec handled
  obtain ⟨distinct, decodes⟩ := lookup_loaded order
  have observing_iff : World.Observing { w with manager := manager, load := .answered } ↔ w.Observing := by
    rw [Observing, Observing, sameHandler]
  refine ⟨synced.wellFormed, ?_, ?_, ?_⟩
  · rw [State.ids, adds, List.map_append]
    refine List.Nodup.append synced.unique distinct ?_
    intro L old new
    obtain ⟨invitation, member, rfl⟩ := List.mem_map.mp new
    by_cases observing : w.Observing
    · obtain ⟨isDictionary, decoded⟩ := decodes invitation member
      exact (steady observing _ taken isDictionary _ _ decoded).1 old
    · -- Before the registration nothing is held when the answer comes.
      have none := (synced.before observing).2 (by rw [taken]; simp)
      rw [none] at old
      cases old
  · intro idle
    exact ⟨(synced.before (observing_iff.not.mp idle)).1, fun waiting => absurd rfl waiting⟩
  · intro active L
    have observing := observing_iff.mp active
    have leads := synced.during observing L
    show ChildEvent.settle w.raised L (Keyed.lookup Invitation.list_id manager.invitations L) = w.stored L
    rw [adds, Keyed.lookup_append]
    cases loaded : Keyed.lookup Invitation.list_id (State.loaded invitationsSnapshot listIds) L with
    | none => rw [Option.or_none]; exact leads
    | some invitation =>
      obtain ⟨member, rfl⟩ := Keyed.key_of_lookup loaded
      obtain ⟨isDictionary, decoded⟩ := decodes invitation member
      obtain ⟨notHeld, current⟩ := steady observing _ taken isDictionary _ _ decoded
      have nothing : w.held invitation.list_id = none := Keyed.lookup_eq_none.mpr notHeld
      rw [nothing] at leads
      show ChildEvent.settle w.raised _ ((w.held _).or _) = _
      rw [nothing, Option.none_or]
      by_cases gone : .removed invitation.list_id ∈ w.raised
      · rw [ChildEvent.settle_of_removed gone _ none]
        exact leads
      · rw [ChildEvent.settle_some gone]
        exact (current.resolve_right gone).symm

theorem Synced.activateObservers {w : World} (synced : Synced w) {listIds : List Key} (idle : ¬ w.Observing)
    (steady : w.Steady (.activateObservers listIds)) (order : listIds.Perm w.node.childKeys) {manager : State}
    (activated : w.manager.activateObservers (some w.userId) = some manager) :
    Synced { w with manager := manager, raised := ChildEvent.additions w.node listIds } := by
  have noHandler : w.manager.observersHandler = none := by simpa [Observing] using idle
  simp only [State.activateObservers, noHandler, Option.map_some, Option.some.injEq] at activated
  subst activated
  refine ⟨synced.wellFormed, synced.unique, fun inactive => absurd rfl inactive, ?_⟩
  intro _ L
  show ChildEvent.settle (ChildEvent.additions w.node listIds) L (w.held L) = w.stored L
  rw [ChildEvent.settle_additions]
  cases found : w.held L with
  | some invitation =>
    obtain ⟨member, rfl⟩ := Keyed.key_of_lookup found
    rw [Option.some_or]
    exact (steady idle invitation member).symm
  | none =>
    rw [Option.none_or]
    by_cases present : w.node.Present [L]
    · rw [if_pos (order.mem_iff.mpr (Tree.mem_childKeys.mpr present))]
      rfl
    · rw [stored, ChildEvent.read_absent present, ite_self]

theorem Synced.step {w t : World} {action : Action} (synced : Synced w) (steady : w.Steady action)
    (stepped : World.step w action = some t) : Synced t := by
  cases action with
  | applied write =>
    obtain rfl := Option.some.inj stepped
    exact synced.applied steady
  | loadData =>
    simp only [World.step, Option.ite_none_right_eq_some, Option.some.injEq] at stepped
    obtain ⟨notCalled, rfl⟩ := stepped
    refine ⟨synced.wellFormed, synced.unique, ?_, synced.during⟩
    intro idle
    obtain ⟨none, empty⟩ := synced.before idle
    exact ⟨none, fun _ => empty (by rw [notCalled]; simp)⟩
  | snapshotTaken =>
    simp only [World.step, Option.ite_none_right_eq_some, Option.some.injEq] at stepped
    obtain ⟨called, rfl⟩ := stepped
    refine ⟨synced.wellFormed, synced.unique, ?_, synced.during⟩
    intro idle
    obtain ⟨none, empty⟩ := synced.before idle
    exact ⟨none, fun _ => empty (by rw [called]; simp)⟩
  | loadAnswered listIds =>
    simp only [World.step] at stepped
    split at stepped
    · rename_i invitationsSnapshot taken
      obtain ⟨manager, handled, rfl⟩ := Option.map_eq_some_iff.mp stepped
      exact synced.loadAnswered steady taken handled
    · cases stepped
  | activateObservers listIds =>
    simp only [World.step, Option.bind_eq_bind, Option.bind_eq_some_iff, Option.pure_def] at stepped
    obtain ⟨manager, activated, stepped⟩ := stepped
    by_cases observing : w.Observing
    · rw [if_pos observing] at stepped
      obtain rfl := Option.some.inj stepped
      obtain ⟨userId, hasHandler⟩ := Option.isSome_iff_exists.mp observing
      simp only [State.activateObservers, hasHandler, Option.some.injEq] at activated
      subst activated
      exact synced
    · rw [if_neg observing, Option.ite_none_right_eq_some] at stepped
      obtain ⟨order, stepped⟩ := stepped
      obtain rfl := Option.some.inj stepped
      exact synced.activateObservers observing steady order activated
  | deliver =>
    simp only [World.step] at stepped
    split at stepped
    · rename_i event rest raised
      obtain ⟨manager, handled, rfl⟩ := Option.map_eq_some_iff.mp stepped
      obtain ⟨unique, sameHandler, effect⟩ := ChildEvent.handle_spec synced.unique handled
      have observing_iff : World.Observing { w with manager := manager, raised := rest } ↔ w.Observing := by
        rw [Observing, Observing, sameHandler]
      refine ⟨synced.wellFormed, unique, ?_, ?_⟩
      · intro idle
        -- No event is raised before the registration.
        rw [(synced.before (observing_iff.not.mp idle)).1] at raised
        cases raised
      · intro active L
        have leads := synced.during (observing_iff.mp active) L
        rw [raised] at leads
        show ChildEvent.settle rest L (Keyed.lookup Invitation.list_id manager.invitations L) = w.stored L
        rw [effect L]
        exact leads
    · cases stepped

/-- Whatever the node holds at first and whatever is written, in every settled state of
    a steady run the manager agrees with the node. -/
theorem invitations_agree_when_settled {userId : Key} {db : Database} (wellFormed : (start userId db).WellFormed)
    {actions : List Action} (steady : Runs.Along step Steady (start userId db) actions) :
    Runs.Always step (fun w => w.Settled → w.Agrees) (start userId db) actions := by
  have initial : Synced (start userId db) :=
    ⟨wellFormed, List.nodup_nil, fun _ => ⟨rfl, fun _ => rfl⟩, fun observing => by cases observing⟩
  have always : Runs.Always step Synced (start userId db) actions :=
    Runs.always_of_invariant (fun _ _ _ synced steady stepped => Synced.step synced steady stepped) initial steady
  exact always.mono (fun _ synced settled => synced.agrees settled)

theorem invitedDb_wellFormed : (start Sample.bob Acceptance.invitedDb).WellFormed := by
  have children : (start Sample.bob Acceptance.invitedDb).node.childKeys = [Sample.groceries] := by decide +kernel
  intro L present
  rw [← Tree.mem_childKeys, children, List.mem_singleton] at present
  subst present
  decide +kernel

/-- Bob's one invitation comes as a `childAdded` and then with the answer to `LoadData`. -/
def replayFirstRun : List Action :=
  open Sample in
  [.loadData, .snapshotTaken, .activateObservers [groceries], .deliver, .loadAnswered [groceries]]

theorem invitation_held_twice : ¬ ∀ userId db, (start userId db).WellFormed → ∀ actions,
    Runs.Always step (fun w => w.Settled → w.Agrees) (start userId db) actions := by
  intro claim
  have always := claim Sample.bob Acceptance.invitedDb invitedDb_wellFormed replayFirstRun
  have passed : (Runs.exec step (start Sample.bob Acceptance.invitedDb) replayFirstRun).any
      (fun w => decide (w.Settled ∧ ¬ w.manager.ids.Nodup)) = true := by decide +kernel
  obtain ⟨w, agrees, twice⟩ := always.of_any passed
  obtain ⟨settled, doubled⟩ := of_decide_eq_true twice
  exact doubled (agrees settled).unique

/-- The answer to `LoadData` comes after the registration and before the `childAdded`, and Bob discards the invitation. -/
def discardedRun : List Action :=
  open Sample in
  [.loadData, .snapshotTaken, .activateObservers [groceries], .loadAnswered [groceries], .deliver,
   .applied (.removeInvitation bob groceries), .deliver]

theorem invitations_agree_when_settled_discardedRun :
    (Runs.exec step (start Sample.bob Acceptance.invitedDb) discardedRun).isSome = true ∧
      Runs.Always step (fun w => w.Settled → w.Agrees) (start Sample.bob Acceptance.invitedDb) discardedRun := by
  refine ⟨by decide +kernel, invitations_agree_when_settled invitedDb_wellFormed ?_⟩
  have loaded : (Runs.exec step (start Sample.bob Acceptance.invitedDb) (discardedRun.take 2)).all
      (fun w => w.manager.invitations = []) = true := by decide +kernel
  have registered : (Runs.exec step (start Sample.bob Acceptance.invitedDb) (discardedRun.take 3)).all
      (fun w => w.manager.ids = [] ∧ w.load = .taken (start Sample.bob Acceptance.invitedDb).node ∧
        ∀ L ∈ (start Sample.bob Acceptance.invitedDb).node.childKeys, w.stored L = (start Sample.bob Acceptance.invitedDb).stored L) = true := by
    decide +kernel
  intro called first
  refine ⟨trivial, fun taken second => ⟨trivial, fun w third => ?_⟩⟩
  have none : taken.manager.invitations = [] := by
    have run : Runs.exec step (start Sample.bob Acceptance.invitedDb) (discardedRun.take 2) = some taken := by
      simp [discardedRun, Runs.exec, first, second]
    rw [run] at loaded
    exact of_decide_eq_true loaded
  refine ⟨fun _ invitation held => ?_, fun _ _ => ⟨?_, fun _ _ => ⟨trivial, fun _ _ => ⟨trivial, fun _ _ => ⟨trivial, trivial⟩⟩⟩⟩⟩
  · rw [none] at held
    cases held
  · have run : Runs.exec step (start Sample.bob Acceptance.invitedDb) (discardedRun.take 3) = some w := by
      simp [discardedRun, Runs.exec, first, second, third]
    rw [run] at registered
    obtain ⟨fresh, isTaken, stored⟩ := of_decide_eq_true registered
    intro _ invitationsSnapshot answer _ L invitation read
    obtain rfl := Load.taken.inj (answer.symm.trans isTaken)
    have present : (start Sample.bob Acceptance.invitedDb).node.Present [L] :=
      stored_present (Option.isSome_iff_exists.mpr ⟨invitation, read⟩)
    refine ⟨by rw [fresh]; exact List.not_mem_nil, .inl ?_⟩
    rw [stored L (Tree.mem_childKeys.mpr present)]
    exact read

end World
end SharedList.InvitationManager
