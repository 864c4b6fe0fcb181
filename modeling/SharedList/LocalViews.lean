import SharedList.Lifecycles
import Mathlib.Data.List.Perm.Subperm

/-!
What each device sees. The writes in flight belong to devices, and a device reads and
observes the database under its own writes that the server has not answered yet. What it
sees is what the database would be if these were applied next, so that all that holds
of the databases the clients can reach holds of it too.
-/
namespace SharedList
open FrbUtils

/-- The database with its clients, and the device of each write in flight. -/
structure Store where
  world : World
  /-- In the order in which the writes were issued. -/
  sent : List (Nat × Write)

namespace Store

def start (w : World) : Store := ⟨w, []⟩

/-- The database as a device sees it. -/
def view (s : Store) (device : Nat) : Database := applyAll s.world.db (ownWrites s.sent device)

/-- One step of a client on a device; what it puts in flight is of this device. -/
def advance (s : Store) : Nat × Action → Option Store
  | (device, action) => do
    let world ← step s.world action
    match action with
    | .applied write signedIn | .rejected write signedIn =>
      if (device, write) ∈ s.sent then
        return ⟨world, s.sent.erase (device, write) ++ (completion write signedIn).map (device, ·)⟩
      else none
    | _ => return ⟨world, s.sent ++ (world.inflight.drop s.world.inflight.length).map (device, ·)⟩

/-- What a step leaves of the writes in flight. -/
def kept (s : Store) (device : Nat) : Action → List (Nat × Write)
  | .applied write _ | .rejected write _ => s.sent.erase (device, write)
  | _ => s.sent

/-- All that a step does: what is left stays with its devices, and what is issued is of the device that takes the step. -/
theorem advance_spec {s t : Store} {device : Nat} {action : Action} (advanced : s.advance (device, action) = some t) :
    step s.world action = some t.world ∧ ∃ issued : Option Write, (∀ write ∈ issued, Issues s.world action write) ∧
      t.world.inflight = remaining s.world action ++ issued.toList ∧
      t.sent = s.kept device action ++ issued.toList.map (device, ·) ∧
      ∀ write signedIn, action = .applied write signedIn ∨ action = .rejected write signedIn → (device, write) ∈ s.sent := by
  obtain ⟨world, stepped, advanced⟩ := Option.bind_eq_some_iff.mp advanced
  obtain ⟨issued, issues, inflight⟩ := step_inFlight stepped
  cases action with
  | applied write signedIn | rejected write signedIn =>
    simp only [Option.pure_def, Option.ite_none_right_eq_some, Option.some.injEq] at advanced
    obtain ⟨own, rfl⟩ := advanced
    refine ⟨stepped, issued, issues, inflight, ?_, ?_⟩
    · have same : completion write signedIn = issued.toList := by
        simp only [step, Option.ite_none_right_eq_some, Option.some.injEq] at stepped
        obtain ⟨_, rfl⟩ := stepped
        exact List.append_cancel_left inflight
      rw [same]
      rfl
    · rintro _ _ (⟨⟨⟩⟩ | ⟨⟨⟩⟩)
      exact own
  | _ =>
    obtain rfl := Option.some.inj advanced
    refine ⟨stepped, issued, issues, inflight, ?_, by simp⟩
    rw [inflight]
    exact congrArg (fun more => s.sent ++ more.map (device, ·)) List.drop_left

/-- The devices' writes are the writes in flight. -/
def Sent (s : Store) : Prop := (s.sent.map Prod.snd).Perm s.world.inflight

theorem Sent.erase {s : Store} (sent : s.Sent) {device : Nat} {write : Write} (own : (device, write) ∈ s.sent) :
    ((s.sent.erase (device, write)).map Prod.snd).Perm (s.world.inflight.erase write) := by
  have split : (s.sent.map Prod.snd).Perm (write :: (s.sent.erase (device, write)).map Prod.snd) :=
    (List.perm_cons_erase own).map Prod.snd
  have waiting : write ∈ s.world.inflight := sent.subset (List.mem_map_of_mem own)
  exact (split.symm.trans (sent.trans (List.perm_cons_erase waiting))).cons_inv

theorem Sent.advance {s t : Store} (sent : s.Sent) {device : Nat} {action : Action}
    (advanced : s.advance (device, action) = some t) : t.Sent := by
  obtain ⟨_, issued, _, inflight, same, own⟩ := advance_spec advanced
  rw [Sent, same, inflight, List.map_append, List.map_map]
  refine List.Perm.append ?_ (by simp [Function.comp_def])
  cases action with
  | applied write signedIn => exact sent.erase (own write signedIn (.inl rfl))
  | rejected write signedIn => exact sent.erase (own write signedIn (.inr rfl))
  | _ => exact sent

theorem Sent.own {s : Store} (sent : s.Sent) (device : Nat) : (ownWrites s.sent device).Subperm s.world.inflight :=
  (List.filter_sublist.map Prod.snd).subperm.trans sent.subperm

end Store

/-! ## What is seen could be stored -/

/-- Writes in flight can be applied one after the other. -/
theorem exec_applied {w : World} {writes : List Write} (waiting : writes.Subperm w.inflight) :
    ∃ u, Runs.exec step w (writes.map (.applied · none)) = some u ∧ u.db = applyAll w.db writes ∧ u.calls = w.calls := by
  induction writes generalizing w with
  | nil => exact ⟨w, rfl, rfl, rfl⟩
  | cons write rest ih =>
    have first : write ∈ w.inflight := waiting.subset List.mem_cons_self
    have stepped : step w (.applied write none) =
        some { w with db := write.apply w.db, inflight := w.inflight.erase write ++ completion write none } := if_pos first
    have later : rest.Subperm (w.inflight.erase write ++ completion write none) := by
      have left := waiting.erase write
      rw [List.erase_cons_head] at left
      exact left.trans (List.sublist_append_left _ _).subperm
    obtain ⟨u, run, db, calls⟩ := ih (w := { w with db := write.apply w.db,
                                                    inflight := w.inflight.erase write ++ completion write none }) later
    exact ⟨u, Option.bind_eq_some_iff.mpr ⟨_, stepped, run⟩, db, calls⟩

/-- Calls of `AddNewItem` that gave out one id are one call. -/
structure AddedOnce (done : List Action) (w : World) : Prop where
  known : ∀ list title authorId k, .addNewItem list title authorId k ∈ done → k ∈ w.itemKeys
  same : ∀ list title authorId list' title' authorId' k, .addNewItem list title authorId k ∈ done →
    .addNewItem list' title' authorId' k ∈ done → list = list' ∧ title = title' ∧ authorId = authorId'

theorem AddedOnce.step {done : List Action} {w t : World} {action : Action} (once : AddedOnce done w)
    (stepped : SharedList.step w action = some t) : AddedOnce (done ++ [action]) t := by
  rcases step_itemKeys stepped with ⟨list, title, authorId, newItemKey, rfl, fresh, rfl⟩ | ⟨sameKeys, other⟩
  · have earlier : ∀ {l s a k}, .addNewItem l s a k ∈ done → k ≠ newItemKey := by
      rintro l s a k member rfl
      exact fresh (once.known l s a k member)
    refine ⟨?_, ?_⟩
    · intro l s a k member
      rcases List.mem_append.mp member with old | new
      · exact List.mem_cons_of_mem _ (once.known l s a k old)
      · cases List.mem_singleton.mp new
        exact List.mem_cons_self
    · intro l s a l' s' a' k member member'
      rcases List.mem_append.mp member with old | new <;> rcases List.mem_append.mp member' with old' | new'
      · exact once.same l s a l' s' a' k old old'
      · cases List.mem_singleton.mp new'
        exact absurd rfl (earlier old)
      · cases List.mem_singleton.mp new
        exact absurd rfl (earlier old')
      · cases List.mem_singleton.mp new
        cases List.mem_singleton.mp new'
        exact ⟨rfl, rfl, rfl⟩
  · have old : ∀ {l s a k}, .addNewItem l s a k ∈ done ++ [action] → .addNewItem l s a k ∈ done := by
      intro l s a k member
      rcases List.mem_append.mp member with old | new
      · exact old
      · exact absurd (List.mem_singleton.mp new).symm (other l s a k)
    refine ⟨?_, ?_⟩
    · intro l s a k member
      rw [sameKeys]
      exact once.known l s a k (old member)
    · exact fun l s a l' s' a' k member member' => once.same l s a l' s' a' k (old member) (old member')

/-- What a call of `AddNewItem` stores in a fixed field. -/
def madeField (title : String) (authorId : Key) : ItemKeys → Value
  | .title => .string title
  | _ => .string authorId.val

/-- A database whose lists are those of calls, and the fixed fields of whose items are as they were made. -/
structure AsMade (calls : List NewList) (done : List Action) (db : Database) : Prop where
  lists : ∀ (L : Key) list, ListObject.read L (db.sub [Keys.lists, L]) = some list → ∃ call ∈ calls, list = call.object
  titles : ∀ (L : Key) r v, (Keys.lists :: L :: Keys.title :: r, v) ∈ db.leaves →
    ∃ call ∈ calls, call.newListKey = L ∧ r = [] ∧ v = .string call.title
  items : ∀ (I k : Key) (f : ItemKeys), f.Fixed → db.Present [Keys.items, I, Keys.items, k, f.rawValue] →
    ∃ made title authorId, .addNewItem made title authorId k ∈ done ∧ made.items_id = I.val ∧
      db.sub [Keys.items, I, Keys.items, k, f.rawValue] = Tree.leaf (madeField title authorId f)

theorem AsMade.mono {calls calls' : List NewList} {done done' : List Action} {db : Database} (asMade : AsMade calls done db)
    (moreCalls : ∀ call ∈ calls, call ∈ calls') (more : ∀ l t a k, .addNewItem l t a k ∈ done → .addNewItem l t a k ∈ done') :
    AsMade calls' done' db := by
  refine ⟨?_, ?_, ?_⟩
  · intro L list read
    obtain ⟨call, called, same⟩ := asMade.lists L list read
    exact ⟨call, moreCalls call called, same⟩
  · intro L r v leaf
    obtain ⟨call, called, same⟩ := asMade.titles L r v leaf
    exact ⟨call, moreCalls call called, same⟩
  · intro I k f fixed present
    obtain ⟨made, title, authorId, asked, same⟩ := asMade.items I k f fixed present
    exact ⟨made, title, authorId, more _ _ _ _ asked, same⟩

theorem Accounted.asMade {begun : Database} {done : List Action} {w : World} (accounted : Accounted begun done w) :
    AsMade w.calls done w.db := by
  refine ⟨?_, ?_, ?_⟩
  · intro L list read
    obtain ⟨call, called, same, _⟩ := accounted.sound.read_stored read
    exact ⟨call, called, same⟩
  · intro L r v leaf
    obtain ⟨call, called, own, inRecord⟩ := accounted.sound.stored _ _ _ leaf
    refine ⟨call, called, own, ?_⟩
    simpa [serializedList_leaves] using inRecord
  · intro I k f fixed present
    obtain ⟨r, v, leaf⟩ := Tree.present_iff.mp present
    rcases accounted.authored I k with none | ⟨made, title, authorId, asked, table, titled, named⟩
    · rcases fixed with rfl | rfl
      · exact absurd leaf (none r v).1
      · exact absurd leaf (none r v).2
    · refine ⟨made, title, authorId, asked, table, Tree.eq_leaf ?_ ?_⟩
      · exact List.ne_nil_of_mem (Tree.mem_sub.mpr leaf)
      · rintro ⟨q, value⟩ member
        have stored := Tree.mem_sub.mp member
        rcases fixed with rfl | rfl
        · obtain ⟨rfl, rfl⟩ := titled q value stored
          rfl
        · obtain ⟨rfl, rfl⟩ := named q value stored
          rfl

/-! ## The store so far -/

/-- What a state of the store is the result of. -/
structure Recorded (w : World) (done : List (Nat × Action)) (s : Store) : Prop where
  run : Runs.exec step w (done.map Prod.snd) = some s.world
  sent : s.Sent
  made : ∀ device call, (device, .addNewList call) ∈ s.sent → (device, .addNewList call) ∈ done

namespace Recorded

theorem start {w : World} (initial : Initial w) : Recorded w [] (.start w) where
  run := rfl
  sent := by simp [Store.Sent, Store.start, initial.inflight]
  made := by simp [Store.start]

theorem advance {w : World} {done : List (Nat × Action)} {s t : Store} {l : Nat × Action} (recorded : Recorded w done s)
    (advanced : s.advance l = some t) : Recorded w (done ++ [l]) t := by
  obtain ⟨device, action⟩ := l
  obtain ⟨stepped, issued, issues, _, sent, _⟩ := Store.advance_spec advanced
  refine ⟨?_, recorded.sent.advance advanced, ?_⟩
  · rw [List.map_append]
    exact Runs.exec_concat recorded.run stepped
  · intro other call member
    rw [sent] at member
    rcases List.mem_append.mp member with old | new
    · refine List.mem_append_left _ (recorded.made other call ?_)
      unfold Store.kept at old
      split at old
      · exact List.mem_of_mem_erase old
      · exact List.mem_of_mem_erase old
      · exact old
    · obtain ⟨write, isIssued, same⟩ := List.mem_map.mp new
      cases same
      cases issues _ (Option.mem_toList.mp isIssued)
      simp

variable {w : World} {done : List (Nat × Action)} {s : Store}

theorem reachable (initial : Initial w) (recorded : Recorded w done s) : Reachable s.world := ⟨w, _, initial, recorded.run⟩

theorem accounted (initial : Initial w) (recorded : Recorded w done s) : Accounted w.db (done.map Prod.snd) s.world :=
  Runs.exec_history (fun _ _ _ _ accounted stepped => Accounted.step accounted stepped) [] (Accounted.start initial)
    recorded.run

theorem once (recorded : Recorded w done s) : AddedOnce (done.map Prod.snd) s.world :=
  Runs.exec_history (fun _ _ _ _ once stepped => AddedOnce.step once stepped) [] ⟨by simp, by simp⟩ recorded.run

/-- What a device sees is as it was made. -/
theorem asMade (initial : Initial w) (recorded : Recorded w done s) (device : Nat) :
    AsMade s.world.calls (done.map Prod.snd) (s.view device) := by
  obtain ⟨u, applied, db, calls⟩ := exec_applied (recorded.sent.own device)
  have accounted : Accounted w.db (done.map Prod.snd ++ _) u :=
    Runs.exec_history (fun _ _ _ _ accounted stepped => Accounted.step accounted stepped) _ (recorded.accounted initial) applied
  have seen := accounted.asMade
  rw [db, calls] at seen
  refine seen.mono (fun _ called => called) ?_
  intro l t a k asked
  rcases List.mem_append.mp asked with done | applied
  · exact done
  · simp at applied

/-- A list that a device sees is stored, or the device has made it. -/
theorem listed (initial : Initial w) (recorded : Recorded w done s) {device : Nat} {L : Key}
    (seen : (s.view device).Present [Keys.lists, L]) :
    s.world.db.Present [Keys.lists, L] ∨ ∃ call ∈ s.world.calls, call.newListKey = L ∧ (device, .addNewList call) ∈ done := by
  have sound := (recorded.reachable initial).sound
  have waiting : ∀ write ∈ ownWrites s.sent device, write ∈ s.world.inflight := (recorded.sent.own device).subset
  have origin : ∀ (writes : List Write) (db : Database), (∀ write ∈ writes, write.Valid) →
      (applyAll db writes).Present [Keys.lists, L] →
        db.Present [Keys.lists, L] ∨ ∃ call, .addNewList call ∈ writes ∧ call.newListKey = L := by
    intro writes
    induction writes with
    | nil => exact fun db _ present => .inl present
    | cons write rest ih =>
      intro db valid present
      obtain ⟨first, later⟩ := List.forall_mem_cons.mp valid
      rcases ih (write.apply db) later present with now | ⟨call, member, own⟩
      · obtain ⟨r, v, leaf⟩ := Tree.present_iff.mp now
        rw [List.cons_append, List.cons_append, List.nil_append, Write.mem_lists_apply first] at leaf
        have old : ∀ {r v}, (Keys.lists :: L :: r, v) ∈ db.leaves → db.Present [Keys.lists, L] :=
          fun stored => Tree.present_iff.mpr ⟨_, _, stored⟩
        cases write with
        | addNewList call =>
          rcases leaf with ⟨own, _⟩ | ⟨_, stored⟩
          · exact .inr ⟨call, List.mem_cons_self, own⟩
          · exact .inl (old stored)
        | removeList list usersDict => exact .inl (old leaf.2)
        | _ => exact .inl (old leaf)
      · exact .inr ⟨call, List.mem_cons_of_mem _ member, own⟩
  rcases origin _ _ (fun write own => sound.valid (waiting write own)) seen with stored | ⟨call, own, key⟩
  · exact .inl stored
  · exact .inr ⟨call, sound.issued _ (waiting _ own), key, recorded.made device call (mem_ownWrites.mp own)⟩

end Recorded
end SharedList
