import SharedList.Origins

/-!
The lives of records. A list record is stored once, never changes and does not
come back when it has been removed; so are the title and the author of an item,
although a late check can bring the rest of its record back. Both rest on the
auto ids: one write stores the record of an id, and it is answered once.
-/
namespace SharedList
open FrbUtils

/-! ## Lists -/

/-- A write in flight that finds a list's record and leaves one leaves it as it was. -/
theorem Sound.record_applied {w : World} (sound : Sound w) {write : Write} (inFlight : write ∈ w.inflight) {L : Key}
    (before : w.db.Present [Keys.lists, L]) (after : (write.apply w.db).Present [Keys.lists, L]) :
    (write.apply w.db).sub [Keys.lists, L] = w.db.sub [Keys.lists, L] := by
  have valid := sound.valid inFlight
  rw [sound.present_apply inFlight] at after
  refine Tree.sub_update w.db ?_
  cases write with
  | addNewList call =>
    have other : call.newListKey ≠ L := by
      rintro rfl
      exact sound.absent call inFlight before
    simp [Write.data, addNewList_changes, Apart, other, Ne.symm other]
  | removeList list usersDict => simp [Write.data, removeList_changes, Apart, after.1, Ne.symm after.1]
  | addNewItem | removeItem | reverseChecked =>
    obtain ⟨I, table⟩ := valid
    simp [Write.data, Update.changes, Item.serialize, reverseCheckedUpdate, Item.pathForKey, Item.path,
      segments_itemPath_items, Apart]
  | sendInvitation | removeInvitation => simp [Write.data, Update.changes, segments_invitationPath, Apart]
  | acceptInvitation => simp [-String.reduceAppend, Write.data, Update.changes, Apart]

/-- The record was stored and is not there any more. -/
structure ListGone (L : Key) (w : World) : Prop where
  sound : Sound w
  called : ∃ call ∈ w.calls, call.newListKey = L
  absent : ¬ w.db.Present [Keys.lists, L]
  answered : ∀ call, .addNewList call ∈ w.inflight → call.newListKey ≠ L

/-- A call of `AddNewList` gets an id that no call before it got. -/
theorem addNewList_fresh {w t : World} {call : NewList} (stepped : step w (.addNewList call) = some t) :
    ∀ other ∈ w.calls, other.newListKey ≠ call.newListKey := by
  intro other called same
  simp only [step, Option.ite_none_right_eq_some] at stepped
  refine stepped.1.1 ?_
  simp only [World.autoIds, List.mem_append, List.mem_flatMap]
  exact .inl ⟨other, called, by simp [same]⟩

theorem step_calls {w t : World} {action : Action} (stepped : step w action = some t) : ∀ call ∈ w.calls, call ∈ t.calls := by
  rcases step_cases stepped with ⟨other, rfl, rfl⟩ | ⟨write, signedIn, rfl, _⟩ | same
  · exact fun call called => List.mem_cons_of_mem _ called
  · obtain ⟨_, rfl⟩ := step_applied stepped
    exact fun _ called => called
  · rw [same.2]
    exact fun _ called => called

theorem ListGone.step {L : Key} {w t : World} {action : Action} (gone : ListGone L w) (stepped : step w action = some t) :
    ListGone L t := by
  obtain ⟨first, called, own⟩ := gone.called
  refine ⟨gone.sound.step stepped, ⟨first, step_calls stepped first called, own⟩, ?_, ?_⟩
  · rcases step_db stepped with same | ⟨write, signedIn, rfl, inFlight⟩
    · rw [same]
      exact gone.absent
    · obtain ⟨_, rfl⟩ := step_applied stepped
      rw [gone.sound.present_apply inFlight]
      cases write with
      | addNewList call => exact not_or.mpr ⟨gone.answered call inFlight, gone.absent⟩
      | removeList list usersDict => exact fun present => gone.absent present.2
      | _ => exact gone.absent
  · intro call waiting
    rcases step_issued stepped waiting with old | issues
    · exact gone.answered call old
    · cases issues
      rw [← own]
      exact (addNewList_fresh stepped first called).symm

/-- As long as the record is there it is this one. -/
structure ListLives (L : Key) (stored : Snapshot) (w : World) : Prop where
  sound : Sound w
  present : w.db.Present [Keys.lists, L]
  same : w.db.sub [Keys.lists, L] = stored

theorem ListLives.step {L : Key} {stored : Snapshot} {w t : World} {action : Action} (lives : ListLives L stored w)
    (stepped : step w action = some t) : ListLives L stored t ∨ ListGone L t := by
  have sound := lives.sound.step stepped
  by_cases present : t.db.Present [Keys.lists, L]
  · refine .inl ⟨sound, present, ?_⟩
    rcases step_db stepped with same | ⟨write, signedIn, rfl, inFlight⟩
    · rw [same]
      exact lives.same
    · obtain ⟨_, rfl⟩ := step_applied stepped
      exact (lives.sound.record_applied inFlight lives.present present).trans lives.same
  · obtain ⟨call, called, own⟩ := lives.sound.called_of_present lives.present
    refine .inr ⟨sound, ⟨call, step_calls stepped call called, own⟩, present, ?_⟩
    rintro other waiting rfl
    rcases step_issued stepped waiting with old | issues
    · exact lives.sound.absent other old lives.present
    · cases issues
      exact addNewList_fresh stepped call called own

/-- A list that is there at two moments of a run has lived ever between. -/
theorem listLives_between {w t u : World} (reachable : Reachable w) {first second : List Action}
    (toT : Runs.exec step w first = some t) (toU : Runs.exec step t second = some u) {L : Key}
    (before : w.db.Present [Keys.lists, L]) (after : u.db.Present [Keys.lists, L]) :
    ListLives L (w.db.sub [Keys.lists, L]) t := by
  have start : ListLives L (w.db.sub [Keys.lists, L]) w := ⟨reachable.sound, before, rfl⟩
  rcases Runs.exec_phase (fun _ _ _ lives => ListLives.step lives) (fun _ _ _ gone => ListGone.step gone) start toT with lives | gone
  · exact lives
  · exact absurd after (Runs.exec_invariant (fun _ _ _ gone => ListGone.step gone) gone toU).absent

/-- A list that is there at two moments of a run has been there ever between, with the same record. -/
theorem list_record_fixed {w t u : World} (reachable : Reachable w) {first second : List Action}
    (toT : Runs.exec step w first = some t) (toU : Runs.exec step t second = some u) {L : Key}
    (before : w.db.Present (listDbRef L.val)) (after : u.db.Present (listDbRef L.val)) :
    t.db.Present (listDbRef L.val) ∧ t.db.sub (listDbRef L.val) = w.db.sub (listDbRef L.val) := by
  rw [listDbRef_key] at before after ⊢
  have lives := listLives_between reachable toT toU before after
  exact ⟨lives.present, lives.same⟩

/-- Three moments of a run, the first and the last of which pass a test. -/
theorem moments_of_run {start : World} (initial : Initial start) {before first second : List Action} {test : World → Bool}
    (passed : ((Runs.exec step start before).bind fun w => (Runs.exec step w first).bind fun t =>
      (Runs.exec step t second).map fun u => test w && test u) = some true) :
    ∃ w t u, Reachable w ∧ Runs.exec step w first = some t ∧ Runs.exec step t second = some u ∧ test w = true ∧ test u = true := by
  obtain ⟨w, toW, later⟩ := Option.bind_eq_some_iff.mp passed
  obtain ⟨t, toT, last⟩ := Option.bind_eq_some_iff.mp later
  obtain ⟨u, toU, both⟩ := Option.map_eq_some_iff.mp last
  exact ⟨w, t, u, ⟨start, before, initial, toW⟩, toT, toU, Bool.and_eq_true_iff.mp both⟩

theorem list_record_fixed_checkedMilkRun : ∃ w t u, Reachable w ∧ Runs.exec step w [.loadList Sample.groceries] = some t ∧
    Runs.exec step t [.removeList Sample.aliceCall.object] = some u ∧
    w.db.Present (listDbRef Sample.groceries.val) ∧ u.db.Present (listDbRef Sample.groceries.val) ∧
    t.db.Present (listDbRef Sample.groceries.val) ∧
      t.db.sub (listDbRef Sample.groceries.val) = w.db.sub (listDbRef Sample.groceries.val) := by
  obtain ⟨w, t, u, reachable, toT, toU, before, after⟩ :=
    @moments_of_run _ (initial_registered Sample.alice "alice@mail") (checkedMilkRun.take 2) [.loadList Sample.groceries]
      [.removeList Sample.aliceCall.object] (fun w => decide (w.db.Present (listDbRef Sample.groceries.val))) (by decide +kernel)
  have before := of_decide_eq_true before
  have after := of_decide_eq_true after
  exact ⟨w, t, u, reachable, toT, toU, before, after, list_record_fixed reachable toT toU before after⟩

/-! ## Items -/

/-- The fields of an item record that only `AddNewItem` writes. -/
def ItemKeys.Fixed (f : ItemKeys) : Prop := f = .title ∨ f = .author_id

/-- The write stores the item of this id. -/
def Write.addsItem (k : Key) : Write → Bool
  | .addNewItem _ newItemKey _ _ => newItemKey = k
  | _ => false

/-- What lies at or below a fixed field after a write is stored by it or was there before. -/
theorem Write.mem_fixed_apply {write : Write} (valid : write.Valid) {db : Database} {I k : Key} {f : ItemKeys}
    (fixed : f.Fixed) {r : List Key} {v : Value}
    (leaf : (Keys.items :: I :: Keys.items :: k :: f.rawValue :: r, v) ∈ (write.apply db).leaves) :
    write.addsItem k = true ∨ (Keys.items :: I :: Keys.items :: k :: f.rawValue :: r, v) ∈ db.leaves := by
  rw [Write.mem_items_apply valid] at leaf
  cases write with
  | addNewItem list newItemKey title authorId =>
    rcases leaf with ⟨here, _⟩ | ⟨_, old⟩
    · exact .inl (decide_eq_true here.2)
    · exact .inr old
  | reverseChecked item userId =>
    rcases leaf with ⟨_, new | old⟩ | ⟨_, old⟩
    · rcases fixed with rfl | rfl <;> simp [reversedFields, ItemKeys.rawValue] at new
    · exact .inr old.1
    · exact .inr old
  | removeList list usersDict => exact .inr leaf.2
  | removeItem item => exact .inr leaf.2
  | _ => exact .inr leaf

/-- The items that are being stored have ids of their own, and so have those that are stored. -/
structure ItemsOnce (w : World) : Prop where
  sound : Sound w
  numbered : ∀ k, 0 < w.inflight.countP (Write.addsItem k) → k ∈ w.itemKeys
  once : ∀ k, w.inflight.countP (Write.addsItem k) ≤ 1
  stored : ∀ (I k : Key) (f : ItemKeys), f.Fixed → w.db.Present [Keys.items, I, Keys.items, k, f.rawValue] →
    k ∈ w.itemKeys ∧ w.inflight.countP (Write.addsItem k) = 0

theorem step_itemKeys {w t : World} {action : Action} (stepped : step w action = some t) :
    (∃ list title authorId newItemKey, action = .addNewItem list title authorId newItemKey ∧ newItemKey ∉ w.itemKeys ∧
      t = World.issue { w with itemKeys := newItemKey :: w.itemKeys } (.addNewItem list newItemKey title authorId)) ∨
    (t.itemKeys = w.itemKeys ∧ ∀ list title authorId newItemKey, action ≠ .addNewItem list title authorId newItemKey) := by
  cases action with
  | addNewItem list title authorId newItemKey =>
    simp only [step, Option.ite_none_right_eq_some, Option.some.injEq] at stepped
    obtain ⟨⟨_, fresh⟩, rfl⟩ := stepped
    exact .inl ⟨list, title, authorId, newItemKey, rfl, fun known => fresh (List.mem_append_right _ known), rfl⟩
  | loadList id =>
    simp only [step, Option.bind_eq_bind, Option.bind_eq_some_iff, Option.pure_def, Option.some.injEq] at stepped
    obtain ⟨_, _, rfl⟩ := stepped
    exact .inr ⟨rfl, by simp⟩
  | removeListUsers list =>
    simp only [step, Option.bind_eq_bind, Option.pure_def, Option.ite_none_right_eq_some,
      Option.bind_eq_some_iff, Option.some.injEq] at stepped
    obtain ⟨_, _, _, rfl⟩ := stepped
    exact .inr ⟨rfl, by simp⟩
  | acceptInvitation | removeInvitation => cases stepped; exact .inr ⟨rfl, by simp⟩
  | _ =>
    simp only [step, Option.ite_none_right_eq_some, Option.some.injEq] at stepped
    obtain ⟨_, rfl⟩ := stepped
    exact .inr ⟨rfl, by simp⟩

/-- No other step than `AddNewItem` puts a write in flight that stores an item. -/
theorem countP_addsItem {w t : World} {action : Action} (stepped : step w action = some t)
    (other : ∀ list title authorId newItemKey, action ≠ .addNewItem list title authorId newItemKey) (k : Key) :
    t.inflight.countP (Write.addsItem k) = (remaining w action).countP (Write.addsItem k) := by
  obtain ⟨issued, origin, same⟩ := step_inFlight stepped
  have adds : issued.toList.countP (Write.addsItem k) = 0 := by
    rw [List.countP_eq_zero]
    intro write member
    cases origin write (Option.mem_toList.mp member) with
    | addNewItem list title authorId newItemKey => exact absurd rfl (other list title authorId newItemKey)
    | _ => simp [Write.addsItem]
  rw [same, List.countP_append, adds, Nat.add_zero]

/-- A write that stores an item and is answered is taken out of flight. -/
theorem countP_answered {w : World} {write : Write} (waiting : write ∈ w.inflight) {k : Key} (adds : write.addsItem k = true) :
    (w.inflight.erase write).countP (Write.addsItem k) + 1 = w.inflight.countP (Write.addsItem k) := by
  rw [(List.perm_cons_erase waiting).countP_eq, List.countP_cons_of_pos adds]

theorem ItemsOnce.start {w : World} (initial : Initial w) : ItemsOnce w where
  sound := Sound.start initial
  numbered := by simp [initial.inflight]
  once := by simp [initial.inflight]
  stored := by
    rintro I k f _ ⟨⟨_, v⟩, leaf, r, rfl⟩
    obtain ⟨u, field, s, path, _⟩ := initial.users _ leaf
    simp at path

theorem ItemsOnce.step {w t : World} {action : Action} (items : ItemsOnce w) (stepped : step w action = some t) :
    ItemsOnce t := by
  have sound := items.sound.step stepped
  rcases step_itemKeys stepped with ⟨list, title, authorId, newItemKey, rfl, fresh, rfl⟩ | ⟨sameKeys, other⟩
  · -- The new id was not given out before, so no write in flight stores its item.
    have unknown : w.inflight.countP (Write.addsItem newItemKey) = 0 := by
      by_contra some
      exact fresh (items.numbered newItemKey (Nat.pos_of_ne_zero some))
    have counted : ∀ k, (World.issue { w with itemKeys := newItemKey :: w.itemKeys }
        (.addNewItem list newItemKey title authorId)).inflight.countP (Write.addsItem k) =
          w.inflight.countP (Write.addsItem k) + if newItemKey = k then 1 else 0 := by
      intro k
      simp [World.issue, List.countP_append, List.countP_singleton, Write.addsItem]
    refine ⟨sound, ?_, ?_, ?_⟩
    · intro k some
      rw [counted] at some
      by_cases here : newItemKey = k
      · simp [World.issue, here]
      · rw [if_neg here] at some
        exact List.mem_cons_of_mem _ (items.numbered k some)
    · intro k
      rw [counted]
      by_cases here : newItemKey = k
      · subst here
        rw [unknown, if_pos rfl]
      · rw [if_neg here]
        exact items.once k
    · intro I k f fixed present
      obtain ⟨known, none⟩ := items.stored I k f fixed present
      have here : newItemKey ≠ k := by
        rintro rfl
        exact fresh known
      rw [counted, if_neg here]
      exact ⟨List.mem_cons_of_mem _ known, none⟩
  · have counted := countP_addsItem stepped other
    have fewer : ∀ k, t.inflight.countP (Write.addsItem k) ≤ w.inflight.countP (Write.addsItem k) := by
      intro k
      rw [counted k]
      exact (remaining_sublist w action).countP_le
    refine ⟨sound, ?_, fun k => (fewer k).trans (items.once k), ?_⟩
    · intro k some
      rw [sameKeys]
      exact items.numbered k (Nat.lt_of_lt_of_le some (fewer k))
    · intro I k f fixed present
      rw [sameKeys]
      rcases step_db stepped with same | ⟨write, signedIn, rfl, inFlight⟩
      · rw [same] at present
        obtain ⟨known, none⟩ := items.stored I k f fixed present
        exact ⟨known, Nat.le_zero.mp (none ▸ fewer k)⟩
      · obtain ⟨r, v, leaf⟩ := Tree.present_iff.mp present
        rw [(step_applied stepped).2] at leaf
        rcases Write.mem_fixed_apply (items.sound.valid inFlight) fixed leaf with adds | old
        · have answered := countP_answered inFlight adds
          have most := items.once k
          refine ⟨items.numbered k (by omega), ?_⟩
          rw [counted k]
          show (w.inflight.erase write).countP _ = 0
          omega
        · obtain ⟨known, none⟩ := items.stored I k f fixed (Tree.present_iff.mpr ⟨r, v, old⟩)
          exact ⟨known, Nat.le_zero.mp (none ▸ fewer k)⟩

theorem Reachable.itemsOnce {w : World} (reachable : Reachable w) : ItemsOnce w := by
  obtain ⟨start, actions, initial, reached⟩ := reachable
  exact Runs.exec_invariant (fun _ _ _ items stepped => ItemsOnce.step items stepped) (ItemsOnce.start initial) reached

/-- A write in flight that finds a fixed field and leaves one leaves it as it was. -/
theorem ItemsOnce.field_applied {w : World} (items : ItemsOnce w) {write : Write} (inFlight : write ∈ w.inflight)
    {I k : Key} {f : ItemKeys} (fixed : f.Fixed) (before : w.db.Present [Keys.items, I, Keys.items, k, f.rawValue])
    (after : (write.apply w.db).Present [Keys.items, I, Keys.items, k, f.rawValue]) :
    (write.apply w.db).sub [Keys.items, I, Keys.items, k, f.rawValue] =
      w.db.sub [Keys.items, I, Keys.items, k, f.rawValue] := by
  have valid := items.sound.valid inFlight
  obtain ⟨r, v, leaf⟩ := Tree.present_iff.mp after
  have effect : (Keys.items :: I :: Keys.items :: k :: f.rawValue :: r, v) ∈ (write.apply w.db).leaves := leaf
  rw [Write.mem_items_apply valid] at effect
  refine Tree.sub_update w.db ?_
  cases write with
  | addNewList call => simp [Write.data, addNewList_changes, Apart]
  | removeList list usersDict =>
    obtain ⟨⟨J, table⟩, _⟩ := valid
    have other : J ≠ I := by
      rintro rfl
      exact effect.1 table
    simp [Write.data, removeList_changes, table, Apart, other, Ne.symm other]
  | addNewItem list newItemKey title authorId =>
    obtain ⟨J, table⟩ := valid
    have other : newItemKey ≠ k := by
      rintro rfl
      have none := (items.stored I newItemKey f fixed before).2
      rw [List.countP_eq_zero] at none
      exact none _ inFlight (by simp [Write.addsItem])
    simp [Write.data, serialize_changes table, Tree.fieldChanges, itemFields, Apart, other, Ne.symm other]
  | removeItem item =>
    obtain ⟨J, table⟩ := valid
    have other : J = I → item.id ≠ k := by
      rintro rfl same
      exact effect.1 ⟨table, same⟩
    simp [Write.data, Update.changes, table, Apart]
    tauto
  | reverseChecked item userId =>
    obtain ⟨J, table⟩ := valid
    rcases fixed with rfl | rfl
    · simp [Write.data, reverseChecked_changes table, Tree.fieldChanges, reversedFields, ItemKeys.rawValue, Apart]
    · simp [Write.data, reverseChecked_changes table, Tree.fieldChanges, reversedFields, ItemKeys.rawValue, Apart]
  | sendInvitation | removeInvitation => simp [Write.data, Update.changes, segments_invitationPath, Apart]
  | acceptInvitation => simp [-String.reduceAppend, Write.data, Update.changes, Apart]

section
variable (I k : Key) (f : ItemKeys)

/-- The field was stored and is not there any more. -/
structure FieldGone (w : World) : Prop where
  items : ItemsOnce w
  known : k ∈ w.itemKeys
  answered : w.inflight.countP (Write.addsItem k) = 0
  absent : ¬ w.db.Present [Keys.items, I, Keys.items, k, f.rawValue]

/-- As long as the field is there it has this value. -/
structure FieldLives (stored : Snapshot) (w : World) : Prop where
  items : ItemsOnce w
  present : w.db.Present [Keys.items, I, Keys.items, k, f.rawValue]
  same : w.db.sub [Keys.items, I, Keys.items, k, f.rawValue] = stored

end

/-- An id that has been given out and whose write has been answered stays so. -/
theorem answered_step {w t : World} {action : Action} {k : Key} (known : k ∈ w.itemKeys)
    (answered : w.inflight.countP (Write.addsItem k) = 0) (stepped : step w action = some t) :
    k ∈ t.itemKeys ∧ t.inflight.countP (Write.addsItem k) = 0 := by
  rcases step_itemKeys stepped with ⟨list, title, authorId, newItemKey, rfl, fresh, rfl⟩ | ⟨sameKeys, other⟩
  · have here : newItemKey ≠ k := by
      rintro rfl
      exact fresh known
    refine ⟨List.mem_cons_of_mem _ known, ?_⟩
    simp [World.issue, List.countP_append, Write.addsItem, answered, here]
  · rw [sameKeys, countP_addsItem stepped other]
    exact ⟨known, Nat.le_zero.mp (answered ▸ (remaining_sublist w action).countP_le)⟩

theorem FieldGone.step {I k : Key} {f : ItemKeys} (fixed : f.Fixed) {w t : World} {action : Action}
    (gone : FieldGone I k f w) (stepped : step w action = some t) : FieldGone I k f t := by
  obtain ⟨known, answered⟩ := answered_step gone.known gone.answered stepped
  refine ⟨gone.items.step stepped, known, answered, ?_⟩
  rcases step_db stepped with same | ⟨write, signedIn, rfl, inFlight⟩
  · rw [same]
    exact gone.absent
  · rw [(step_applied stepped).2]
    intro present
    obtain ⟨r, v, leaf⟩ := Tree.present_iff.mp present
    rcases Write.mem_fixed_apply (gone.items.sound.valid inFlight) fixed leaf with adds | old
    · exact List.countP_eq_zero.mp gone.answered write inFlight adds
    · exact gone.absent (Tree.present_iff.mpr ⟨r, v, old⟩)

theorem FieldLives.step {I k : Key} {f : ItemKeys} (fixed : f.Fixed) {stored : Snapshot} {w t : World} {action : Action}
    (lives : FieldLives I k f stored w) (stepped : step w action = some t) : FieldLives I k f stored t ∨ FieldGone I k f t := by
  have items := lives.items.step stepped
  by_cases present : t.db.Present [Keys.items, I, Keys.items, k, f.rawValue]
  · refine .inl ⟨items, present, ?_⟩
    rcases step_db stepped with same | ⟨write, signedIn, rfl, inFlight⟩
    · rw [same]
      exact lives.same
    · rw [(step_applied stepped).2] at present ⊢
      exact (lives.items.field_applied inFlight fixed lives.present present).trans lives.same
  · obtain ⟨known, answered⟩ := lives.items.stored I k f fixed lives.present
    obtain ⟨stillKnown, stillAnswered⟩ := answered_step known answered stepped
    exact .inr ⟨items, stillKnown, stillAnswered, present⟩

/-- A fixed field that is there at two moments of a run has lived ever between. -/
theorem fieldLives_between {w t u : World} (reachable : Reachable w) {first second : List Action}
    (toT : Runs.exec step w first = some t) (toU : Runs.exec step t second = some u) {I k : Key} {f : ItemKeys}
    (fixed : f.Fixed) (before : w.db.Present [Keys.items, I, Keys.items, k, f.rawValue])
    (after : u.db.Present [Keys.items, I, Keys.items, k, f.rawValue]) :
    FieldLives I k f (w.db.sub [Keys.items, I, Keys.items, k, f.rawValue]) t := by
  have start : FieldLives I k f (w.db.sub [Keys.items, I, Keys.items, k, f.rawValue]) w := ⟨reachable.itemsOnce, before, rfl⟩
  rcases Runs.exec_phase (fun _ _ _ lives => FieldLives.step fixed lives) (fun _ _ _ gone => FieldGone.step fixed gone) start toT
    with lives | gone
  · exact lives
  · exact absurd after (Runs.exec_invariant (fun _ _ _ gone => FieldGone.step fixed gone) gone toU).absent

/-- The title or the author of an item that is there at two moments of a run has been there ever
    between, and the same. -/
theorem item_field_fixed {w t u : World} (reachable : Reachable w) {first second : List Action}
    (toT : Runs.exec step w first = some t) (toU : Runs.exec step t second = some u) {I k : Key} {f : ItemKeys}
    (fixed : f.Fixed) (before : w.db.Present (child (itemDbRef I.val k.val) f.rawValue.val))
    (after : u.db.Present (child (itemDbRef I.val k.val) f.rawValue.val)) :
    t.db.Present (child (itemDbRef I.val k.val) f.rawValue.val) ∧
      t.db.sub (child (itemDbRef I.val k.val) f.rawValue.val) = w.db.sub (child (itemDbRef I.val k.val) f.rawValue.val) := by
  rw [child_key, itemDbRef_key] at before after ⊢
  have lives := fieldLives_between reachable toT toU fixed before after
  exact ⟨lives.present, lives.same⟩

theorem item_field_fixed_checkedMilkRun : ∃ w t u, Reachable w ∧
    Runs.exec step w [.reverseChecked Sample.milkItem Sample.alice] = some t ∧
    Runs.exec step t [.applied (.reverseChecked Sample.milkItem Sample.alice) none] = some u ∧
    t.db.sub (child (itemDbRef Sample.groceryItems.val Sample.milk.val) Keys.title.val) =
      w.db.sub (child (itemDbRef Sample.groceryItems.val Sample.milk.val) Keys.title.val) := by
  obtain ⟨w, t, u, reachable, toT, toU, before, after⟩ :=
    @moments_of_run _ (initial_registered Sample.alice "alice@mail") (checkedMilkRun.take 5)
      [.reverseChecked Sample.milkItem Sample.alice] [.applied (.reverseChecked Sample.milkItem Sample.alice) none]
      (fun w => decide (w.db.Present (child (itemDbRef Sample.groceryItems.val Sample.milk.val) Keys.title.val)))
      (by decide +kernel)
  have fixed : ItemKeys.title.Fixed := .inl rfl
  exact ⟨w, t, u, reachable, toT, toU, (item_field_fixed reachable toT toU fixed (of_decide_eq_true before) (of_decide_eq_true after)).2⟩

end SharedList
