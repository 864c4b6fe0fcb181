import SharedList.ListRecords

/-!
The item records under `items/<I>/items`. `AddNewItem` stores four fields, the
removals take whole records away, and `ReverseChecked` sets two fields without
looking whether the record is still there. The two fields always agree with
each other; the record is complete as long as every check finds it.
-/
namespace SharedList
open FrbUtils

/-- `Item.Deserialize` succeeds on every record that is there. -/
def ItemsComplete (db : Database) : Prop :=
  ∀ I k : Key, db.Present (itemDbRef I.val k.val) →
    (Item.deserialize I.val k (db.sub (itemDbRef I.val k.val))).isSome

/-- A `ReverseChecked` write arrives while its item's record is there. -/
def FindsItem (w : World) : Action → Prop
  | .applied (.reverseChecked item _) _ => w.db.Present (itemDbRef item.itemsId item.id.val)
  | _ => True

theorem present_items {db : Database} {I k : Key} :
    db.Present (itemDbRef I.val k.val) ↔ ∃ r v, (Keys.items :: I :: Keys.items :: k :: r, v) ∈ db.leaves := by
  rw [itemDbRef_key]
  exact Tree.present_iff

theorem decodes_iff {db : Database} {I k : Key} :
    (Item.deserialize I.val k (db.sub (itemDbRef I.val k.val))).isSome ↔
      (∃ s, (Keys.items :: I :: Keys.items :: k :: [Keys.title], Value.string s) ∈ db.leaves) ∧
      (∃ b, (Keys.items :: I :: Keys.items :: k :: [Keys.checked], Value.bool b) ∈ db.leaves) ∧
      (∃ s, (Keys.items :: I :: Keys.items :: k :: [Keys.author_id], Value.string s) ∈ db.leaves) ∧
      ∃ s, (Keys.items :: I :: Keys.items :: k :: [Keys.checked_by_id], Value.string s) ∈ db.leaves := by
  simp only [Item.deserialize_isSome, Tree.mem_sub, itemDbRef_key, List.cons_append, List.nil_append]

/-- A write whose checks find their record keeps the records complete. -/
theorem itemsComplete_apply {db : Database} {write : Write} (valid : write.Valid) (complete : ItemsComplete db)
    (finds : ∀ item userId, write = .reverseChecked item userId → db.Present (itemDbRef item.itemsId item.id.val)) :
    ItemsComplete (write.apply db) := by
  intro I k present
  obtain ⟨r, v, leaf⟩ := present_items.mp present
  have effect := fun r v => @Write.mem_items_apply write db I k r v valid
  rw [effect] at leaf
  simp only [decodes_iff, effect]
  have old : (Keys.items :: I :: Keys.items :: k :: r, v) ∈ db.leaves → _ :=
    fun leaf => decodes_iff.mp (complete I k (present_items.mpr ⟨r, v, leaf⟩))
  cases write with
  | removeList list us => simpa [leaf.1] using old leaf.2
  | removeItem item => simpa [leaf.1] using old leaf.2
  | addNewItem list newItemKey title authorId =>
    by_cases here : list.items_id = I.val ∧ newItemKey = k
    · simp [here, itemFields]
    · simp only [here, false_and, not_false_eq_true, true_and, false_or] at leaf ⊢
      exact old leaf
  | reverseChecked item userId =>
    by_cases here : item.itemsId = I.val ∧ item.id = k
    · have found := finds item userId rfl
      rw [here.1, here.2] at found
      obtain ⟨⟨title, atTitle⟩, _, ⟨author, atAuthor⟩, _⟩ := decodes_iff.mp (complete I k found)
      simp [here, reversedFields]
      exact ⟨⟨title, atTitle⟩, ⟨author, atAuthor⟩⟩
    · simp only [here, false_and, not_false_eq_true, true_and, false_or] at leaf ⊢
      exact old leaf
  | _ => exact old leaf

/-- A check that finds no record leaves one with two fields. -/
theorem itemsComplete_broken {db : Database} {item : Item} {userId : Key} (valid : (Write.reverseChecked item userId).Valid)
    (missing : ¬ db.Present (itemDbRef item.itemsId item.id.val)) :
    ¬ ItemsComplete ((Write.reverseChecked item userId).apply db) := by
  obtain ⟨I, table⟩ := id valid
  rw [table] at missing
  have effect := fun r v => @Write.mem_items_apply _ db I item.id r v valid
  have nothing : ∀ r v, (Keys.items :: I :: Keys.items :: item.id :: r, v) ∉ db.leaves :=
    fun r v leaf => missing (present_items.mpr ⟨r, v, leaf⟩)
  intro complete
  have present : ((Write.reverseChecked item userId).apply db).Present (itemDbRef I.val item.id.val) := by
    refine present_items.mpr ⟨[Keys.checked], .bool (!item.checked), ?_⟩
    rw [effect]
    simp [table, reversedFields]
  obtain ⟨⟨title, atTitle⟩, _⟩ := decodes_iff.mp (complete I item.id present)
  rw [effect] at atTitle
  simp [table, nothing, reversedFields] at atTitle

/-- In a run from a database without lists every item record is complete in every
    state exactly when every check that is applied finds its record. -/
theorem items_complete_iff {start : World} (initial : Initial start) (actions : List Action) :
    Runs.Always step (fun w => ItemsComplete w.db) start actions ↔ Runs.Along step FindsItem start actions := by
  refine @Runs.always_iff_along _ _ _ _ (fun w => Sound w ∧ ItemsComplete w.db) _ (fun _ inv => inv.2) ?_ ?_ _ ?_ actions
  · intro w action t inv finds stepped
    refine ⟨inv.1.step stepped, ?_⟩
    rcases step_db stepped with same | ⟨write, signedIn, rfl, inFlight⟩
    · rw [same]
      exact inv.2
    · obtain ⟨_, rfl⟩ := step_applied stepped
      refine itemsComplete_apply (inv.1.valid inFlight) inv.2 ?_
      rintro item userId rfl
      exact finds
  · intro w action t inv outside stepped
    unfold FindsItem at outside
    split at outside
    · obtain ⟨inFlight, rfl⟩ := step_applied stepped
      exact itemsComplete_broken (inv.1.valid inFlight) outside
    · exact absurd trivial outside
  · refine ⟨Sound.start initial, ?_⟩
    intro I k present
    obtain ⟨r, v, leaf⟩ := present_items.mp present
    obtain ⟨u, field, s, path, _⟩ := initial.users _ leaf
    simp at path

/-- Alice checks the item on one device, whose copy is old, and removes it on another. -/
def lateCheckRun : List Action :=
  open Sample in
  [.addNewList aliceCall, .applied (.addNewList aliceCall) (some alice), .loadList groceries,
   .addNewItem aliceCall.object "Milk" alice milk, .applied (.addNewItem aliceCall.object milk "Milk" alice) (some alice),
   .reverseChecked milkItem alice, .removeItem milkItem, .applied (.removeItem milkItem) (some alice),
   .applied (.reverseChecked milkItem alice) (some alice)]

theorem late_check_brings_item_back :
    ¬ ∀ start actions, Initial start → Runs.Always step (fun w => ItemsComplete w.db) start actions := by
  intro claim
  have always := claim (World.registered Sample.alice "alice@mail") lateCheckRun (initial_registered ..)
  have passed : (Runs.exec step (World.registered Sample.alice "alice@mail") lateCheckRun).any (fun w => decide
      (w.db.Present (itemDbRef Sample.groceryItems.val Sample.milk.val) ∧
        Item.deserialize Sample.groceryItems.val Sample.milk
          (w.db.sub (itemDbRef Sample.groceryItems.val Sample.milk.val)) = none)) = true := by
    decide +kernel
  obtain ⟨w, complete, partly⟩ := always.of_any passed
  obtain ⟨present, fails⟩ := of_decide_eq_true partly
  have decodes := complete Sample.groceryItems Sample.milk present
  simp [fails] at decodes

theorem items_complete_iff_lateCheckRun :
    Runs.Always step (fun w => ItemsComplete w.db) (World.registered Sample.alice "alice@mail") lateCheckRun ↔
      Runs.Along step FindsItem (World.registered Sample.alice "alice@mail") lateCheckRun :=
  items_complete_iff (initial_registered Sample.alice "alice@mail") lateCheckRun

/-! ## Checked and checked by whom -/

/-- Both fields are there or neither is, and the item is checked exactly when a user is named. -/
def ChecksAgree (db : Database) : Prop :=
  ∀ I k : Key,
    (db.Present (child (itemDbRef I.val k.val) ItemKeys.checked.rawValue.val) ↔
      db.Present (child (itemDbRef I.val k.val) ItemKeys.checked_by_id.rawValue.val)) ∧
    (db.Present (child (itemDbRef I.val k.val) ItemKeys.checked.rawValue.val) →
      ∃ b s, boolAt (db.sub (itemDbRef I.val k.val)) ItemKeys.checked.rawValue = some b ∧
        stringAt (db.sub (itemDbRef I.val k.val)) ItemKeys.checked_by_id.rawValue = some s ∧ (b = true ↔ s ≠ "NONE"))

/-- No user id is the word for nobody. -/
def RealUser : World → Action → Prop
  | _, .reverseChecked _ userId => userId.val ≠ "NONE"
  | _, _ => True

/-- The two fields of one item, as leaves of the database. -/
def Agree (db : Database) (I k : Key) : Prop :=
  (∀ r v, (Keys.items :: I :: Keys.items :: k :: Keys.checked :: r, v) ∉ db.leaves ∧
    (Keys.items :: I :: Keys.items :: k :: Keys.checked_by_id :: r, v) ∉ db.leaves) ∨
  ∃ b s, (Keys.items :: I :: Keys.items :: k :: [Keys.checked], Value.bool b) ∈ db.leaves ∧
    (Keys.items :: I :: Keys.items :: k :: [Keys.checked_by_id], Value.string s) ∈ db.leaves ∧ (b = true ↔ s ≠ "NONE")

theorem checksAgree_of_agree {db : Database} (agree : ∀ I k, Agree db I k) : ChecksAgree db := by
  intro I k
  have present : ∀ field : Key, db.Present (child (itemDbRef I.val k.val) field.val) ↔
      ∃ r v, (Keys.items :: I :: Keys.items :: k :: field :: r, v) ∈ db.leaves := by
    intro field
    rw [child, segments_key, itemDbRef_key]
    exact Tree.present_iff
  rw [present, present]
  simp only [stringAt_eq_some, boolAt_eq_some, Tree.mem_sub, itemDbRef_key, List.cons_append, List.nil_append]
  rcases agree I k with nothing | ⟨b, s, atChecked, atBy, same⟩
  · constructor
    · exact iff_of_false (fun ⟨r, v, leaf⟩ => (nothing r v).1 leaf) (fun ⟨r, v, leaf⟩ => (nothing r v).2 leaf)
    · exact fun ⟨r, v, leaf⟩ => absurd leaf (nothing r v).1
  · exact ⟨iff_of_true ⟨_, _, atChecked⟩ ⟨_, _, atBy⟩, fun _ => ⟨b, s, atChecked, atBy, same⟩⟩

/-- Every write sets both fields of an item, removes both or touches neither. -/
theorem agree_apply {db : Database} {write : Write} (valid : write.Valid) (agree : ∀ I k, Agree db I k)
    (real : ∀ item userId, write = .reverseChecked item userId → userId.val ≠ "NONE") (I k : Key) :
    Agree (write.apply db) I k := by
  have effect := fun r v => @Write.mem_items_apply write db I k r v valid
  have before := agree I k
  unfold Agree at before ⊢
  simp only [effect]
  cases write with
  | removeList list us =>
    by_cases here : list.items_id = I.val
    · simp [here]
    · simpa [here] using before
  | removeItem item =>
    by_cases here : item.itemsId = I.val ∧ item.id = k
    · simp [here]
    · simpa only [here, false_and, not_false_eq_true, true_and, false_or] using before
  | addNewItem list newItemKey title authorId =>
    by_cases here : list.items_id = I.val ∧ newItemKey = k
    · refine .inr ⟨false, "NONE", ?_⟩
      simp [here, itemFields]
    · simpa only [here, false_and, not_false_eq_true, true_and, false_or] using before
  | reverseChecked item userId =>
    by_cases here : item.itemsId = I.val ∧ item.id = k
    · refine .inr ⟨!item.checked, if !item.checked then userId.val else "NONE", ?_⟩
      have user := real item userId rfl
      cases checked : item.checked <;> simp [here, reversedFields, checked, user]
    · simpa only [here, false_and, not_false_eq_true, true_and, false_or] using before
  | _ => exact before

/-- In every run in which no user is called `NONE` the two fields agree in every state. -/
theorem checks_agree {start : World} (initial : Initial start) {actions : List Action}
    (real : Runs.Along step RealUser start actions) :
    Runs.Always step (fun w => ChecksAgree w.db) start actions := by
  let inv := fun w : World => Sound w ∧ (∀ item userId, .reverseChecked item userId ∈ w.inflight → userId.val ≠ "NONE") ∧
    ∀ I k, Agree w.db I k
  have base : inv start := by
    refine ⟨Sound.start initial, by simp [initial.inflight], ?_⟩
    refine fun I k => .inl fun r v => ⟨?_, ?_⟩
    all_goals
      intro leaf
      obtain ⟨u, field, s, path, _⟩ := initial.users _ leaf
      simp at path
  have keep : ∀ w action t, inv w → RealUser w action → step w action = some t → inv t := by
    rintro w action t ⟨sound, users, agree⟩ real stepped
    refine ⟨sound.step stepped, ?_, ?_⟩
    · intro item userId waiting
      rcases step_reverseChecked stepped waiting with old | rfl
      · exact users item userId old
      · exact real
    · rcases step_db stepped with same | ⟨write, signedIn, rfl, inFlight⟩
      · rw [same]
        exact agree
      · obtain ⟨_, rfl⟩ := step_applied stepped
        refine agree_apply (sound.valid inFlight) agree ?_
        rintro item userId rfl
        exact users item userId inFlight
  exact (Runs.always_of_invariant keep base real).mono fun _ inv => checksAgree_of_agree inv.2.2

theorem checks_agree_lateCheckRun :
    Runs.Always step (fun w => ChecksAgree w.db) (World.registered Sample.alice "alice@mail") lateCheckRun := by
  refine checks_agree (initial_registered Sample.alice "alice@mail") ?_
  simp [Runs.Along, lateCheckRun, RealUser]

end SharedList
