import SharedList.ItemsLoad
import SharedList.Rows
import SharedList.Writes
import Mathlib.Data.List.InsertIdx

/-!
`SingleListViewController`: a tap on a row. An unchecked item is checked at once.
A checked one is asked for in a popup, whose button keeps the number of the row
and not the item; until it is pressed, items come and go.
-/
namespace SharedList.SingleListManager

namespace State

def getItem (s : State) (idx : Nat) : Option ItemWithObserver := if idx < s.data.length then s.data[idx]? else none

/-- `newChecked ? authManager.currentUser!.id : "NONE"` -/
def checkedByValue (newChecked : Bool) (currentUser : Option Key) : Option String :=
  if newChecked then currentUser.map Key.val else some "NONE"

/-- `ReverseChecked`; `none` is an index outside `data`, or no user where one is needed. -/
def reverseChecked (s : State) (index : Nat) (currentUser : Option Key) : Option Update := do
  let entry ← s.data[index]?
  let newChecked := !entry.item.checked
  let checkedByValue ← checkedByValue newChecked currentUser
  return [(entry.item.pathForKey .checked, bool newChecked), (entry.item.pathForKey .checked_by_id, string checkedByValue)]

/-- What a tap leads to. -/
inductive Tapped where
  | nothing
  /-- The popup, whose button calls `ReverseChecked(index: row)`. -/
  | popup (row : Nat)
  | reversed (update : Option Update)
deriving DecidableEq

def didSelectRowAt (s : State) (row : Nat) (currentUser : Option Key) : Tapped :=
  match s.getItem row with
  | some entry => if entry.item.checked then .popup row else .reversed (s.reverseChecked row currentUser)
  | none => .nothing

end State

/-- An `Item` object, with what is fixed in it. -/
def identity (entry : ItemWithObserver) : Nat × String × Key := (entry.ref, entry.item.itemsId, entry.item.id)
def State.shown (s : State) : List (Nat × String × Key) := s.data.map identity

/-- `ReverseChecked` of the row finds an item there, it is the one that was tapped,
    and nothing else is written to. -/
def TogglesTapped (row : Nat) (tapped : ItemWithObserver) (s : State) : Prop :=
  ∃ entry, s.data[row]? = some entry ∧ identity entry = identity tapped ∧
    ∀ currentUser update, s.reverseChecked row currentUser = some update →
      ∀ d ∈ update, ∃ f, d.1 = tapped.item.pathForKey f

/-- No item is removed that stands in the row or before it. -/
def KeepsRow (row : Nat) (s : State) : Input → Prop
  | .itemsChildRemoved itemId => ∀ index, s.findItemIndex itemId = some index → row < index
  | _ => True

theorem reverseChecked_paths {s : State} {row : Nat} {entry tapped : ItemWithObserver} (stands : s.data[row]? = some entry)
    (same : identity entry = identity tapped) {currentUser : Option Key} {update : Update}
    (reversed : s.reverseChecked row currentUser = some update) : ∀ d ∈ update, ∃ f, d.1 = tapped.item.pathForKey f := by
  obtain ⟨_, sameItems, sameId⟩ : entry.ref = tapped.ref ∧ entry.item.itemsId = tapped.item.itemsId ∧
      entry.item.id = tapped.item.id := by simpa [identity] using same
  have samePath : ∀ f, entry.item.pathForKey f = tapped.item.pathForKey f := by
    intro f
    rw [Item.pathForKey, Item.pathForKey, sameItems, sameId]
  simp only [State.reverseChecked, stands, Option.bind_eq_bind, Option.bind_some, Option.pure_def, Option.bind_eq_some_iff,
    Option.some.injEq] at reversed
  obtain ⟨_, _, rfl⟩ := reversed
  intro d member
  rcases List.mem_cons.mp member with rfl | last
  · exact ⟨.checked, samePath _⟩
  · rw [List.mem_singleton.mp last]
    exact ⟨.checked_by_id, samePath _⟩

theorem togglesTapped_iff {s : State} {row : Nat} {tapped : ItemWithObserver} :
    TogglesTapped row tapped s ↔ s.shown[row]? = some (identity tapped) := by
  rw [State.shown, List.getElem?_map, Option.map_eq_some_iff]
  constructor
  · rintro ⟨entry, stands, same, _⟩
    exact ⟨entry, stands, same⟩
  · rintro ⟨entry, stands, same⟩
    exact ⟨entry, stands, same, fun _ _ reversed => reverseChecked_paths stands same reversed⟩

/-- The popup of a row reverses the row with its number. -/
theorem didSelectRowAt_popup {s : State} {row askedFor : Nat} {currentUser : Option Key}
    (asked : s.didSelectRowAt row currentUser = .popup askedFor) : askedFor = row := by
  unfold State.didSelectRowAt at asked
  split at asked
  · split at asked
    · exact (State.Tapped.popup.inj asked).symm
    · cases asked
  · cases asked

/-! ## What comes and goes -/

/-- References are handed out once, in ascending order. -/
structure Numbered (s : State) : Prop where
  distinct : s.shown.Nodup
  below : ∀ x ∈ s.shown, x.1 < s.nextRef

/-- New items come last and are numbered anew; none goes. -/
structure Extends (s t : State) : Prop where
  shown : ∃ more, t.shown = s.shown ++ more ∧ ∀ x ∈ more, s.nextRef ≤ x.1
  numbered : Numbered s → Numbered t
  later : s.nextRef ≤ t.nextRef

theorem Extends.of_same {s t : State} (sameShown : t.shown = s.shown) (sameRef : t.nextRef = s.nextRef) : Extends s t where
  shown := ⟨[], by rw [sameShown, List.append_nil], by simp⟩
  numbered := fun numbered => ⟨by rw [sameShown]; exact numbered.distinct, by rw [sameShown, sameRef]; exact numbered.below⟩
  later := sameRef.ge

theorem Extends.trans {s t u : State} (first : Extends s t) (second : Extends t u) : Extends s u := by
  obtain ⟨more, shown, new⟩ := first.shown
  obtain ⟨evenMore, shownLater, newLater⟩ := second.shown
  refine ⟨⟨more ++ evenMore, by rw [shownLater, shown, List.append_assoc], ?_⟩, fun numbered => second.numbered (first.numbered numbered),
    first.later.trans second.later⟩
  intro x member
  rcases List.mem_append.mp member with old | late
  · exact new x old
  · exact first.later.trans (newLater x late)

theorem State.SameItems.extends {s t : State} (same : State.SameItems s t) : Extends s t :=
  .of_same (by rw [State.shown, same.2.1]; rfl) same.2.2.2.1

theorem addLoadedItem_extends {s t : State} {id : Key} {data : Snapshot} {lastItem : Bool}
    (added : s.addLoadedItem id data lastItem = some t) : Extends s t := by
  obtain ⟨newItem, _, made⟩ := State.addLoadedItem_eq_some.mp added
  have shown : t.shown = s.shown ++ [(s.nextRef, newItem.itemsId, newItem.id)] := by
    rw [made]
    exact List.map_append
  have numberedNext : t.nextRef = s.nextRef + 1 := by rw [made]
  refine ⟨⟨_, shown, by simp⟩, fun numbered => ⟨?_, ?_⟩, numberedNext ▸ Nat.le_succ _⟩
  · rw [shown]
    refine numbered.distinct.append (List.nodup_singleton _) ?_
    rw [List.disjoint_singleton]
    intro member
    exact Nat.lt_irrefl _ (numbered.below _ member)
  · intro x member
    rw [shown] at member
    rw [numberedNext]
    rcases List.mem_append.mp member with old | new
    · exact Nat.lt_succ_of_lt (numbered.below x old)
    · rw [List.mem_singleton.mp new]
      exact Nat.lt_succ_self _

/-- A change of an item leaves the fixed parts. -/
theorem modify_extends (s : State) (ref : Nat) {change : Item → Item}
    (fixed : ∀ item, (change item).itemsId = item.itemsId ∧ (change item).id = item.id) : Extends s (s.modify ref change) := by
  refine .of_same ?_ rfl
  simp only [State.shown, State.modify, List.map_map]
  refine List.map_congr_left fun entry _ => ?_
  simp only [Function.comp_apply]
  split
  · simp only [identity, (fixed entry.item).1, (fixed entry.item).2]
  · rfl

theorem update_fixed (data : List (Key × Option Value)) (item : Item) :
    (item.update data).itemsId = item.itemsId ∧ (item.update data).id = item.id := by
  refine ⟨?_, (item.update_same data).1⟩
  induction data generalizing item with
  | nil => rfl
  | cons field rest ih =>
    have first : (item.updateField field.1 field.2).itemsId = item.itemsId := by
      unfold Item.updateField
      repeat' split
      all_goals rfl
    exact (ih _).trans first

theorem setNames_fixed (authorName checkedByName : Option String) (item : Item) :
    (setNames authorName checkedByName item).itemsId = item.itemsId ∧ (setNames authorName checkedByName item).id = item.id := by
  refine ⟨?_, (setNames_spec authorName checkedByName item).1⟩
  unfold setNames
  cases authorName <;> cases checkedByName <;> rfl

theorem itemsAnswered_extends {s t : State} {itemsTableSnapshot : Snapshot} {itemsIds : List Key}
    (answered : s.itemsAnswered itemsTableSnapshot itemsIds = some t) : Extends s t := by
  have loading : Extends s { s with load := .answered } := .of_same rfl rfl
  exact State.itemsAnswered_keep (fun extended same => extended.trans same.extends)
    (fun extended added => extended.trans (addLoadedItem_extends added)) loading answered

theorem namesAnswered_extends {s t : State} {read : NameRead} {usersSnapshot : Snapshot}
    (answered : s.namesAnswered read usersSnapshot = some t) : Extends s t := by
  obtain ⟨_, _, _, _, _, authorName, _, checkedByName, _, rfl⟩ := State.namesAnswered_eq_some.mp answered
  have erased : Extends s { s with nameReads := s.nameReads.erase read } := .of_same rfl rfl
  have named := modify_extends { s with nameReads := s.nameReads.erase read } read.ref (setNames_fixed authorName checkedByName)
  exact (erased.trans named).trans (State.complete_sameItems _ read.completion).1.extends

theorem itemUpdated_extends {s t : State} {ref : Nat} {field : Key} {value : Option Value}
    (updated : s.itemUpdated ref field value = some t) : Extends s t := by
  obtain ⟨entry, _, rfl⟩ := State.itemUpdated_eq_some.mp updated
  exact (modify_extends s entry.ref (update_fixed [(field, value)])).trans (.of_same rfl rfl)

/-- What an input does to the items shown: one goes, or new ones come last. -/
theorem handle_shown {s t : State} {input : Input} (handled : handle s input = some t) :
    Extends s t ∨ ∃ itemId index, input = .itemsChildRemoved itemId ∧ s.findItemIndex itemId = some index ∧
      t.shown = s.shown.eraseIdx index ∧ t.nextRef = s.nextRef := by
  cases input with
  | loadData =>
    obtain ⟨_, rfl⟩ := Option.ite_none_right_eq_some.mp handled |>.imp_right Option.some.inj
    exact .inl (.of_same rfl rfl)
  | itemsAnswered => exact .inl (itemsAnswered_extends handled)
  | namesAnswered => exact .inl (namesAnswered_extends handled)
  | itemsChildAdded itemId itemSnapshot =>
    rcases State.itemsChildAdded_cases handled with ⟨_, rfl⟩ | ⟨_, itemDict, _, added⟩
    · exact .inl (.of_same rfl rfl)
    · exact .inl (addLoadedItem_extends added)
  | itemsChildRemoved itemId =>
    obtain rfl := Option.some.inj handled
    cases found : s.findItemIndex itemId with
    | none =>
      left
      rw [State.itemsChildRemoved, found]
      exact .of_same rfl rfl
    | some index =>
      refine .inr ⟨itemId, index, rfl, found, ?_, ?_⟩
      · rw [State.itemsChildRemoved, found]
        simp only
        rw [State.shown, (State.tell_sameItems _ _).1.2.1, ← List.eraseIdx_map]
        rfl
      · rw [State.itemsChildRemoved, found]
        exact (State.tell_sameItems _ _).1.2.2.2.1
  | itemUpdated => exact .inl (itemUpdated_extends handled)
  | delegateGone =>
    cases handled
    exact .inl (.of_same rfl rfl)

theorem Numbered.receive {s t : State} {input : Input} (numbered : Numbered s)
    (received : SingleListManager.receive s input = some t) :
    Numbered t := by
  rcases handle_shown (handle_of_receive received) with extended | ⟨_, index, _, _, shown, sameRef⟩
  · exact extended.numbered numbered
  · refine ⟨by rw [shown]; exact numbered.distinct.eraseIdx index, ?_⟩
    intro x member
    rw [shown] at member
    rw [sameRef]
    exact numbered.below x (List.mem_of_mem_eraseIdx member)

/-! ## Between the tap and the answer -/

/-- The tapped item still stands in the row. -/
structure Stands (row : Nat) (tapped : ItemWithObserver) (s : State) : Prop where
  numbered : Numbered s
  stands : s.shown[row]? = some (identity tapped)

/-- It does not, and will not again. -/
structure Gone (row : Nat) (tapped : ItemWithObserver) (s : State) : Prop where
  old : tapped.ref < s.nextRef
  passed : Rows.Passed s.shown row (identity tapped)

theorem Stands.receive {row : Nat} {tapped : ItemWithObserver} {s t : State} {input : Input} (stands : Stands row tapped s)
    (keeps : KeepsRow row s input) (received : SingleListManager.receive s input = some t) : Stands row tapped t := by
  refine ⟨stands.numbered.receive received, ?_⟩
  rcases handle_shown (handle_of_receive received) with extended | ⟨itemId, index, rfl, found, shown, _⟩
  · obtain ⟨more, shown, _⟩ := extended.shown
    rw [shown]
    exact Rows.append_getElem? stands.stands more
  · rw [shown]
    exact Rows.eraseIdx_getElem? stands.stands (keeps index found)

theorem Stands.gone {row : Nat} {tapped : ItemWithObserver} {s t : State} {input : Input} (stands : Stands row tapped s)
    (moves : ¬ KeepsRow row s input) (received : SingleListManager.receive s input = some t) : Gone row tapped t := by
  cases input with
  | itemsChildRemoved itemId =>
    simp only [KeepsRow, not_forall, not_lt] at moves
    obtain ⟨index, found, early⟩ := moves
    have old := stands.numbered.below _ (List.mem_of_getElem? stands.stands)
    have handled := handle_of_receive received
    obtain rfl := Option.some.inj handled
    rw [State.itemsChildRemoved, found]
    simp only
    refine ⟨by rw [(State.tell_sameItems _ _).1.2.2.2.1]; exact old, ?_⟩
    rw [State.shown, (State.tell_sameItems _ _).1.2.1, ← List.eraseIdx_map]
    exact Rows.passed_eraseIdx stands.numbered.distinct stands.stands early
  | _ => exact absurd trivial moves

theorem Gone.receive {row : Nat} {tapped : ItemWithObserver} {s t : State} {input : Input} (gone : Gone row tapped s)
    (received : SingleListManager.receive s input = some t) : Gone row tapped t := by
  rcases handle_shown (handle_of_receive received) with extended | ⟨_, index, _, _, shown, sameRef⟩
  · obtain ⟨more, shown, new⟩ := extended.shown
    refine ⟨gone.old.trans_le extended.later, ?_⟩
    rw [shown]
    refine gone.passed.append fun member => ?_
    exact absurd (new _ member) (Nat.not_le_of_lt gone.old)
  · refine ⟨sameRef ▸ gone.old, ?_⟩
    rw [shown]
    exact gone.passed.eraseIdx index

/-- In every list as it has been loaded and changed so far, a row is tapped; whatever
    happens before the popup is answered, `ReverseChecked` of the row goes to the tapped
    item exactly when no item in the row or before it has been removed. -/
theorem toggles_tapped_iff {list : ListObject} {before between : List Input} {s t : State}
    (reached : Runs.exec receive (State.new list) before = some s) {row askedFor : Nat} {tapped : ItemWithObserver}
    (shows : s.getItem row = some tapped) {currentUser : Option Key} (asked : s.didSelectRowAt row currentUser = .popup askedFor)
    (run : Runs.exec receive s between = some t) :
    TogglesTapped askedFor tapped t ↔ Runs.Along receive (KeepsRow row) s between := by
  obtain rfl : row = askedFor := (didSelectRowAt_popup asked).symm
  have start : Numbered (State.new list) := ⟨List.nodup_nil, by simp [State.new, State.shown]⟩
  have numbered := Runs.exec_invariant (fun _ _ _ (numbered : Numbered _) received => numbered.receive received) start reached
  have stands : Stands row tapped s := by
    refine ⟨numbered, ?_⟩
    rw [State.shown, List.getElem?_map, (Option.ite_none_right_eq_some.mp shows).2]
    rfl
  refine Runs.exec_iff_along (fun _ (now : Stands row tapped _) => togglesTapped_iff.mpr now.stands) ?_
    (fun _ _ _ now keeps received => now.receive keeps received) (fun _ _ _ now moves received => now.gone moves received)
    (fun _ _ _ gone received => gone.receive received) stands run
  exact fun _ gone toggles => gone.passed row le_rfl (togglesTapped_iff.mp toggles)

/-- The list is loaded, and milk is in the first row. -/
def checkedRun : List Input :=
  open Sample in
  [.loadData, .itemsAnswered checkedItems [milk, bread], .namesAnswered ⟨0, .addLoadedItem false⟩ aliceUsers,
   .namesAnswered ⟨1, .addLoadedItem true⟩ aliceUsers]

/-- Milk is tapped, and then it or bread is removed. -/
theorem checkedRun_tapped : ∃ s tapped, Runs.exec receive (State.new Sample.groceryList) checkedRun = some s ∧
    s.getItem 0 = some tapped ∧ s.didSelectRowAt 0 (some Sample.alice) = .popup 0 ∧
    (∃ t, Runs.exec receive s [.itemsChildRemoved Sample.milk] = some t ∧ t.shown[0]? ≠ some (identity tapped)) ∧
    ∃ t, Runs.exec receive s [.itemsChildRemoved bread] = some t := by
  have ran : (Runs.exec receive (State.new Sample.groceryList) checkedRun).any (fun s =>
      (s.getItem 0).any (fun tapped => s.didSelectRowAt 0 (some Sample.alice) = .popup 0 ∧
        (Runs.exec receive s [.itemsChildRemoved Sample.milk]).any (fun t => t.shown[0]? ≠ some (identity tapped)) ∧
        (Runs.exec receive s [.itemsChildRemoved bread]).isSome)) = true := by
    decide +kernel
  obtain ⟨s, reached, tap⟩ := (Option.any_eq_true _ _).mp ran
  obtain ⟨tapped, shows, later⟩ := (Option.any_eq_true _ _).mp tap
  obtain ⟨asked, milkRemoved, breadRemoved⟩ := of_decide_eq_true later
  obtain ⟨t, run, other⟩ := (Option.any_eq_true _ _).mp milkRemoved
  exact ⟨s, tapped, reached, shows, asked, ⟨t, run, of_decide_eq_true other⟩, Option.isSome_iff_exists.mp breadRemoved⟩

/-- Where milk is removed, `Yes` goes to bread. -/
theorem other_item_toggled : ¬ ∀ (list : ListObject) (before between : List Input) (s t : State) (row askedFor : Nat)
    (tapped : ItemWithObserver) (currentUser : Option Key), Runs.exec receive (State.new list) before = some s →
    s.getItem row = some tapped → s.didSelectRowAt row currentUser = .popup askedFor →
    Runs.exec receive s between = some t → TogglesTapped askedFor tapped t := by
  intro claim
  obtain ⟨s, tapped, reached, shows, asked, ⟨t, run, other⟩, _⟩ := checkedRun_tapped
  exact other (togglesTapped_iff.mp (claim _ _ _ s t 0 0 tapped _ reached shows asked run))

theorem toggles_tapped_iff_checkedRun :
    ∃ s t tapped, Runs.exec receive (State.new Sample.groceryList) checkedRun = some s ∧ s.getItem 0 = some tapped ∧
      Runs.exec receive s [.itemsChildRemoved bread] = some t ∧
      (TogglesTapped 0 tapped t ↔ Runs.Along receive (KeepsRow 0) s [.itemsChildRemoved bread]) := by
  obtain ⟨s, tapped, reached, shows, asked, _, t, run⟩ := checkedRun_tapped
  exact ⟨s, t, tapped, reached, shows, run, toggles_tapped_iff reached shows asked run⟩

end SharedList.SingleListManager
