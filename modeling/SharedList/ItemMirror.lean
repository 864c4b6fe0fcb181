import SharedList.Tables
import SharedList.Runs

/-!
One item and its record. The object is built from one read of the record and
from then on updated by the `childChanged` events of its own observer, whose
registration takes effect some time after that read. What other clients change
in between reaches the object only if they change it again.
-/
namespace SharedList
open FrbUtils

namespace Value

def isBool : Value → Bool
  | .string _ => false
  | .bool _ => true

end Value

/-- Whether the field is stored as a boolean. -/
def ItemKeys.holdsBool : ItemKeys → Bool
  | .checked => true
  | _ => false

namespace Item

theorem field_updateField (item : Item) {f : ItemKeys} (kept : f ≠ .author_id) {v : Value} (sort : v.isBool = f.holdsBool) :
    (item.updateField f.rawValue (some v)).field f = v := by
  cases f with
  | author_id => exact absurd rfl kept
  | title | checked_by_id =>
    cases v with
    | string s => simp [updateField, ItemKeys.rawValue, Value.asString, field]
    | bool b => cases sort
  | checked =>
    cases v with
    | string s => cases sort
    | bool b => simp [updateField, ItemKeys.rawValue, Value.asBool, field]

theorem field_updateField_other (item : Item) {f : ItemKeys} {key : Key} (other : key ≠ f.rawValue) (value : Option Value) :
    (item.updateField key value).field f = item.field f := by
  unfold updateField
  cases f with
  | title =>
    rw [if_neg (show key ≠ ItemKeys.title.rawValue from other)]
    repeat' split
    all_goals rfl
  | checked =>
    rw [if_neg (show key ≠ ItemKeys.checked.rawValue from other)]
    repeat' split
    all_goals rfl
  | author_id =>
    repeat' split
    all_goals rfl
  | checked_by_id =>
    rw [if_neg (show key ≠ ItemKeys.checked_by_id.rawValue from other)]
    repeat' split
    all_goals rfl

/-- After an update with the values that a record has at some keys, a field whose
    key is among them has the record's value, and any other the value it had. -/
theorem field_update (item : Item) {f : ItemKeys} (kept : f ≠ .author_id) {after : Snapshot} {v : Value}
    (stored : after.at? [f.rawValue] = some v) (sort : v.isBool = f.holdsBool) (keys : List Key) :
    (item.update (keys.map (fun key => (key, after.at? [key])))).field f =
      if f.rawValue ∈ keys then v else item.field f := by
  induction keys generalizing item with
  | nil => rfl
  | cons key rest ih =>
    have unfolded : item.update ((key :: rest).map (fun key => (key, after.at? [key]))) =
        (item.updateField key (after.at? [key])).update (rest.map (fun key => (key, after.at? [key]))) := rfl
    rw [unfolded, ih]
    by_cases later : f.rawValue ∈ rest
    · rw [if_pos later, if_pos (List.mem_cons_of_mem _ later)]
    · rw [if_neg later]
      by_cases here : key = f.rawValue
      · subst here
        rw [stored, field_updateField item kept sort, if_pos List.mem_cons_self]
      · rw [field_updateField_other item here, if_neg]
        rw [List.mem_cons]
        rintro (same | inRest)
        · exact here same.symm
        · exact later inRest

end Item

/-- The fields of a record whose values change: a listener gets one `childChanged` event for each. -/
def changedFields (before after : Snapshot) : List Key :=
  after.childKeys.filter (fun key => (before.at? [key]).isSome ∧ before.at? [key] ≠ after.at? [key])

theorem mem_changedFields {before after : Snapshot} {key : Key} {u v : Value} (old : before.at? [key] = some u)
    (new : after.at? [key] = some v) : key ∈ changedFields before after ↔ u ≠ v := by
  have present : key ∈ after.childKeys := Tree.mem_childKeys.mpr (Tree.present_of_at? new)
  simp [changedFields, present, old, new]

/-- An item record, and the object that one client makes of it. -/
structure Mirror where
  db : Database
  /-- The record from which the object was built, by `LoadData` or `ItemsChildAdded`. -/
  snapshot : Option Snapshot
  item : Option Item
  registered : Bool
  /-- The events on their way to `Updated`, oldest first. -/
  queue : List (Key × Option Value)

namespace Mirror

inductive Action where
  /-- A `ReverseChecked` write of another client, from whatever copy it has, is applied. -/
  | reverseChecked (copy : Item) (userId : Key)
  /-- The record is read, and the object that is built from it calls `Activate`. -/
  | load
  /-- The registration of `Activate` takes effect. -/
  | listen
  /-- The next event reaches `Updated`. -/
  | deliver

section
variable (I k : Key)

def record (db : Database) : Snapshot := db.sub (itemDbRef I.val k.val)

def start (db : Database) : Mirror := ⟨db, none, none, false, []⟩

/-- The events that a change of the record raises at the listener. -/
def raised (before after : Snapshot) : List (Key × Option Value) :=
  (changedFields before after).map (fun key => (key, after.at? [key]))

def step (w : Mirror) : Action → Option Mirror
  | .reverseChecked copy userId =>
    if copy.itemsId = I.val ∧ copy.id = k then
      let db := (Write.reverseChecked copy userId).apply w.db
      let events := if w.registered then raised (record I k w.db) (record I k db) else []
      some { w with db := db, queue := w.queue ++ events }
    else none
  | .load =>
    if w.item.isNone then do
      let data ← dictionary? (record I k w.db)
      let item ← Item.deserialize I.val k data
      return { w with snapshot := some data, item := some item }
    else none
  | .listen => if w.item.isSome ∧ w.registered = false then some { w with registered := true } else none
  | .deliver =>
    match w.item, w.queue with
    | some item, event :: rest => some { w with item := some (item.update [event]), queue := rest }
    | _, _ => none

/-- The object has the stored fields. -/
def Equals (item : Item) (stored : Snapshot) : Prop :=
  stringAt stored Keys.title = some item.title ∧ boolAt stored Keys.checked = some item.checked ∧
    stringAt stored Keys.checked_by_id = some item.checkedById

/-- Once the registration has taken effect and every event has been delivered,
    the object has the stored fields. -/
def Mirrors (w : Mirror) : Prop :=
  ∀ item, w.item = some item → w.registered = true → w.queue = [] → Equals item (record I k w.db)

/-- Registrations that find the fields as they were in the snapshot. -/
def FindsSnapshot (w : Mirror) : Action → Prop
  | .listen => ∀ snapshot, w.snapshot = some snapshot → ∀ f : ItemKeys, f ≠ .author_id →
      (record I k w.db).at? [f.rawValue] = snapshot.at? [f.rawValue]
  | _ => True

/-- Until the registration the object is its snapshot; from then on it is, once
    the queued events are delivered, the record. -/
structure Follows (w : Mirror) : Prop where
  silent : w.registered = false → w.queue = []
  object : w.registered = true → w.item.isSome
  complete : w.item.isSome → ∀ f : ItemKeys, ∃ v, (record I k w.db).at? [f.rawValue] = some v ∧ v.isBool = f.holdsBool
  built : ∀ item, w.item = some item → ∃ snapshot, w.snapshot = some snapshot ∧
    (w.registered = false → ∀ f, f ≠ .author_id → snapshot.at? [f.rawValue] = some (item.field f))
  mirrors : ∀ item, w.item = some item → w.registered = true → ∀ f, f ≠ .author_id →
    (record I k w.db).at? [f.rawValue] = some ((item.update w.queue).field f)

end

theorem equals_iff {item : Item} {stored : Snapshot} :
    Equals item stored ↔ ∀ f, f ≠ .author_id → stored.at? [f.rawValue] = some (item.field f) := by
  simp only [Equals, stringAt_eq_some, boolAt_eq_some, ← Tree.at?_eq_some]
  constructor
  · rintro ⟨title, checked, checkedBy⟩ f kept
    cases f with
    | title => exact title
    | checked => exact checked
    | author_id => exact absurd rfl kept
    | checked_by_id => exact checkedBy
  · intro fields
    exact ⟨fields .title (by simp), fields .checked (by simp), fields .checked_by_id (by simp)⟩

/-- A `ReverseChecked` write sets two fields of the record and leaves the others. -/
theorem record_reverseChecked {I k : Key} {copy : Item} (here : copy.itemsId = I.val ∧ copy.id = k) (userId : Key)
    (db : Database) (f : ItemKeys) : (record I k ((Write.reverseChecked copy userId).apply db)).at? [f.rawValue] =
      match f with
      | .checked => some (.bool (!copy.checked))
      | .checked_by_id => some (.string (if !copy.checked then userId.val else "NONE"))
      | _ => (record I k db).at? [f.rawValue] := by
  have valid : (Write.reverseChecked copy userId).Valid := ⟨I, here.1⟩
  ext v
  rw [Tree.at?_eq_some, record, Tree.mem_sub, itemDbRef_key]
  show (Keys.items :: I :: Keys.items :: k :: [f.rawValue], v) ∈ _ ↔ _
  rw [Write.mem_items_apply valid]
  cases f with
  | title => simp [here, reversedFields, ItemKeys.rawValue, record, Tree.at?_eq_some]
  | checked => simp [here, reversedFields, ItemKeys.rawValue, eq_comm (a := v)]
  | author_id => simp [here, reversedFields, ItemKeys.rawValue, record, Tree.at?_eq_some]
  | checked_by_id => simp [here, reversedFields, ItemKeys.rawValue, eq_comm (a := v)]

/-- The write leaves a complete record complete. -/
theorem complete_reverseChecked {I k : Key} {copy : Item} (here : copy.itemsId = I.val ∧ copy.id = k) (userId : Key)
    {db : Database} (complete : ∀ f : ItemKeys, ∃ v, (record I k db).at? [f.rawValue] = some v ∧ v.isBool = f.holdsBool)
    (f : ItemKeys) : ∃ v, (record I k ((Write.reverseChecked copy userId).apply db)).at? [f.rawValue] = some v ∧
      v.isBool = f.holdsBool := by
  rw [record_reverseChecked here]
  cases f with
  | checked => exact ⟨_, rfl, rfl⟩
  | checked_by_id => exact ⟨_, rfl, rfl⟩
  | title => exact complete .title
  | author_id => exact complete .author_id

/-- An object that is the record, up to the queued events, still is when the
    record has changed and the events of this change have joined the queue. -/
theorem field_raised {before after : Snapshot} {f : ItemKeys} (kept : f ≠ .author_id) {item : Item}
    {queue : List (Key × Option Value)} {v : Value} (same : before.at? [f.rawValue] = some ((item.update queue).field f))
    (stored : after.at? [f.rawValue] = some v) (sort : v.isBool = f.holdsBool) :
    (item.update (queue ++ raised before after)).field f = v := by
  have appended : item.update (queue ++ raised before after) = (item.update queue).update (raised before after) :=
    List.foldl_append
  rw [appended, raised, Item.field_update _ kept stored sort]
  split
  · rfl
  · rename_i unchanged
    rw [mem_changedFields same stored, not_not] at unchanged
    exact unchanged

theorem Follows.step {I k : Key} {w t : Mirror} {action : Action} (follows : Follows I k w)
    (found : FindsSnapshot I k w action) (stepped : step I k w action = some t) : Follows I k t := by
  cases action with
  | reverseChecked copy userId =>
    simp only [Mirror.step, Option.ite_none_right_eq_some, Option.some.injEq] at stepped
    obtain ⟨here, rfl⟩ := stepped
    have complete := fun present f => complete_reverseChecked here userId (follows.complete present) f
    refine ⟨?_, follows.object, complete, follows.built, ?_⟩
    · intro unheard
      have unheard : w.registered = false := unheard
      simp [unheard, follows.silent unheard]
    · intro item present heard f kept
      have heard : w.registered = true := heard
      have present : w.item = some item := present
      obtain ⟨v, stored, sort⟩ := complete (by simp [present]) f
      simp only [heard, if_true]
      rw [field_raised kept (follows.mirrors item present heard f kept) stored sort]
      exact stored
  | load =>
    simp only [Mirror.step, Option.ite_none_right_eq_some, Option.bind_eq_bind, Option.pure_def,
      Option.bind_eq_some_iff, Option.some.injEq] at stepped
    obtain ⟨unbuilt, data, dictionary, item, decoded, rfl⟩ := stepped
    obtain ⟨rfl, _⟩ := dictionary?_eq_some dictionary
    have unheard : w.registered ≠ true := by
      intro heard
      have present := follows.object heard
      rw [Option.isNone_iff_eq_none.mp unbuilt] at present
      cases present
    have fields := Item.at?_of_deserialize decoded
    refine ⟨follows.silent, fun _ => rfl, ?_, ?_, ?_⟩
    · exact fun _ f => ⟨_, fields f, by cases f <;> rfl⟩
    · rintro _ ⟨⟩
      exact ⟨_, rfl, fun _ f _ => fields f⟩
    · exact fun _ _ heard => absurd heard unheard
  | listen =>
    simp only [Mirror.step, Option.ite_none_right_eq_some, Option.some.injEq] at stepped
    obtain ⟨⟨present, unheard⟩, rfl⟩ := stepped
    refine ⟨by simp, fun _ => present, follows.complete, ?_, ?_⟩
    · intro item built
      obtain ⟨snapshot, read, _⟩ := follows.built item built
      exact ⟨snapshot, read, by simp⟩
    · intro item built _ f kept
      obtain ⟨snapshot, read, same⟩ := follows.built item built
      rw [found snapshot read f kept, same unheard f kept, follows.silent unheard]
      rfl
  | deliver =>
    simp only [Mirror.step] at stepped
    split at stepped
    · rename_i item event rest built waiting
      cases stepped
      have heard : w.registered = true := by
        by_contra unheard
        rw [follows.silent (Bool.eq_false_iff.mpr unheard)] at waiting
        cases waiting
      refine ⟨?_, fun _ => rfl, fun _ => follows.complete (by simp [built]), ?_, ?_⟩
      · intro unheard
        cases heard.symm.trans unheard
      · intro other _
        obtain ⟨snapshot, read, _⟩ := follows.built item built
        exact ⟨snapshot, read, fun unheard => by cases heard.symm.trans unheard⟩
      · rintro _ ⟨⟩ heard f kept
        have before := follows.mirrors item built heard f kept
        rw [waiting] at before
        exact before
    · cases stepped

/-- In every run the object has the stored fields, whenever all events have been
    delivered, exactly when no field has changed between the snapshot and the registration. -/
theorem mirrors_iff (I k : Key) (db : Database) (actions : List Action) :
    Runs.Always (step I k) (Mirrors I k) (start db) actions ↔
      Runs.Along (step I k) (FindsSnapshot I k) (start db) actions := by
  refine Runs.always_iff_along (I := Follows I k) ?_ ?_ ?_ ?_ actions
  · intro w follows item built heard delivered
    rw [equals_iff]
    intro f kept
    rw [follows.mirrors item built heard f kept, delivered]
    rfl
  · exact fun w action t follows found stepped => follows.step found stepped
  · intro w action t follows outside stepped mirrors
    unfold FindsSnapshot at outside
    split at outside
    · simp only [step, Option.ite_none_right_eq_some, Option.some.injEq] at stepped
      obtain ⟨⟨present, unheard⟩, rfl⟩ := stepped
      refine outside fun snapshot read f kept => ?_
      obtain ⟨item, built⟩ := Option.isSome_iff_exists.mp present
      obtain ⟨_, same, fields⟩ := follows.built item built
      cases read.symm.trans same
      rw [equals_iff.mp (mirrors item built rfl (follows.silent unheard)) f kept, fields unheard f kept]
    · exact outside trivial
  · exact ⟨fun _ => rfl, fun heard => (by cases heard), fun built => (by cases built), fun _ built => (by cases built),
      fun _ built => (by cases built)⟩

/-- Another client checks the item after the item table has been read and before
    the item's observer is registered. -/
def earlyCheckRun : List Action :=
  open Sample in [.load, .reverseChecked milkItem bob, .listen]

theorem early_check_missed : ¬ ∀ (I k : Key) (db : Database) (actions : List Action),
    db.Present (itemDbRef I.val k.val) → Runs.Always (step I k) (Mirrors I k) (start db) actions := by
  intro claim
  let db : Database := Tree.empty.put (itemDbRef Sample.groceryItems.val Sample.milk.val) Sample.milkRecord
  have always := claim Sample.groceryItems Sample.milk db earlyCheckRun (by decide +kernel)
  have passed : (Runs.exec (step Sample.groceryItems Sample.milk) (start db) earlyCheckRun).any (fun w => decide
      (w.item = some Sample.milkItem ∧ w.registered = true ∧ w.queue = [] ∧
        boolAt (record Sample.groceryItems Sample.milk w.db) Keys.checked = some true)) = true := by
    decide +kernel
  obtain ⟨w, mirrors, apart⟩ := always.of_any passed
  obtain ⟨built, heard, delivered, stored⟩ := of_decide_eq_true apart
  have checked := (mirrors _ built heard delivered).2.1
  rw [stored] at checked
  cases checked

end Mirror
end SharedList
