import SharedList.SingleListManager

/-!
The names that the items of a list show. Every change of an item starts a read
of the user names, and the answer overwrites a name only when it finds one. So
the author's name is right, and the checker's name is that of the last listed
user for whom such a read was answered, which need not be the present checker.
-/
namespace SharedList.SingleListManager

namespace Input

/-- The events of the observers. -/
def isEvent : Input → Bool
  | .itemsChildAdded _ _ | .itemsChildRemoved _ | .itemUpdated _ _ _ => true
  | _ => false

end Input

/-- The name that the users map gives for an id. -/
def listedName (users : Snapshot) (id : String) : Option String :=
  (users.childKeys.find? (fun k => k.val = id)).bind (stringAt users)

/-- A manager, the events raised and not yet delivered, and whose name each
    answered read of `LoadUserNames` looked up for an item, newest first. -/
structure Session where
  manager : State
  raised : List Input
  lookups : List (Nat × String)

namespace Session

inductive Action where
  /-- A change in the database raises an event. -/
  | raise (event : Input)
  /-- One of the raised events is handled. -/
  | deliver (event : Input)
  | input (input : Input)

def new (list : ListObject) : Session := ⟨State.new list, [], []⟩

/-- One step, for a list whose users map is `users`. -/
def step (users : Snapshot) (s : Session) : Action → Option Session
  | .raise event => if event.isEvent then some { s with raised := s.raised ++ [event] } else none
  | .deliver event =>
    if event ∈ s.raised ∧ event.isEvent then
      (handle s.manager event).map (fun manager => { s with manager := manager, raised := s.raised.erase event })
    else none
  | .input (.namesAnswered read usersSnapshot) =>
    if usersSnapshot = users then do
      let entry ← s.manager.object read.ref
      let manager ← handle s.manager (.namesAnswered read usersSnapshot)
      return { s with manager := manager, lookups := (read.ref, entry.item.checkedById) :: s.lookups }
    else none
  | .input input => if input.isEvent then none else (handle s.manager input).map (fun manager => { s with manager := manager })

/-- Nothing is outstanding. -/
def Quiet (s : Session) : Prop := s.raised = [] ∧ s.manager.nameReads = [] ∧ s.manager.load ≠ .awaitingItems
instance (s : Session) : Decidable (Quiet s) := inferInstanceAs (Decidable (_ ∧ _ ∧ _))

/-- Author and checker of every item are shown with the names of the users map. -/
def Attributed (users : Snapshot) (s : Session) : Prop :=
  Quiet s → ∀ entry ∈ s.manager.data, entry.item.authorName = (listedName users entry.item.authorId).getD "" ∧
    (entry.item.checked = true → entry.item.checkedByName = (listedName users entry.item.checkedById).getD "")

/-- For whom the answered reads of an item looked up the checker's name, newest first. -/
def checkers (lookups : List (Nat × String)) (ref : Nat) : List String :=
  (lookups.filter (fun lookup => lookup.1 = ref)).map Prod.snd

/-- The checker of an item is listed, or no name was found for it that it could still show. -/
def Known (users : Snapshot) (lookups : List (Nat × String)) (entry : ItemWithObserver) : Prop :=
  (listedName users entry.item.checkedById).isSome ∨
    ∀ name, (checkers lookups entry.ref).findSome? (listedName users) = some name → name = ""

/-- No read of the names is answered for an item that an unlisted user has checked, once the name of a listed one
    was found for it. -/
def LooksUpKnown (users : Snapshot) (s : Session) : Action → Prop
  | .input (.namesAnswered read _) => ∀ entry, s.manager.object read.ref = some entry →
      entry.item.checked = true → Known users s.lookups entry
  | _ => True

/-- A checked item is checked by a listed user, or the last listed user among
    those whose name was looked up for it, if any, has the empty name. -/
def NoStaleName (users : Snapshot) (s : Session) : Prop :=
  Quiet s → ∀ entry ∈ s.manager.data, entry.item.checked = true → (listedName users entry.item.checkedById).isSome ∨
    ∀ name, (checkers s.lookups entry.ref).findSome? (listedName users) = some name → name = ""

/-- What an item shows, by the lookups made for it, which were all of known checkers or not. -/
structure Told (users : Snapshot) (known : Prop) (lookups : List (Nat × String)) (reads : List NameRead)
    (entry : ItemWithObserver) : Prop where
  author : entry.item.authorName =
    if checkers lookups entry.ref = [] then "" else (listedName users entry.item.authorId).getD ""
  checker : entry.item.checkedByName = ((checkers lookups entry.ref).findSome? (listedName users)).getD ""
  /-- Either a read is on its way, or the last one looked up the present checker. -/
  recent : (∃ completion, ⟨entry.ref, completion⟩ ∈ reads) ∨
    ∃ earlier, checkers lookups entry.ref = entry.item.checkedById :: earlier
  current : known → (∃ completion, ⟨entry.ref, completion⟩ ∈ reads) ∨ (entry.item.checked = true → Known users lookups entry)

variable {users : Snapshot} {known : Prop}

theorem checkers_other {lookup : Nat × String} {ref : Nat} (other : lookup.1 ≠ ref) (lookups : List (Nat × String)) :
    checkers (lookup :: lookups) ref = checkers lookups ref := by
  simp [checkers, other]
theorem checkers_self (ref : Nat) (id : String) (lookups : List (Nat × String)) :
    checkers ((ref, id) :: lookups) ref = id :: checkers lookups ref := by
  simp [checkers]

/-- A name that is looked up without a failing cast is the listed one. -/
theorem nameFor_eq_some {users : Snapshot} {id : String} {found : Option String} (looked : nameFor users id = some found) :
    found = listedName users id := by
  unfold nameFor at looked
  unfold listedName
  split at looked
  · rename_i k listed
    obtain ⟨name, atKey, rfl⟩ := Option.map_eq_some_iff.mp looked
    rw [listed, Option.bind_some, atKey]
  · rename_i missing
    cases looked
    rw [missing, Option.bind_none]

theorem Told.quiet {lookups : List (Nat × String)} {entry : ItemWithObserver}
    (told : Told users known lookups [] entry) : entry.item.authorName = (listedName users entry.item.authorId).getD "" ∧
      (entry.item.checkedByName = (listedName users entry.item.checkedById).getD "" ↔
        (listedName users entry.item.checkedById).isSome ∨
          ∀ name, (checkers lookups entry.ref).findSome? (listedName users) = some name → name = "") := by
  obtain ⟨earlier, last⟩ := told.recent.resolve_left (by simp)
  refine ⟨by rw [told.author, if_neg (by simp [last])], ?_⟩
  rw [told.checker, last, List.findSome?_cons]
  cases listed : listedName users entry.item.checkedById with
  | some name => simp
  | none =>
    cases found : earlier.findSome? (listedName users) with
    | some name => simp
    | none => simp

/-- More reads on their way change nothing for an item. -/
theorem Told.mono {lookups : List (Nat × String)} {reads more : List NameRead} {entry : ItemWithObserver}
    (told : Told users known lookups reads entry) (all : ∀ read ∈ reads, read ∈ more) : Told users known lookups more entry :=
  ⟨told.author, told.checker, told.recent.imp_left fun ⟨completion, waiting⟩ => ⟨completion, all _ waiting⟩,
    fun isKnown => (told.current isKnown).imp_left fun ⟨completion, waiting⟩ => ⟨completion, all _ waiting⟩⟩

/-- A change of the item comes with a read. -/
theorem Told.update {lookups : List (Nat × String)} {reads : List NameRead} {entry : ItemWithObserver}
    (told : Told users known lookups reads entry) (data : List (Key × Option Value)) (completion : Completion) :
    Told users known lookups (reads ++ [⟨entry.ref, completion⟩]) { entry with item := entry.item.update data } := by
  obtain ⟨_, sameAuthor, sameAuthorName, sameCheckedByName⟩ := entry.item.update_same data
  refine ⟨?_, ?_, .inl ⟨completion, by simp⟩, fun _ => .inl ⟨completion, by simp⟩⟩
  · show (entry.item.update data).authorName = _
    rw [sameAuthorName, told.author]
    simp only [sameAuthor]
  · show (entry.item.update data).checkedByName = _
    rw [sameCheckedByName, told.checker]

/-- The answer to a read of the item. -/
theorem Told.answer {lookups : List (Nat × String)} {reads more : List NameRead} {entry : ItemWithObserver}
    (told : Told users known lookups reads entry) (looksUp : known → entry.item.checked = true → Known users lookups entry) :
    Told users known ((entry.ref, entry.item.checkedById) :: lookups) more
      { entry with item := setNames (listedName users entry.item.authorId) (listedName users entry.item.checkedById) entry.item } := by
  obtain ⟨_, sameAuthor, sameChecker, authorName, checkedByName⟩ :=
    setNames_spec (listedName users entry.item.authorId) (listedName users entry.item.checkedById) entry.item
  refine ⟨?_, ?_, ?_, ?_⟩
  · simp only [authorName, sameAuthor, checkers_self, List.cons_ne_nil, if_false]
    cases listed : listedName users entry.item.authorId with
    | some name => rfl
    | none =>
      -- An unlisted author's name was never set.
      rw [Option.getD_none, told.author, listed]
      split <;> rfl
  · simp only [checkedByName, checkers_self, List.findSome?_cons]
    cases listed : listedName users entry.item.checkedById with
    | some name => rfl
    | none => exact told.checker
  · refine .inr ⟨checkers lookups entry.ref, ?_⟩
    simp only [checkers_self, sameChecker]
  · refine fun isKnown => .inr fun checked => ?_
    rw [setNames_checked] at checked
    simp only [Known, sameChecker, checkers_self, List.findSome?_cons]
    rcases looksUp isKnown checked with listed | noName
    · exact .inl listed
    · cases listed : listedName users entry.item.checkedById with
      | some name => exact .inl rfl
      | none => exact .inr noName

/-- The entries have their own references, and each shows what it was told. -/
structure Names (users : Snapshot) (known : Prop) (manager : State) (lookups : List (Nat × String)) : Prop where
  below : ∀ entry ∈ manager.data ++ manager.dropped, entry.ref < manager.nextRef
  distinct : ((manager.data ++ manager.dropped).map ItemWithObserver.ref).Nodup
  lookedUp : ∀ lookup ∈ lookups, lookup.1 < manager.nextRef
  told : ∀ entry ∈ manager.data ++ manager.dropped, Told users known lookups manager.nameReads entry

namespace Names

theorem new (users : Snapshot) (list : ListObject) : Names users known (State.new list) [] := by
  constructor <;> simp [State.new]

theorem sameItems {m n : State} {lookups : List (Nat × String)} (names : Names users known m lookups)
    (same : State.SameItems m n) : Names users known n lookups := by
  obtain ⟨_, data, dropped, nextRef, _, nameReads⟩ := same
  constructor
  · rw [data, dropped, nextRef]
    exact names.below
  · rw [data, dropped]
    exact names.distinct
  · rw [nextRef]
    exact names.lookedUp
  · rw [data, dropped, nameReads]
    exact names.told

/-- The same entries in another order. -/
theorem perm {m n : State} {lookups : List (Nat × String)} (names : Names users known m lookups)
    (entries : (n.data ++ n.dropped).Perm (m.data ++ m.dropped)) (nextRef : n.nextRef = m.nextRef)
    (nameReads : n.nameReads = m.nameReads) : Names users known n lookups where
  below := fun entry member => nextRef ▸ names.below entry (entries.mem_iff.mp member)
  distinct := (entries.map _).nodup_iff.mpr names.distinct
  lookedUp := nextRef ▸ names.lookedUp
  told := fun entry member => nameReads ▸ names.told entry (entries.mem_iff.mp member)

/-- A new item, whose names are empty and are being read. -/
theorem addLoadedItem {m n : State} {lookups : List (Nat × String)} (names : Names users known m lookups)
    {id : Key} {data : Snapshot} {lastItem : Bool} (added : m.addLoadedItem id data lastItem = some n) :
    Names users known n lookups := by
  obtain ⟨newItem, decoded, rfl⟩ := State.addLoadedItem_eq_some.mp added
  have entries : (m.data ++ [ItemWithObserver.mk m.nextRef newItem] ++ m.dropped).Perm
      (ItemWithObserver.mk m.nextRef newItem :: (m.data ++ m.dropped)) := by
    rw [List.append_assoc]
    exact List.perm_middle
  have noLookups : checkers lookups m.nextRef = [] := by
    rw [checkers, List.map_eq_nil_iff, List.filter_eq_nil_iff]
    intro lookup member same
    have earlier := names.lookedUp lookup member
    simp only [decide_eq_true_eq] at same
    omega
  constructor
  · intro entry member
    rcases List.mem_cons.mp (entries.mem_iff.mp member) with rfl | old
    · exact Nat.lt_succ_self _
    · exact Nat.lt_succ_of_lt (names.below entry old)
  · rw [(entries.map _).nodup_iff, List.map_cons, List.nodup_cons]
    refine ⟨?_, names.distinct⟩
    intro member
    obtain ⟨entry, old, same⟩ := List.mem_map.mp member
    have earlier := names.below entry old
    rw [same] at earlier
    exact Nat.lt_irrefl _ earlier
  · exact fun lookup member => Nat.lt_succ_of_lt (names.lookedUp lookup member)
  · intro entry member
    rcases List.mem_cons.mp (entries.mem_iff.mp member) with rfl | old
    · obtain ⟨noAuthor, noChecker⟩ := Item.deserialize_names decoded
      have waits : (⟨m.nextRef, .addLoadedItem lastItem⟩ : NameRead) ∈ m.nameReads ++ [⟨m.nextRef, .addLoadedItem lastItem⟩] :=
        List.mem_append_right _ List.mem_cons_self
      exact ⟨by rw [noAuthor, if_pos noLookups], by rw [noChecker, noLookups]; rfl, .inl ⟨_, waits⟩, fun _ => .inl ⟨_, waits⟩⟩
    · exact (names.told entry old).mono fun _ waiting => List.mem_append_left _ waiting

/-- A reference names one entry. -/
theorem object_unique {m : State} {lookups : List (Nat × String)} (names : Names users known m lookups)
    {ref : Nat} {entry other : ItemWithObserver} (found : m.object ref = some entry) (member : other ∈ m.data ++ m.dropped)
    (same : other.ref = ref) : other = entry := by
  have entryRef : entry.ref = ref := by simpa using List.find?_some found
  have entryMember := List.mem_of_find?_eq_some found
  exact List.inj_on_of_nodup_map names.distinct member entryMember (same.trans entryRef.symm)

/-- A change of one entry, after which all entries show what they were told. -/
theorem modify {m : State} {lookups later : List (Nat × String)} {reads : List NameRead}
    (names : Names users known m lookups) {ref : Nat} {change : Item → Item} {entry : ItemWithObserver}
    (found : m.object ref = some entry) (lookedUp : ∀ lookup ∈ later, lookup ∈ lookups ∨ lookup.1 = ref)
    (changed : Told users known later reads { entry with item := change entry.item })
    (others : ∀ other ∈ m.data ++ m.dropped, other.ref ≠ ref → Told users known later reads other) :
    Names users known { m.modify ref change with nameReads := reads } later := by
  have entries : (m.modify ref change).data ++ (m.modify ref change).dropped = (m.data ++ m.dropped).map
      (fun other => if other.ref = ref then { other with item := change other.item } else other) := by
    simp [State.modify]
  have sameRef : ∀ other : ItemWithObserver,
      (if other.ref = ref then { other with item := change other.item } else other).ref = other.ref := by
    intro other
    split <;> rfl
  have entryRef : entry.ref = ref := by simpa using List.find?_some found
  constructor
  · show ∀ e ∈ (m.modify ref change).data ++ (m.modify ref change).dropped, _
    rw [entries, List.forall_mem_map]
    intro other member
    rw [sameRef]
    exact names.below other member
  · show (((m.modify ref change).data ++ (m.modify ref change).dropped).map ItemWithObserver.ref).Nodup
    rw [entries, List.map_map]
    have same : ((m.data ++ m.dropped).map (ItemWithObserver.ref ∘ fun other : ItemWithObserver =>
        if other.ref = ref then { other with item := change other.item } else other)) =
        (m.data ++ m.dropped).map ItemWithObserver.ref := List.map_congr_left fun other _ => sameRef other
    rw [same]
    exact names.distinct
  · intro lookup member
    rcases lookedUp lookup member with old | new
    · exact names.lookedUp lookup old
    · rw [new, ← entryRef]
      exact names.below entry (List.mem_of_find?_eq_some found)
  · show ∀ e ∈ (m.modify ref change).data ++ (m.modify ref change).dropped, _
    rw [entries, List.forall_mem_map]
    intro other member
    by_cases same : other.ref = ref
    · rw [if_pos same, names.object_unique found member same]
      exact changed
    · rw [if_neg same]
      exact others other member same

theorem itemsAnswered {m n : State} {lookups : List (Nat × String)} (names : Names users known m lookups)
    {itemsTableSnapshot : Snapshot} {itemsIds : List Key}
    (answered : m.itemsAnswered itemsTableSnapshot itemsIds = some n) : Names users known n lookups := by
  have loaded : Names users known { m with load := .answered } lookups := ⟨names.below, names.distinct, names.lookedUp, names.told⟩
  exact State.itemsAnswered_keep sameItems (fun names added => names.addLoadedItem added) loaded answered

theorem itemsChildRemoved {m : State} {lookups : List (Nat × String)} (names : Names users known m lookups)
    (itemId : Key) : Names users known (m.itemsChildRemoved itemId) lookups := by
  unfold State.itemsChildRemoved
  split
  · rename_i itemIndex found
    obtain ⟨inside, _⟩ := List.findIdx?_eq_some_iff_getElem.mp found
    refine sameItems ?_ (State.tell_sameItems _ _).1
    refine names.perm ?_ rfl rfl
    -- The entry at the index moves from `data` to the end of `dropped`.
    have split : (m.data[itemIndex] :: m.data.eraseIdx itemIndex).Perm m.data := List.getElem_cons_eraseIdx_perm inside
    show (m.data.eraseIdx itemIndex ++ (m.dropped ++ m.data[itemIndex]?.toList)).Perm (m.data ++ m.dropped)
    rw [List.getElem?_eq_getElem inside, Option.toList_some, ← List.append_assoc]
    refine (List.perm_append_singleton _ _).trans ?_
    rw [← List.cons_append]
    exact split.append_right _
  · exact names

theorem itemUpdated {m n : State} {lookups : List (Nat × String)} (names : Names users known m lookups)
    {ref : Nat} {field : Key} {value : Option Value} (updated : m.itemUpdated ref field value = some n) :
    Names users known n lookups := by
  obtain ⟨entry, found, rfl⟩ := State.itemUpdated_eq_some.mp updated
  have entryRef : entry.ref = ref := by simpa using List.find?_some found
  subst entryRef
  refine names.modify found (fun _ => .inl) ?_ ?_
  · exact (names.told entry (List.mem_of_find?_eq_some found)).update _ _
  · exact fun other member _ => (names.told other member).mono fun _ waiting => List.mem_append_left _ waiting

/-- The answer to a read records whose name it looked up. -/
theorem namesAnswered {m n : State} {lookups : List (Nat × String)} (names : Names users known m lookups)
    {read : NameRead} {entry : ItemWithObserver} (found : m.object read.ref = some entry)
    (looksUp : known → entry.item.checked = true → Known users lookups entry) (answered : m.namesAnswered read users = some n) : Names users known n ((read.ref, entry.item.checkedById) :: lookups) := by
  obtain ⟨waiting, usersData, dictionary, other, sameFound, authorName, author, checkedByName, checker, rfl⟩ :=
    State.namesAnswered_eq_some.mp answered
  obtain rfl : entry = other := Option.some.inj (found.symm.trans sameFound)
  rw [(dictionary?_eq_some dictionary).1] at author checker
  obtain rfl := nameFor_eq_some author
  obtain rfl := nameFor_eq_some checker
  have entryRef : entry.ref = read.ref := by simpa using List.find?_some found
  refine sameItems ?_ (State.complete_sameItems _ _).1
  show Names users known { m.modify read.ref (setNames _ _) with nameReads := m.nameReads.erase read } _
  refine names.modify found ?_ ?_ ?_
  · intro lookup member
    rcases List.mem_cons.mp member with rfl | old
    · exact .inr rfl
    · exact .inl old
  · rw [← entryRef]
    exact (names.told entry (List.mem_of_find?_eq_some found)).answer looksUp
  · intro other member differs
    have told := names.told other member
    have sameCheckers : checkers ((read.ref, entry.item.checkedById) :: lookups) other.ref = checkers lookups other.ref :=
      checkers_other (Ne.symm differs) lookups
    have stillWaits : (∃ completion, ⟨other.ref, completion⟩ ∈ m.nameReads) →
        ∃ completion, (⟨other.ref, completion⟩ : NameRead) ∈ m.nameReads.erase read := by
      rintro ⟨completion, waits⟩
      refine ⟨completion, (List.mem_erase_of_ne ?_).mpr waits⟩
      rintro rfl
      exact differs rfl
    refine ⟨?_, ?_, ?_, ?_⟩
    · rw [sameCheckers]
      exact told.author
    · rw [sameCheckers]
      exact told.checker
    · rw [sameCheckers]
      exact told.recent.imp_left stillWaits
    · rw [Known, sameCheckers]
      exact fun isKnown => (told.current isKnown).imp_left stillWaits

theorem handle {m n : State} {lookups : List (Nat × String)} (names : Names users known m lookups)
    {input : Input} (noAnswer : ∀ read usersSnapshot, input ≠ .namesAnswered read usersSnapshot)
    (handled : SingleListManager.handle m input = some n) : Names users known n lookups := by
  cases input with
  | loadData =>
    obtain ⟨_, rfl⟩ := Option.ite_none_right_eq_some.mp handled |>.imp_right Option.some.inj
    exact ⟨names.below, names.distinct, names.lookedUp, names.told⟩
  | itemsAnswered itemsTableSnapshot itemsIds => exact names.itemsAnswered handled
  | namesAnswered read usersSnapshot => exact absurd rfl (noAnswer read usersSnapshot)
  | itemsChildAdded itemId itemSnapshot =>
    rcases State.itemsChildAdded_cases handled with ⟨_, rfl⟩ | ⟨_, itemDict, _, added⟩
    · exact names
    · exact names.addLoadedItem added
  | itemsChildRemoved itemId =>
    cases handled
    exact names.itemsChildRemoved itemId
  | itemUpdated ref field value => exact names.itemUpdated handled
  | delegateGone =>
    cases handled
    exact ⟨names.below, names.distinct, names.lookedUp, names.told⟩

end Names

theorem names_step {s t : Session} {action : Action} (names : Names users known s.manager s.lookups)
    (looksUp : known → LooksUpKnown users s action) (stepped : s.step users action = some t) : Names users known t.manager t.lookups := by
  cases action with
  | raise event =>
    simp only [step, Option.ite_none_right_eq_some, Option.some.injEq] at stepped
    obtain ⟨_, rfl⟩ := stepped
    exact names
  | deliver event =>
    simp only [step, Option.ite_none_right_eq_some, Option.map_eq_some_iff] at stepped
    obtain ⟨⟨_, isEvent⟩, manager, handled, rfl⟩ := stepped
    refine names.handle ?_ handled
    rintro read usersSnapshot rfl
    cases isEvent
  | input input =>
    unfold step at stepped
    split at stepped
    · rename_i same
      cases same
    · rename_i same
      cases same
    · rename_i same
      cases same
      simp only [Option.ite_none_right_eq_some, Option.bind_eq_bind, Option.pure_def, Option.bind_eq_some_iff,
        Option.some.injEq] at stepped
      obtain ⟨rfl, entry, found, manager, handled, rfl⟩ := stepped
      exact names.namesAnswered found (fun isKnown => looksUp isKnown entry found) handled
    · rename_i input other same
      cases same
      simp only [Option.ite_none_left_eq_some, Option.map_eq_some_iff] at stepped
      obtain ⟨_, manager, handled, rfl⟩ := stepped
      refine names.handle ?_ handled
      rintro read usersSnapshot rfl
      exact other read usersSnapshot rfl

/-- In every state of a run the items are attributed rightly exactly where no stale name can be shown. -/
theorem attributed_iff {s : Session} (names : Names users known s.manager s.lookups) :
    Attributed users s ↔ NoStaleName users s := by
  refine imp_congr_right fun quiet => forall₂_congr fun entry member => ?_
  have told := names.told entry (List.mem_append_left _ member)
  rw [quiet.2.1] at told
  obtain ⟨author, checker⟩ := told.quiet
  rw [← checker]
  exact and_iff_right author

/-- A run attributes every item rightly in all its quiet states exactly when in
    each of them every checked item has a listed checker or none with a name was looked up before. -/
theorem always_attributed_iff (users : Snapshot) (list : ListObject) (actions : List Action) :
    Runs.Always (step users) (Attributed users) (new list) actions ↔
      Runs.Always (step users) (NoStaleName users) (new list) actions := by
  refine Runs.always_congr (I := fun s => Names users False s.manager s.lookups) (fun _ names => attributed_iff names) ?_
    (Names.new users list) actions
  exact fun _ _ _ names stepped => names_step names False.elim stepped

/-- A run does when no names are read for an item that an unlisted user has checked after a listed one. -/
theorem attributed_of_looksUp (users : Snapshot) (list : ListObject) (actions : List Action)
    (looksUp : Runs.Along (step users) (LooksUpKnown users) (new list) actions) :
    Runs.Always (step users) (Attributed users) (new list) actions := by
  have always : Runs.Always (step users) (fun s => Names users True s.manager s.lookups) (new list) actions :=
    Runs.always_of_invariant (fun _ _ _ names looksUp stepped => names_step names (fun _ => looksUp) stepped)
      (Names.new users list) looksUp
  refine always.mono fun s names => (attributed_iff names).mpr fun quiet entry member => ?_
  refine ((names.told entry (List.mem_append_left _ member)).current trivial).resolve_left ?_
  rw [quiet.2.1]
  simp

/-- An event of the first item, its delivery and the answer to the read it starts. -/
def changed (field : Key) (value : Value) : List Action :=
  [.raise (.itemUpdated 0 field (some value)), .deliver (.itemUpdated 0 field (some value)),
   .input (.namesAnswered ⟨0, .itemChanged⟩ Sample.aliceUsers)]

/-- Alice checks the item; Bob, whom the list does not name, unchecks it and checks it himself. -/
def checkedByBobRun : List Action :=
  open Sample in
  [.input .loadData, .input (.itemsAnswered (Tree.empty.put [milk] milkRecord) [milk]),
   .input (.namesAnswered ⟨0, .addLoadedItem true⟩ aliceUsers)] ++
  changed Keys.checked (.bool true) ++ changed Keys.checked_by_id (.string alice.val) ++
  changed Keys.checked (.bool false) ++ changed Keys.checked_by_id (.string "NONE") ++
  changed Keys.checked (.bool true) ++ changed Keys.checked_by_id (.string bob.val)

theorem earlier_checker_shown :
    ¬ ∀ users list actions, Runs.Always (step users) (Attributed users) (new list) actions := by
  intro claim
  have passed : (Runs.exec (step Sample.aliceUsers) (new Sample.groceryList) checkedByBobRun).any (fun s => decide (Quiet s ∧
      s.manager.data.any (fun entry => entry.item.checked ∧ entry.item.checkedById = Sample.bob.val ∧
        entry.item.checkedByName = "Alice") ∧ listedName Sample.aliceUsers Sample.bob.val = none)) = true := by
    decide +kernel
  obtain ⟨s, attributed, shown⟩ := (claim Sample.aliceUsers Sample.groceryList checkedByBobRun).of_any passed
  obtain ⟨quiet, stale, unlisted⟩ := of_decide_eq_true shown
  obtain ⟨entry, member, entryStale⟩ := List.any_eq_true.mp stale
  obtain ⟨checked, byBob, named⟩ := of_decide_eq_true entryStale
  have right := (attributed quiet entry member).2 checked
  simp [byBob, unlisted, named] at right

end Session
end SharedList.SingleListManager
