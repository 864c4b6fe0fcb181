import SharedList.ListsManager
import Mathlib.Data.List.Perm.Subperm

/-!
The one load of `ListsManager`. `LoadData` starts a read for each key, and the
blocks of the reads share a counter: the block that takes it to zero, whichever
list it brings, reports the end. A block that is never called, as that of a read
that the server refuses, leaves the counter where it is.
-/
namespace SharedList.ListsManager

/-- What comes while the lists are read. -/
inductive Reply where
  | answered (listId : Key) (listSnapshot : Snapshot)
  /-- The server cancels the read; `LoadData` gives it no block for that. -/
  | cancelled (listId : Key)
  | changed (id field : Key) (value : Option Value)

namespace Reply

/-- The read that is over with it. -/
def read? : Reply → Option Key
  | .answered listId _ => some listId
  | .cancelled listId => some listId
  | .changed .. => none

/-- The list it brings. -/
def list? : Reply → Option ListObject
  | .answered listId listSnapshot => ListObject.read listId listSnapshot
  | .cancelled _ | .changed .. => none

/-- The record is well formed, where there is one to read. -/
def Readable : Reply → Prop
  | .answered listId listSnapshot => (ListObject.read listId listSnapshot).isSome
  | .cancelled _ => False
  | .changed .. => True

instance : DecidablePred Readable
  | .answered .. => inferInstanceAs (Decidable (_ = true))
  | .cancelled _ => inferInstanceAs (Decidable False)
  | .changed .. => inferInstanceAs (Decidable True)

/-- No access, or no record. -/
def Bad : Reply → Prop
  | .answered _ listSnapshot => listSnapshot.leaves = []
  | .cancelled _ => True
  | .changed .. => False

end Reply

def replied (s : State) : Reply → Option State
  | .answered listId listSnapshot => handle s (.loadReadAnswered listId listSnapshot)
  | .cancelled listId => if listId ∈ s.loadReads then some { s with loadReads := s.loadReads.erase listId } else none
  | .changed id field value => handle s (.listChanged id field value)

/-- The lists that were found, in the order of the answers. -/
def found (replies : List Reply) : List ListObject := replies.filterMap Reply.list?

/-- A list without its title, the part that `Update` changes. -/
def fixed (list : ListObject) : Key × String × String := (list.id, list.owner_id, list.items_id)

/-- The calls after `k` of `n` answers: the observers are added once, after `DataLoaded`. -/
def loadCalls (n k : Nat) : List Call :=
  if k < n then List.replicate k (.delegate .newListAdded)
  else List.replicate (n - 1) (.delegate .newListAdded) ++ .delegate .dataLoaded :: State.registrations

/-- A load of `n` lists that has brought some of them. -/
structure Loading (n : Nat) (lists : List ListObject) (s : State) : Prop where
  delegate : s.delegate = true
  counter : s.load = .loading (n - lists.length)
  room : s.loadReads.length + lists.length ≤ n
  noOtherRead : s.addReads = []
  data : s.data.map fixed = lists.map fixed
  /-- But for `ListUpdated`. -/
  calls : s.made.filter (· ≠ .delegate .listUpdated) = loadCalls n lists.length
  observers : s.observerActive = decide (lists.length = n)

/-! ## One reply -/

theorem updateField_fixed (list : ListObject) (key : Key) (value : Option Value) :
    fixed (list.update [(key, value)]) = fixed list := by
  simp only [ListObject.update, List.foldl_cons, List.foldl_nil]
  unfold ListObject.updateField
  split
  · split <;> rfl
  · rfl

theorem tell_listUpdated (entries : List ListObject) (s : State) :
    ∃ more, entries.foldl (fun s _ => s.tell .listUpdated) s = { s with made := s.made ++ more } ∧
      more.filter (· ≠ .delegate .listUpdated) = [] := by
  induction entries generalizing s with
  | nil => exact ⟨[], by simp, rfl⟩
  | cons _ rest ih =>
    obtain ⟨more, told, onlyUpdated⟩ := ih (s.tell .listUpdated)
    rw [List.foldl_cons, told]
    unfold State.tell
    split
    · exact ⟨.delegate .listUpdated :: more, by simp, by simpa using onlyUpdated⟩
    · exact ⟨more, rfl, onlyUpdated⟩

theorem Loading.changed {n : Nat} {lists : List ListObject} {s : State} (loading : Loading n lists s) (id field : Key)
    (value : Option Value) : Loading n lists (s.listChanged id field value) := by
  obtain ⟨more, told, onlyUpdated⟩ := tell_listUpdated ((s.data ++ s.dropped).filter (fun list => list.id = id))
    { s with data := s.data.map (State.updated id field value), dropped := s.dropped.map (State.updated id field value) }
  rw [State.listChanged, told]
  refine ⟨loading.delegate, loading.counter, loading.room, loading.noOtherRead, ?_, ?_, loading.observers⟩
  · rw [← loading.data, List.map_map]
    refine List.map_congr_left fun list _ => ?_
    simp only [Function.comp_apply, State.updated]
    split
    · exact updateField_fixed list field value
    · rfl
  · rw [List.filter_append, onlyUpdated, List.append_nil, loading.calls]

theorem loadCalls_succ {n k : Nat} (before : k < n) :
    loadCalls n (k + 1) = loadCalls n k ++
      if k + 1 = n then .delegate .dataLoaded :: State.registrations else [.delegate .newListAdded] := by
  unfold loadCalls
  rw [if_pos before]
  by_cases last : k + 1 = n
  · rw [if_neg (by omega), if_pos last, ← last]
    rfl
  · rw [if_pos (by omega), if_neg last, List.replicate_succ']

/-- An answer, in a load with its delegate whose observers are not active. -/
theorem loadReadAnswered_eq {s : State} {listsCounter : Int} (loading : s.load = .loading listsCounter) (alive : s.delegate = true)
    (inactive : s.observerActive = false) {listId : Key} {listSnapshot : Snapshot} : s.loadReadAnswered listId listSnapshot =
      if listId ∈ s.loadReads then (ListObject.read listId listSnapshot).map (fun list =>
        { s with
          loadReads := s.loadReads.erase listId, data := s.data ++ [list], load := .loading (listsCounter - 1),
          made := s.made ++ if listsCounter - 1 = 0 then .delegate .dataLoaded :: State.registrations else [.delegate .newListAdded],
          observerActive := decide (listsCounter - 1 = 0) })
      else none := by
  simp only [State.loadReadAnswered, loading, State.addListWithObserver]
  refine if_congr Iff.rfl ?_ rfl
  cases ListObject.read listId listSnapshot with
  | none => rfl
  | some list =>
    simp only [Option.bind_eq_bind, Option.bind_some, Option.pure_def, Option.map_some, alive, if_true, State.tell,
      State.activateObservers]
    by_cases last : listsCounter - 1 = 0
    · simp [last, inactive]
    · simp [last, inactive]

/-- While a list is waited for, not all have come. -/
theorem Loading.inTime {n : Nat} {lists : List ListObject} {s : State} (loading : Loading n lists s) {listId : Key}
    (waiting : listId ∈ s.loadReads) : lists.length < n ∧ s.observerActive = false := by
  have some := List.length_pos_of_mem waiting
  have room := loading.room
  have before : lists.length < n := by omega
  exact ⟨before, by rw [loading.observers, decide_eq_false before.ne]⟩

theorem Loading.answered {n : Nat} {lists : List ListObject} {s t : State} (loading : Loading n lists s) {listId : Key}
    {listSnapshot : Snapshot} (stepped : s.loadReadAnswered listId listSnapshot = some t) :
    ∃ list, ListObject.read listId listSnapshot = some list ∧ Loading n (lists ++ [list]) t := by
  have waiting : listId ∈ s.loadReads := (State.loadReadAnswered_spec stepped).choose_spec.2.1
  obtain ⟨inTime, inactive⟩ := loading.inTime waiting
  rw [loadReadAnswered_eq loading.counter loading.delegate inactive, if_pos waiting, Option.map_eq_some_iff] at stepped
  obtain ⟨list, read, rfl⟩ := stepped
  have last : ((n : Int) - lists.length - 1 = 0) ↔ lists.length + 1 = n := by omega
  refine ⟨list, read, loading.delegate, ?_, ?_, loading.noOtherRead, ?_, ?_, ?_⟩
  · simp only [List.length_append, List.length_singleton, Load.loading.injEq]
    omega
  · have := loading.room
    simp only [List.length_erase_of_mem waiting, List.length_append, List.length_singleton]
    omega
  · simp [loading.data]
  · simp only [List.filter_append, loading.calls, List.length_append, List.length_singleton, loadCalls_succ inTime, last]
    split <;> rfl
  · simp only [List.length_append, List.length_singleton, last]

theorem Loading.replied {n : Nat} {lists : List ListObject} {s t : State} (loading : Loading n lists s) {reply : Reply}
    (stepped : ListsManager.replied s reply = some t) : Loading n (lists ++ reply.list?.toList) t := by
  cases reply with
  | answered listId listSnapshot =>
    obtain ⟨list, read, next⟩ := loading.answered stepped
    rw [Reply.list?, read]
    exact next
  | cancelled listId =>
    obtain ⟨waiting, stepped⟩ := Option.ite_none_right_eq_some.mp stepped
    obtain rfl := Option.some.inj stepped
    rw [Reply.list?, Option.toList_none, List.append_nil]
    have fewer : (s.loadReads.erase listId).length ≤ s.loadReads.length := List.length_erase_le
    have := loading.room
    exact ⟨loading.delegate, loading.counter, by simp only; omega, loading.noOtherRead, loading.data, loading.calls, loading.observers⟩
  | changed id field value =>
    obtain rfl := Option.some.inj stepped
    rw [Reply.list?, Option.toList_none, List.append_nil]
    exact loading.changed id field value

/-- All replies. -/
theorem Loading.run {n : Nat} {lists : List ListObject} {s t : State} (loading : Loading n lists s) {replies : List Reply}
    (ran : Runs.exec ListsManager.replied s replies = some t) : Loading n (lists ++ found replies) t := by
  induction replies generalizing s lists with
  | nil =>
    cases ran
    simpa [found] using loading
  | cons reply rest ih =>
    obtain ⟨u, stepped, later⟩ := Option.bind_eq_some_iff.mp ran
    have whole := ih (loading.replied stepped) later
    have split : found (reply :: rest) = reply.list?.toList ++ found rest := by
      unfold found
      cases read : reply.list? <;> simp [read]
    rwa [split, ← List.append_assoc]

/-! ## The start -/

theorem childKeys_ne_nil {data read : Snapshot} (dictionary : dictionary? data = some read) : data.childKeys ≠ [] := by
  simp only [dictionary?, Option.ite_none_left_eq_some, not_or, Option.some.injEq] at dictionary
  obtain ⟨⟨filled, noRoot, _⟩, _⟩ := dictionary
  obtain ⟨⟨path, value⟩, leaf⟩ := List.exists_mem_of_ne_nil _ filled
  cases path with
  | nil => simp [Tree.at?_eq_some.mpr leaf] at noRoot
  | cons k r => exact List.ne_nil_of_mem (Tree.mem_childKeys.mpr (Tree.present_iff.mpr ⟨r, value, leaf⟩))

/-- The answer to the read of the keys. -/
theorem keysAnswered_loading {listsSnapshot : Snapshot} {s : State}
    (started : Runs.exec handle State.new [.loadData, .keysAnswered listsSnapshot] = some s) :
    Loading listsSnapshot.childKeys.length [] s ∧ s.loadReads = listsSnapshot.childKeys := by
  have answered : State.keysAnswered { State.new with load := .awaitingKeys } listsSnapshot = some s := by
    simpa [Runs.exec, handle, State.loadData, State.new] using started
  unfold State.keysAnswered at answered
  rw [if_pos rfl] at answered
  by_cases empty : listsSnapshot.leaves = []
  · have noKeys : listsSnapshot.childKeys = [] := by simp [Tree.childKeys, empty]
    rw [if_pos empty] at answered
    obtain rfl := Option.some.inj answered
    rw [noKeys]
    exact ⟨⟨rfl, rfl, Nat.le_refl 0, rfl, rfl, rfl, rfl⟩, rfl⟩
  · rw [if_neg empty] at answered
    simp only [Option.bind_eq_bind, Option.pure_def, Option.bind_eq_some_iff, Option.some.injEq] at answered
    obtain ⟨listsIds, dictionary, rfl⟩ := answered
    have someKeys := List.length_pos_of_ne_nil (childKeys_ne_nil dictionary)
    obtain ⟨rfl, _⟩ := dictionary?_eq_some dictionary
    refine ⟨⟨rfl, by simp, Nat.le_refl _, rfl, rfl, ?_, ?_⟩, rfl⟩
    · rw [loadCalls, List.length_nil, if_pos someKeys]
      rfl
    · rw [List.length_nil, decide_eq_false someKeys.ne]
      rfl

theorem keysAnswered_succeeds {listsSnapshot : Snapshot}
    (keys : listsSnapshot.leaves = [] ∨ (dictionary? listsSnapshot).isSome) :
    ∃ s, Runs.exec handle State.new [.loadData, .keysAnswered listsSnapshot] = some s := by
  have started : Runs.exec handle State.new [.loadData, .keysAnswered listsSnapshot] =
      State.keysAnswered { State.new with load := .awaitingKeys } listsSnapshot := by
    simp [Runs.exec, handle, State.loadData, State.new]
  rw [started]
  unfold State.keysAnswered
  rw [if_pos rfl]
  by_cases empty : listsSnapshot.leaves = []
  · rw [if_pos empty]
    exact ⟨_, rfl⟩
  · rw [if_neg empty]
    obtain ⟨listsIds, dictionary⟩ := Option.isSome_iff_exists.mp (keys.resolve_left empty)
    rw [dictionary]
    exact ⟨_, rfl⟩

/-! ## Every record well formed -/

/-- A well-formed record that was waited for is taken in. -/
theorem Loading.succeeds {n : Nat} {lists : List ListObject} {s : State} (loading : Loading n lists s) {reply : Reply}
    (readable : reply.Readable) (waiting : ∀ listId, reply.read? = some listId → listId ∈ s.loadReads) :
    ∃ t, ListsManager.replied s reply = some t ∧ t.loadReads = s.loadReads.diff reply.read?.toList := by
  cases reply with
  | answered listId listSnapshot =>
    obtain ⟨list, read⟩ := Option.isSome_iff_exists.mp readable
    have inactive := (loading.inTime (waiting listId rfl)).2
    have succeeds : s.loadReadAnswered listId listSnapshot = _ := loadReadAnswered_eq loading.counter loading.delegate inactive
    rw [if_pos (waiting listId rfl), read, Option.map_some] at succeeds
    exact ⟨_, succeeds, by simp [Reply.read?]⟩
  | cancelled listId => exact readable.elim
  | changed id field value =>
    obtain ⟨_, _, sameReads, _⟩ := State.listChanged_spec s id field value
    exact ⟨_, rfl, sameReads⟩

theorem Loading.run_succeeds {n : Nat} {lists : List ListObject} {s : State} (loading : Loading n lists s) {replies : List Reply}
    (readable : ∀ reply ∈ replies, reply.Readable) (reads : List.Subperm (replies.filterMap Reply.read?) s.loadReads) :
    ∃ t, Runs.exec ListsManager.replied s replies = some t := by
  induction replies generalizing s lists with
  | nil => exact ⟨s, rfl⟩
  | cons reply rest ih =>
    have split : (reply :: rest).filterMap Reply.read? = reply.read?.toList ++ rest.filterMap Reply.read? := by
      cases read : reply.read? <;> simp [read]
    rw [split] at reads
    obtain ⟨t, stepped, sameReads⟩ := loading.succeeds (readable reply List.mem_cons_self) (fun listId read =>
      reads.subset (List.mem_append_left _ (by simp [read])))
    obtain ⟨u, ran⟩ := ih (loading.replied stepped) (fun other member => readable other (List.mem_cons_of_mem _ member))
      (by
        rw [sameReads]
        cases read : reply.read? with
        | none => simpa [read] using reads
        | some listId => simpa [read] using reads.erase listId)
    exact ⟨u, Option.bind_eq_some_iff.mpr ⟨t, stepped, ran⟩⟩

theorem found_ids {replies : List Reply} (readable : ∀ reply ∈ replies, reply.Readable) :
    (found replies).map ListObject.id = replies.filterMap Reply.read? := by
  have one : ∀ reply ∈ replies, reply.list?.map ListObject.id = reply.read? := by
    intro reply member
    cases reply with
    | answered listId listSnapshot =>
      obtain ⟨list, read⟩ := Option.isSome_iff_exists.mp (readable _ member)
      have listId := (ListObject.deserialize_eq_some.mp (ListObject.read_eq_some.mp read)).1
      rw [Reply.list?, read, Option.map_some, listId, Reply.read?]
    | cancelled listId => exact (readable _ member).elim
    | changed => rfl
  rw [found, List.map_filterMap]
  exact List.filterMap_congr one

theorem Loading.ids {n : Nat} {lists : List ListObject} {s : State} (loading : Loading n lists s) :
    s.ids = lists.map ListObject.id := by
  have sameIds := congrArg (List.map Prod.fst) loading.data
  rw [List.map_map, List.map_map] at sameIds
  exact sameIds

/-- `childAdded` comes again for lists that are held. -/
theorem replay_held {s : State} {replay : List Key} (held : ∀ listId ∈ replay, listId ∈ s.ids) :
    Runs.exec handle s (replay.map (fun listId => .child (.added listId))) = some s := by
  induction replay with
  | nil => rfl
  | cons listId rest ih =>
    refine Option.bind_eq_some_iff.mpr ⟨s, ?_, ih fun other member => held other (List.mem_cons_of_mem _ member)⟩
    rw [handle, State.listsKeysChildAdded, if_pos (State.findListIndex_isSome.mpr (held listId List.mem_cons_self))]

/-- The load goes on with every reply, tells the delegate of each list but the last and
    then of the end, and holds the lists in the order of their answers; the observers are
    added with the last answer, after the end is told, and what they report first changes nothing. -/
def LoadsOnce (listsSnapshot : Snapshot) (replies : List Reply) : Prop :=
  ∃ start, Runs.exec handle State.new [.loadData, .keysAnswered listsSnapshot] = some start ∧
    (∀ before after, replies = before ++ after → ∃ s, Runs.exec replied start before = some s ∧
      Loading listsSnapshot.childKeys.length (found before) s ∧
      (found before).map ListObject.id = before.filterMap Reply.read?) ∧
    ∀ t, Runs.exec replied start replies = some t → ∀ replay : List Key, (∀ listId ∈ replay, listId ∈ listsSnapshot.childKeys) →
      Runs.exec handle t (replay.map (fun listId => .child (.added listId))) = some t

theorem lists_load_once {listsSnapshot : Snapshot} (keys : listsSnapshot.leaves = [] ∨ (dictionary? listsSnapshot).isSome)
    {replies : List Reply} (readable : ∀ reply ∈ replies, reply.Readable)
    (order : (replies.filterMap Reply.read?).Perm listsSnapshot.childKeys) : LoadsOnce listsSnapshot replies := by
  obtain ⟨start, started⟩ := keysAnswered_succeeds keys
  obtain ⟨loading, reads⟩ := keysAnswered_loading started
  refine ⟨start, started, ?_, ?_⟩
  · rintro before after rfl
    have readableBefore : ∀ reply ∈ before, reply.Readable := fun reply member => readable reply (List.mem_append_left _ member)
    have readsBefore : List.Subperm (before.filterMap Reply.read?) start.loadReads := by
      rw [reads]
      refine List.Subperm.trans ?_ order.subperm
      rw [List.filterMap_append]
      exact (List.sublist_append_left _ _).subperm
    obtain ⟨s, ran⟩ := loading.run_succeeds readableBefore readsBefore
    exact ⟨s, ran, loading.run ran, found_ids readableBefore⟩
  · intro t ran replay loaded
    refine replay_held fun listId member => ?_
    rw [(loading.run ran).ids, List.nil_append, found_ids readable]
    exact order.mem_iff.mpr (loaded listId member)

def twoKeys : Snapshot := (Tree.empty.put [Sample.groceries] (bool true)).put [Sample.hardware] (bool true)
/-- The second list first, which gets another title before the first one comes. -/
def twoReplies : List Reply :=
  [.answered Sample.hardware (ListObject.serialize "Hardware" "bob" "hardwareItems"), .changed Sample.hardware Keys.title (some (.string "Tools")),
   .answered Sample.groceries Sample.groceryRecord]

theorem lists_load_once_twoReplies : LoadsOnce twoKeys twoReplies :=
  lists_load_once (by decide +kernel) (by decide +kernel) (by decide +kernel)

/-- One list under the key `0`: the node of the keys is an array of one element. -/
def numberedKeys : Snapshot := Tree.empty.put [{ val := "0" }] (bool true)

theorem numbered_keys_stop : ¬ ∀ (listsSnapshot : Snapshot) (replies : List Reply),
    (∀ l ∈ listsSnapshot.leaves, ∃ listId, l = ([listId], .bool true)) → (∀ reply ∈ replies, reply.Readable) →
    (replies.filterMap Reply.read?).Perm listsSnapshot.childKeys → LoadsOnce listsSnapshot replies := by
  intro claim
  obtain ⟨start, started, _⟩ := claim numberedKeys [.answered { val := "0" } Sample.groceryRecord]
    (by simp [numberedKeys, Tree.put, Tree.empty]) (by decide +kernel) (by decide +kernel)
  have stops : Runs.exec handle State.new [.loadData, .keysAnswered numberedKeys] = none := by decide +kernel
  rw [stops] at started
  cases started

/-! ## A bad list -/

/-- Once every read is over, the lists that were found are held, `DataLoaded` has been
    called once and the observers are active. -/
def LoadsOthers (start : State) (replies : List Reply) : Prop :=
  ∃ t, Runs.exec replied start replies = some t ∧ t.data.map fixed = (found replies).map fixed ∧
    t.calls.count .dataLoaded = 1 ∧ t.observerActive = true

theorem absent_unread {id : Key} {listSnapshot : Snapshot} (absent : listSnapshot.leaves = []) :
    ListObject.read id listSnapshot = none := by
  cases read : ListObject.read id listSnapshot with
  | none => rfl
  | some list =>
    have title := (ListObject.deserialize_eq_some.mp (ListObject.read_eq_some.mp read)).2.1
    simp [stringAt_eq_some, absent] at title

/-- A reply that brings a list ends a read. -/
theorem found_le (replies : List Reply) : (found replies).length ≤ (replies.filterMap Reply.read?).length := by
  have one : ∀ reply : Reply, reply.list?.isSome → reply.read?.isSome := by
    intro reply brings
    cases reply with
    | answered | cancelled => rfl
    | changed => cases brings
  rw [found, List.length_filterMap_eq_countP, List.length_filterMap_eq_countP]
  exact List.countP_mono_left fun reply _ => one reply

/-- A bad one ends a read and brings none. -/
theorem found_lt {replies : List Reply} (bad : ∃ reply ∈ replies, reply.Bad) :
    (found replies).length < (replies.filterMap Reply.read?).length := by
  obtain ⟨reply, member, bad⟩ := bad
  obtain ⟨before, after, rfl⟩ := List.append_of_mem member
  obtain ⟨listId, ends⟩ : ∃ listId, reply.read? = some listId := by
    cases reply with
    | answered | cancelled => exact ⟨_, rfl⟩
    | changed => exact bad.elim
  have brings : reply.list? = none := by
    cases reply with
    | answered => exact absent_unread bad
    | cancelled | changed => rfl
  have first := found_le before
  have last := found_le after
  simp only [found, List.filterMap_append, List.filterMap_cons, brings, ends, List.length_append, List.length_cons] at first last ⊢
  omega

/-- No load with a bad list ends, and the record that is missing also fails a read of `ListsKeysChildAdded`. -/
theorem bad_list_blocks {listsSnapshot : Snapshot} {start : State}
    (started : Runs.exec handle State.new [.loadData, .keysAnswered listsSnapshot] = some start) {replies : List Reply}
    (all : (replies.filterMap Reply.read?).Perm listsSnapshot.childKeys) (bad : ∃ reply ∈ replies, reply.Bad) :
    ¬ LoadsOthers start replies ∧ ∀ (s : State) (listId : Key) (listSnapshot : Snapshot), listId ∈ s.addReads →
      listSnapshot.leaves = [] → handle s (.addReadAnswered listId listSnapshot) = none := by
  constructor
  · rintro ⟨t, ran, _, _, active⟩
    have loading := (keysAnswered_loading started).1.run ran
    have fewer := found_lt bad
    rw [loading.observers, decide_eq_true_eq, List.nil_append] at active
    rw [active, all.length_eq] at fewer
    exact Nat.lt_irrefl _ fewer
  · intro s listId listSnapshot waiting absent
    simp [handle, State.addReadAnswered, waiting, State.addListWithObserver, absent_unread absent]

/-- The second list may not be read. -/
def refusedReplies : List Reply := [.answered Sample.groceries Sample.groceryRecord, .cancelled Sample.hardware]

theorem refused_list_blocks : ¬ ∀ (listsSnapshot : Snapshot) (start : State) (replies : List Reply),
    Runs.exec handle State.new [.loadData, .keysAnswered listsSnapshot] = some start →
    (replies.filterMap Reply.read?).Perm listsSnapshot.childKeys → (∃ reply ∈ replies, reply.Bad) →
    LoadsOthers start replies := by
  intro claim
  obtain ⟨start, started⟩ : ∃ start, Runs.exec handle State.new [.loadData, .keysAnswered twoKeys] = some start :=
    keysAnswered_succeeds (by decide +kernel)
  obtain ⟨t, ran, _, _, active⟩ := claim twoKeys start refusedReplies started (by decide +kernel)
    ⟨.cancelled Sample.hardware, by simp [refusedReplies], trivial⟩
  have passed : ((Runs.exec handle State.new [.loadData, .keysAnswered twoKeys]).bind (fun start =>
      Runs.exec replied start refusedReplies)).any (fun t => t.observerActive) = false := by
    decide +kernel
  rw [started, Option.bind_some, ran, Option.any_some, active] at passed
  cases passed

theorem bad_list_blocks_refusedReplies : ∃ start,
    Runs.exec handle State.new [.loadData, .keysAnswered twoKeys] = some start ∧ ¬ LoadsOthers start refusedReplies := by
  obtain ⟨start, started⟩ : ∃ start, Runs.exec handle State.new [.loadData, .keysAnswered twoKeys] = some start :=
    keysAnswered_succeeds (by decide +kernel)
  exact ⟨start, started, (bad_list_blocks started (by decide +kernel)
    ⟨.cancelled Sample.hardware, by simp [refusedReplies], trivial⟩).1⟩

end SharedList.ListsManager
