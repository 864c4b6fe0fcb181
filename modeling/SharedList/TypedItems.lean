import SharedList.Devices
import Mathlib.Data.List.DropRight

/-!
From the text field of one device to the tables of all. `CorrectInput` cuts a text
down to what can be the title of an item, `AddNewItem` stores it, and whatever table shows
an item afterwards, its title and author are those of one call of `AddNewItem`.
-/
namespace SharedList
open FrbUtils

/-! ## The text field -/

namespace SingleListViewController

variable (whitespacesAndNewlines : Char → Bool)

/-- `trimmingCharacters(in:)`. -/
def trimmingCharacters (str : String) : String :=
  String.ofList ((str.toList.dropWhile whitespacesAndNewlines).rdropWhile whitespacesAndNewlines)

def correctInput (itemName : Option String) : Option String := do
  let str ← itemName
  let newStr := trimmingCharacters whitespacesAndNewlines str
  if newStr ≠ "" then some newStr else none

/-- What `textFieldShouldReturn` adds, what it leaves in the field, and what it returns. -/
structure Entered where
  added : Option String
  text : Option String
  shouldReturn : Bool
deriving DecidableEq

def textFieldShouldReturn (text : Option String) : Entered :=
  match correctInput whitespacesAndNewlines text with
  | some newItem => ⟨some newItem, some "", true⟩
  | none => ⟨none, text, false⟩

/-- A title without space around it. -/
structure Trimmed (title : String) : Prop where
  nonempty : title ≠ ""
  first : ∀ c ∈ title.toList.head?, whitespacesAndNewlines c = false
  last : ∀ c ∈ title.toList.getLast?, whitespacesAndNewlines c = false

variable {whitespacesAndNewlines}

theorem correctInput_eq_some {itemName : Option String} {title : String}
    (corrected : correctInput whitespacesAndNewlines itemName = some title) :
    ∃ str, itemName = some str ∧ title = trimmingCharacters whitespacesAndNewlines str ∧ title ≠ "" := by
  obtain ⟨str, given, cut⟩ := Option.bind_eq_some_iff.mp corrected
  obtain ⟨nonempty, rfl⟩ := Option.ite_none_right_eq_some.mp cut |>.imp_right Option.some.inj
  exact ⟨str, given, rfl, nonempty⟩

theorem correctInput_trimmed {itemName : Option String} {title : String}
    (corrected : correctInput whitespacesAndNewlines itemName = some title) : Trimmed whitespacesAndNewlines title := by
  obtain ⟨str, _, rfl, nonempty⟩ := correctInput_eq_some corrected
  refine ⟨nonempty, ?_, ?_⟩
  · intro c first
    rw [trimmingCharacters, String.toList_ofList] at first
    obtain ⟨rest, whole⟩ := List.head?_eq_some_iff.mp first
    obtain ⟨more, same⟩ := List.rdropWhile_prefix whitespacesAndNewlines (str.toList.dropWhile whitespacesAndNewlines)
    have begins := List.head?_dropWhile_not whitespacesAndNewlines str.toList
    rw [← same, whole] at begins
    simpa using begins
  · intro c last
    rw [trimmingCharacters, String.toList_ofList] at last
    have some := List.ne_nil_of_mem (List.mem_of_getLast? last)
    rw [List.getLast?_eq_some_getLast some] at last
    cases last
    simpa using List.rdropWhile_last_not whitespacesAndNewlines _ some

theorem Trimmed.trimmingCharacters {title : String} (trimmed : Trimmed whitespacesAndNewlines title) :
    trimmingCharacters whitespacesAndNewlines title = title := by
  have front : title.toList.dropWhile whitespacesAndNewlines = title.toList := by
    rw [List.dropWhile_eq_self_iff]
    intro some
    have begins := trimmed.first title.toList[0] (by rw [List.head?_eq_getElem?, List.getElem?_eq_getElem some]; rfl)
    simp [begins]
  have back : title.toList.rdropWhile whitespacesAndNewlines = title.toList := by
    rw [List.rdropWhile_eq_self_iff]
    intro some
    have ends := trimmed.last (title.toList.getLast some) (by rw [List.getLast?_eq_some_getLast some]; rfl)
    simp [ends]
  rw [SingleListViewController.trimmingCharacters, front, back, String.ofList_toList]

/-- The texts that are corrected to themselves are those without space around them, and no other is ever a title. -/
theorem trimmed_iff {title : String} : Trimmed whitespacesAndNewlines title ↔
    ∃ itemName, correctInput whitespacesAndNewlines itemName = some title := by
  constructor
  · intro trimmed
    refine ⟨some title, ?_⟩
    rw [correctInput, Option.bind_eq_bind, Option.bind_some, trimmed.trimmingCharacters]
    exact if_pos trimmed.nonempty
  · rintro ⟨itemName, corrected⟩
    exact correctInput_trimmed corrected

end SingleListViewController

/-! ## What the tables show -/

/-- What a device asked of the store. -/
theorem mem_actions {events : List SystemEvent} {action : Action} :
    action ∈ (storeActions events).map Prod.snd ↔ ∃ m, .store (m, action) ∈ events := by
  rw [List.mem_map]
  constructor
  · rintro ⟨⟨m, _⟩, member, rfl⟩
    exact ⟨m, mem_storeActions.mp member⟩
  · rintro ⟨m, member⟩
    exact ⟨(m, action), mem_storeActions.mpr member, rfl⟩

/-- Whatever lists and items the managers hold, on whatever device and however late they heard of them: a list was made by
    a call of `AddNewList`, and title and author of an item are those of one call of `AddNewItem` for its id. Where all titles come
    from the text field, every title shown is one that was typed, without space around it. -/
theorem shown_items_were_typed (whitespacesAndNewlines : Char → Bool) (le : Key → Key → Bool) {w : World} (initial : Initial w)
    {events : List SystemEvent} {s : System} (run : Runs.exec (network le).step (System.start le w) events = some s) :
    (∀ u n, ∀ list ∈ (s.device (.lists u n)).state.data, ∃ m call, .store (m, .addNewList call) ∈ events ∧ list = call.object) ∧
    ∀ (list : ListObject) (I : Key) (n : Nat), list.items_id = I.val → ∀ entry ∈ (s.device (.items list n)).state.data,
      (∃ m made authorId, .store (m, .addNewItem made entry.item.title authorId entry.item.id) ∈ events ∧ made.items_id = I.val ∧
        entry.item.authorId = authorId.val) ∧
      ((∀ m made title authorId k, .store (m, .addNewItem made title authorId k) ∈ events →
          ∃ text, (SingleListViewController.textFieldShouldReturn whitespacesAndNewlines text).added = some title) →
        SingleListViewController.Trimmed whitespacesAndNewlines entry.item.title) := by
  have shown := Shown.of_run initial run
  refine ⟨?_, ?_⟩
  · intro u n list member
    obtain ⟨call, called, same, _⟩ := shown.lists u n list member
    obtain ⟨m, asked⟩ := mem_actions.mp ((shown.recorded.accounted initial).calls call called)
    exact ⟨m, call, asked, same⟩
  · intro list I n table entry member
    obtain ⟨made, title, authorId, call, own, titled, author⟩ := shown.items list n I table entry member
    subst titled
    obtain ⟨m, asked⟩ := mem_actions.mp call
    refine ⟨⟨m, made, authorId, asked, own, author⟩, ?_⟩
    intro typed
    obtain ⟨text, entered⟩ := typed _ _ _ _ _ asked
    refine SingleListViewController.trimmed_iff.mpr ⟨text, ?_⟩
    unfold SingleListViewController.textFieldShouldReturn at entered
    split at entered
    · rename_i newItem corrected
      rw [corrected]
      exact entered
    · cases entered

/-- Space, tab and line feed. -/
def isSpace (c : Char) : Bool := c == ' ' || c == '\t' || c == '\n'

theorem shown_items_were_typed_openedRun : ∃ s : System,
    Runs.exec (network byString).step (System.start byString (World.registered Sample.alice "alice@mail")) openedRun = some s ∧
      (SingleListViewController.textFieldShouldReturn isSpace (some " Milk\n")).added = some "Milk" ∧
      ∃ entry ∈ (s.device (.items Sample.groceryList 0)).state.data,
        SingleListViewController.Trimmed isSpace entry.item.title := by
  have passed : (Runs.exec (network byString).step (System.start byString (World.registered Sample.alice "alice@mail"))
      openedRun).any (fun s => decide (∃ entry ∈ (s.device (.items Sample.groceryList 0)).state.data, entry = entry)) = true := by
    decide +kernel
  obtain ⟨s, run, some⟩ := (Option.any_eq_true _ _).mp passed
  obtain ⟨entry, member, _⟩ := of_decide_eq_true some
  have entered : (SingleListViewController.textFieldShouldReturn isSpace (.some " Milk\n")).added = .some "Milk" := by decide +kernel
  refine ⟨s, run, entered, entry, member, ?_⟩
  refine (((shown_items_were_typed isSpace byString (initial_registered Sample.alice "alice@mail") run).2 Sample.groceryList
    Sample.groceryItems 0 rfl entry member).2) ?_
  intro m made title authorId k asked
  simp only [openedRun, checkedMilkRun, List.map_cons, List.map_nil, List.cons_append, List.nil_append, List.mem_cons,
    Network.Event.store.injEq, Prod.mk.injEq, Action.addNewItem.injEq, reduceCtorEq, and_false, false_or, or_false, List.not_mem_nil] at asked
  obtain ⟨_, _, rfl, _, _⟩ := asked
  exact ⟨_, entered⟩

end SharedList
