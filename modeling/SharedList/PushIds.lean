import SharedList.Digits
import SharedList.Records

/-!
`FNextPushId`, behind `childByAutoId`: eight characters of the time and twelve drawn at
random, which are counted on where the time is the one of the last id. The ids that a
device hands out come one after the other in the order of Firebase's keys, so none
comes twice and the children stand in the order in which they were made.
-/
namespace SharedList.PushIds

/-- `PUSH_CHARS` -/
def pushChars : List Char := "-0123456789ABCDEFGHIJKLMNOPQRSTUVWXYZ_abcdefghijklmnopqrstuvwxyz".toList

/-- `[PUSH_CHARS characterAtIndex:]` -/
def pushChar (index : Nat) : Char := pushChars.getD index '-'

/-- The static variables of `get`. -/
structure FNextPushId where
  lastPushTime : Nat
  lastRandChars : List Nat
deriving DecidableEq

namespace FNextPushId

def initial : FNextPushId := ⟨0, List.replicate 12 0⟩

/-- The loop over `timeStampChars`, from the last on. -/
def timeStampChars (now : Nat) : List Nat := Digits.writeDigits 64 8 now []

/-- The random characters of the next id: twelve numbers that `arc4random` gives, or the last ones counted on. -/
def nextRandChars (s : FNextPushId) (duplicateTime : Bool) (arc4random : Nat → Nat) : Option (List Nat) :=
  if duplicateTime then Digits.carry 64 12 s.lastRandChars else some ((List.range 12).map fun i => arc4random i % 64)

/-- `get`, with the time in milliseconds; `none` counts on before the first character, outside the array. -/
def get (s : FNextPushId) (now : Nat) (arc4random : Nat → Nat) : Option (String × FNextPushId) :=
  (s.nextRandChars (now = s.lastPushTime) arc4random).map fun lastRandChars =>
    (String.ofList ((timeStampChars now ++ lastRandChars).map pushChar), ⟨now, lastRandChars⟩)

end FNextPushId

/-- A call of `childByAutoId`: the server's time, and the random numbers that are drawn if they are needed. -/
structure Call where
  now : Nat
  arc4random : Nat → Nat

/-- The ids that the calls hand out. -/
def ids : FNextPushId → List Call → Option (List String)
  | _, [] => some []
  | s, call :: rest => do
    let (id, t) ← s.get call.now call.arc4random
    let later ← ids t rest
    return id :: later

/-! ## Keys -/

/-- The loop of `tryParseStringToInt`. -/
def parseDigits (value : Int) : List Char → Option Int
  | [] => some value
  | c :: rest => if c < '0' ∨ c > '9' then none else parseDigits (value * 10 + (c.toNat - '0'.toNat : Nat)) rest

def tryParseStringToInt (str : String) : Option Int :=
  if str.length > 11 ∨ str.length = 0 then none
  else do
    let value ← match str.toList with
      | '-' :: digits => if str.length = 1 then none else (parseDigits 0 digits).map fun value => -value
      | chars => parseDigits 0 chars
    if value < -2147483648 ∨ value > 2147483647 then none else some value

/-- The characters of an `NSString` for a scalar: one, or a surrogate pair. -/
def utf16 (c : Char) : List Nat :=
  if c.toNat < 0x10000 then [c.toNat] else [0xD800 + (c.toNat - 0x10000) / 0x400, 0xDC00 + (c.toNat - 0x10000) % 0x400]

/-- What `NSLiteralSearch` compares. -/
def characters (str : String) : List Nat := str.toList.flatMap utf16

/-- `compareKey:toKey:`, of keys other than the objects `minName` and `maxName`. -/
def compareKey (a b : String) : Ordering :=
  if a = b then .eq
  else match tryParseStringToInt a, tryParseStringToInt b with
    | some aAsInt, some bAsInt =>
      if aAsInt > bAsInt then .gt
      else if aAsInt < bAsInt then .lt
      else if a.length > b.length then .gt
      else if a.length < b.length then .lt
      else .eq
    | some _, none => .lt
    | none, some _ => .gt
    | none, none => compare (characters a) (characters b)

/-- `kInvalidKeyCharacters` -/
def invalidKeyCharacters : List Char := "[].#$/".toList

theorem utf16_append {c d : Char} {rest other : List Nat} (same : utf16 c ++ rest = utf16 d ++ other) : c = d ∧ rest = other := by
  have validC := c.valid
  have validD := d.valid
  simp only [UInt32.isValidChar, Nat.isValidChar, Char.toNat_val] at validC validD
  simp only [utf16] at same
  split at same <;> split at same <;> simp only [List.cons_append, List.nil_append, List.cons.injEq] at same
  · exact ⟨Char.toNat_inj.mp same.1, same.2⟩
  · omega
  · omega
  · exact ⟨Char.toNat_inj.mp (by omega), same.2.2⟩

theorem characters_injective {a b : String} (same : characters a = characters b) : a = b := by
  have lists : ∀ xs ys : List Char, xs.flatMap utf16 = ys.flatMap utf16 → xs = ys := by
    have nonempty : ∀ (c : Char) (rest : List Nat), utf16 c ++ rest ≠ [] := by
      intro c rest
      unfold utf16
      split <;> simp
    intro xs
    induction xs with
    | nil =>
      intro ys same
      cases ys with
      | nil => rfl
      | cons d ys => exact absurd same.symm (nonempty d _)
    | cons c xs ih =>
      intro ys same
      cases ys with
      | nil => exact absurd same (nonempty c _)
      | cons d ys =>
        obtain ⟨rfl, rest⟩ := utf16_append same
        rw [ih ys rest]
  exact String.toList_inj.mp (lists _ _ same)

def isValidKey (key : String) : Bool := key.length ≠ 0 && key.toList.all fun c => !invalidKeyCharacters.contains c

theorem isValidKey_iff {key : String} : isValidKey key = true ↔ key.length ≠ 0 ∧ ∀ c ∈ key.toList, c ∉ invalidKeyCharacters := by
  simp [isValidKey]

/-! ## What an id says -/

/-- The twenty digits of an id. -/
structure Word (digits : List Nat) : Prop where
  length : digits.length = 20
  small : Digits.Small 64 digits

def text (digits : List Nat) : String := String.ofList (digits.map pushChar)

theorem pushChar_lt {i j : Nat} (less : i < j) (inside : j < 64) : (pushChar i).toNat < (pushChar j).toNat := by
  have ascending : ∀ j < 64, ∀ i < j, (pushChar i).toNat < (pushChar j).toNat := by decide +kernel
  exact ascending j inside i less

/-- The characters of an id are among the first, and none is forbidden in a key. -/
theorem pushChar_valid (i : Nat) : pushChar i ∉ invalidKeyCharacters ∧ utf16 (pushChar i) = [(pushChar i).toNat] := by
  by_cases inside : i < 64
  · have valid : ∀ i < 64, pushChar i ∉ invalidKeyCharacters ∧ utf16 (pushChar i) = [(pushChar i).toNat] := by decide +kernel
    exact valid i inside
  · have outside : pushChars.length ≤ i := Nat.le_of_not_lt inside
    rw [pushChar, List.getD_eq_getElem?_getD, List.getElem?_eq_none outside]
    decide

theorem characters_text (digits : List Nat) : characters (text digits) = digits.map fun d => (pushChar d).toNat := by
  rw [characters, text, String.toList_ofList, List.flatMap_map, List.map_eq_flatMap]
  exact congrArg (fun f => digits.flatMap f) (funext fun d => (pushChar_valid d).2)

theorem compare_pushChars {xs ys : List Nat} (small : Digits.Small 64 ys) (less : xs < ys) :
    compare (xs.map fun d => (pushChar d).toNat) (ys.map fun d => (pushChar d).toNat) = .lt := by
  induction ys generalizing xs with
  | nil => exact absurd less (List.not_lt_nil xs)
  | cons y ys ih =>
    cases xs with
    | nil => rfl
    | cons x xs =>
      rw [List.map_cons, List.map_cons, List.compare_cons_cons]
      rcases List.cons_lt_cons_iff.mp less with first | ⟨rfl, later⟩
      · rw [Nat.compare_eq_lt.mpr (pushChar_lt first (small y List.mem_cons_self))]
        rfl
      · rw [Nat.compare_eq_eq.mpr rfl]
        exact ih (fun d member => small d (List.mem_cons_of_mem _ member)) later

theorem text_length {digits : List Nat} (word : Word digits) : (text digits).length = 20 := by
  rw [text, String.length_ofList, List.length_map, word.length]

/-- An id is too long for a number. -/
theorem tryParseStringToInt_text {digits : List Nat} (word : Word digits) : tryParseStringToInt (text digits) = none := by
  rw [tryParseStringToInt, if_pos]
  rw [text_length word]
  decide

theorem text_valid {digits : List Nat} (word : Word digits) : isValidKey (text digits) = true := by
  rw [isValidKey_iff, text_length word]
  refine ⟨by decide, ?_⟩
  intro c member
  rw [text, String.toList_ofList] at member
  obtain ⟨i, _, rfl⟩ := List.mem_map.mp member
  exact (pushChar_valid i).1

/-- The larger number is the later key. -/
theorem compareKey_text {xs ys : List Nat} (wordXs : Word xs) (wordYs : Word ys)
    (less : Digits.value 64 xs < Digits.value 64 ys) : compareKey (text xs) (text ys) = .lt := by
  have digits : xs < ys := Digits.lt_of_value_lt (by decide) (wordXs.length.trans wordYs.length.symm) wordXs.small wordYs.small less
  have chars : compare (characters (text xs)) (characters (text ys)) = .lt := by
    rw [characters_text, characters_text]
    exact compare_pushChars wordYs.small digits
  have other : text xs ≠ text ys := by
    intro same
    rw [same] at chars
    cases chars.symm.trans (Std.ReflOrd.compare_self)
  rw [compareKey, if_neg other, tryParseStringToInt_text wordXs, tryParseStringToInt_text wordYs]
  exact chars

/-! ## The ids of a device -/

namespace FNextPushId

def Kept (s : FNextPushId) : Prop := s.lastRandChars.length = 12 ∧ Digits.Small 64 s.lastRandChars

/-- The digits of the last id. -/
def digits (s : FNextPushId) : List Nat := timeStampChars s.lastPushTime ++ s.lastRandChars

theorem initial_kept : initial.Kept := by
  refine ⟨rfl, ?_⟩
  intro d member
  rw [List.eq_of_mem_replicate member]
  decide

theorem Kept.word {s : FNextPushId} (kept : s.Kept) : Word s.digits where
  length := by
    rw [digits, timeStampChars, List.length_append, Digits.writeDigits_length, kept.1]
    rfl
  small := (Digits.writeDigits_small (by decide) 8 _ (fun d member => absurd member List.not_mem_nil)).append kept.2

theorem Kept.value {s : FNextPushId} (kept : s.Kept) (early : s.lastPushTime < 64 ^ 8) :
    Digits.value 64 s.digits = Digits.value 64 s.lastRandChars + 64 ^ 12 * s.lastPushTime := by
  rw [digits, Digits.value_append, kept.1, timeStampChars, Digits.value_writeDigits, Nat.mod_eq_of_lt early]
  simp

/-- An id is later than the last one. -/
theorem Kept.get {s t : FNextPushId} (kept : s.Kept) {now : Nat} {arc4random : Nat → Nat} {id : String}
    (later : s.lastPushTime ≤ now) (early : now < 64 ^ 8) (got : s.get now arc4random = some (id, t)) :
    t.Kept ∧ t.lastPushTime = now ∧ id = text t.digits ∧ Digits.value 64 s.digits < Digits.value 64 t.digits := by
  obtain ⟨lastRandChars, next, made⟩ := Option.map_eq_some_iff.mp got
  cases made
  suffices rand : Kept ⟨now, lastRandChars⟩ ∧ Digits.value 64 s.digits < Digits.value 64 (digits ⟨now, lastRandChars⟩) from
    ⟨rand.1, rfl, rfl, rand.2⟩
  rw [kept.value (Nat.lt_of_le_of_lt later early)]
  unfold nextRandChars at next
  by_cases duplicateTime : now = s.lastPushTime
  · rw [if_pos (decide_eq_true duplicateTime)] at next
    obtain ⟨length, small, value⟩ := Digits.carry_value kept.1 kept.2 next
    have still : Kept ⟨now, lastRandChars⟩ := ⟨length, small⟩
    refine ⟨still, ?_⟩
    rw [still.value early, value]
    show _ < _ + 1 + 64 ^ 12 * now
    rw [duplicateTime]
    omega
  · rw [if_neg (by simpa using duplicateTime), Option.some.injEq] at next
    have still : Kept ⟨now, lastRandChars⟩ := by
      subst next
      refine ⟨by simp, ?_⟩
      intro d member
      obtain ⟨i, _, rfl⟩ := List.mem_map.mp member
      exact Nat.mod_lt _ (by decide)
    refine ⟨still, ?_⟩
    -- the time outweighs what was drawn at random
    have bound := Digits.value_lt (by decide) kept.2
    rw [kept.1] at bound
    rw [still.value early]
    have step : s.lastPushTime + 1 ≤ now := Nat.lt_of_le_of_ne later (Ne.symm duplicateTime)
    show _ < Digits.value 64 lastRandChars + 64 ^ 12 * now
    omega

/-- An id begins with a sign until the seventh digit of the time overflows, so no node that has it exports an array. -/
theorem keyAsInt_get {s t : FNextPushId} {now : Nat} {arc4random : Nat → Nat} {key : Key} (early : now < 64 ^ 7)
    (got : s.get now arc4random = some (key.val, t)) : keyAsInt key = none := by
  obtain ⟨lastRandChars, _, made⟩ := Option.map_eq_some_iff.mp got
  have first : key.val.toList.head? = some '-' := by
    rw [← (Prod.mk.inj made).1, String.toList_ofList, timeStampChars]
    have time : (Digits.writeDigits 64 8 now []).head? = some 0 := by
      simp [Digits.writeDigits]
      omega
    rw [List.head?_map, List.head?_append, time]
    rfl
  obtain ⟨rest, whole⟩ := List.head?_eq_some_iff.mp first
  rw [keyAsInt, if_neg (by simp [first]), intForString, whole]
  rfl

end FNextPushId

theorem ids_cons {s : FNextPushId} {call : Call} {rest : List Call} {made : List String} :
    ids s (call :: rest) = some made ↔ ∃ id t, s.get call.now call.arc4random = some (id, t) ∧
      ∃ later, ids t rest = some later ∧ made = id :: later := by
  simp only [ids, Option.bind_eq_bind, Option.bind_eq_some_iff, Prod.exists, Option.pure_def, Option.some.injEq]
  constructor
  · rintro ⟨id, t, got, later, rest, same⟩
    exact ⟨id, t, got, later, rest, same.symm⟩
  · rintro ⟨id, t, got, later, rest, same⟩
    exact ⟨id, t, got, later, rest, same.symm⟩

/-- All ids that follow are later than the last one, and each than those before it. -/
theorem ids_later {s : FNextPushId} {calls : List Call} {made : List String} (kept : s.Kept)
    (clock : (s.lastPushTime :: calls.map Call.now).Pairwise (· ≤ ·)) (early : ∀ call ∈ calls, call.now < 64 ^ 8)
    (run : ids s calls = some made) :
    (∀ id ∈ made, ∃ digits, Word digits ∧ id = text digits ∧ Digits.value 64 s.digits < Digits.value 64 digits) ∧
      made.Pairwise (fun a b => compareKey a b = .lt) := by
  induction calls generalizing s made with
  | nil =>
    cases run
    exact ⟨by simp, .nil⟩
  | cons call rest ih =>
    obtain ⟨id, t, got, later, restRun, rfl⟩ := ids_cons.mp run
    obtain ⟨before, restClock⟩ := List.pairwise_cons.mp clock
    obtain ⟨stillKept, time, rfl, less⟩ := kept.get (before call.now (by simp)) (early call List.mem_cons_self) got
    obtain ⟨following, ascending⟩ := ih stillKept (by rw [time]; exact restClock)
      (fun call member => early call (List.mem_cons_of_mem _ member)) restRun
    constructor
    · intro id member
      rcases List.mem_cons.mp member with rfl | member
      · exact ⟨t.digits, stillKept.word, rfl, less⟩
      · obtain ⟨digits, word, same, further⟩ := following id member
        exact ⟨digits, word, same, less.trans further⟩
    · refine List.pairwise_cons.mpr ⟨?_, ascending⟩
      intro id member
      obtain ⟨digits, word, rfl, further⟩ := following id member
      exact compareKey_text stillKept.word word further

/-- Two ids in one millisecond, the first with a random part that ends in `zz`, and one a second later. -/
def threeCalls : List Call := [⟨1558500000000, fun i => if i < 10 then 5 else 63⟩, ⟨1558500000000, fun _ => 0⟩, ⟨1558500001000, fun _ => 0⟩]

end SharedList.PushIds
