import SharedList.PushIds
import SharedList.UpdatePaths
import SharedList.Clients
import SharedList.PathOrder
import SharedList.CompoundWrites

/-!
`compoundWriteFromDictionary`, which makes one compound write of the dictionary of a multi-path update. It
finds a path that is equal to another or above it by comparing neighbours in the order of keys; that
misses none as long as the order tells the keys apart. What it accepts is, applied to a node, the update of
the database, in whatever order the dictionary is enumerated.
-/
namespace SharedList.UpdateDictionaries
open PushIds SnapshotNodes CompoundWrites

/-- `compare:` of paths: the keys in turn, then the lengths. -/
def compare (path other : List Key) : Ordering := List.compareLex (fun a b => compareKey a.val b.val) path other

/-- `validUpdateDictionaryKey`, of a key that does not end in `.priority`. -/
def validUpdateDictionaryKey (keyId : String) : Bool := (segments keyId).all fun key => isValidKey key.val

/-- `compoundWriteFromDictionary`, with the dictionary in the order of its enumeration; `none` is the exception. -/
def compoundWriteFromDictionary (nodeFrom : Snapshot → FNode Key Value) (values : Update) : Option (FCompoundWrite Key Value) :=
  if values.all fun v => validUpdateDictionaryKey v.1 then
    let compoundWrite := values.foldl (fun compoundWrite v => compoundWrite.addWrite (nodeFrom v.2) (segments v.1)) .emptyWrite
    let updatePaths := (values.map fun v => segments v.1).mergeSort fun left right => (compare left right).isLE
    if checkPaths none updatePaths then some compoundWrite else none
  else none

/-! ## The order of keys -/

/-- A key like `-0`, which reads as the same number as one without the minus. -/
def NegativeZero (key : String) : Prop := tryParseStringToInt key = some 0 ∧ key.toList.head? = some '-'

instance (key : String) : Decidable (NegativeZero key) := inferInstanceAs (Decidable (_ ∧ _))

theorem parseDigits_nonneg {value n : Int} {digits : List Char} (nonneg : 0 ≤ value) (parsed : parseDigits value digits = some n) :
    0 ≤ n := by
  induction digits generalizing value with
  | nil =>
    cases parsed
    exact nonneg
  | cons c rest ih =>
    rw [parseDigits] at parsed
    split at parsed
    · cases parsed
    · exact ih (by omega) parsed

theorem digit_toNat {c : Char} (digit : ¬ (c < '0' ∨ c > '9')) : 48 ≤ c.toNat ∧ c.toNat ≤ 57 := by
  rw [not_or] at digit
  obtain ⟨notLess, notMore⟩ := digit
  have low : '0' ≤ c := Char.not_lt.mp notLess
  have high : c ≤ '9' := Char.not_lt.mp notMore
  exact ⟨low, high⟩

/-- As many digits for the same number are the same digits. -/
theorem parseDigits_injective {value other n : Int} {digits otherDigits : List Char} (length : digits.length = otherDigits.length)
    (parsed : parseDigits value digits = some n) (parsedOther : parseDigits other otherDigits = some n) :
    value = other ∧ digits = otherDigits := by
  induction digits generalizing value other otherDigits with
  | nil =>
    rw [List.eq_nil_of_length_eq_zero length.symm] at parsedOther ⊢
    cases parsed
    cases parsedOther
    exact ⟨rfl, rfl⟩
  | cons c rest ih =>
    cases otherDigits with
    | nil => cases length
    | cons d otherRest =>
      rw [parseDigits] at parsed parsedOther
      split at parsed
      · cases parsed
      · split at parsedOther
        · cases parsedOther
        · rename_i isDigit isDigit'
          obtain ⟨same, rfl⟩ := ih (Nat.succ.inj length) parsed parsedOther
          have first := digit_toNat isDigit
          have second := digit_toNat isDigit'
          have zero : '0'.toNat = 48 := rfl
          have sameDigit : c = d := Char.toNat_inj.mp (by omega)
          exact ⟨by rw [sameDigit] at same; omega, by rw [sameDigit]⟩

/-- The two ways to read a number. -/
theorem tryParseStringToInt_some {str : String} {n : Int} (parsed : tryParseStringToInt str = some n) :
    (∃ digits value, str.toList = '-' :: digits ∧ parseDigits 0 digits = some value ∧ n = -value) ∨
      (str.toList.head? ≠ some '-' ∧ parseDigits 0 str.toList = some n) := by
  have bounded : ∀ {read : Option Int}, (read.bind fun value => if value < -2147483648 ∨ value > 2147483647 then none else some value) = some n →
      read = some n := by
    intro read parsed
    obtain ⟨value, got, inRange⟩ := Option.bind_eq_some_iff.mp parsed
    split at inRange
    · cases inRange
    · cases inRange
      exact got
  rw [tryParseStringToInt] at parsed
  split at parsed
  · cases parsed
  · dsimp only at parsed
    split at parsed
    · rename_i digits chars
      split at parsed
      · cases parsed
      · obtain ⟨value, inner, rfl⟩ := Option.map_eq_some_iff.mp (bounded parsed)
        exact .inl ⟨digits, value, chars, inner, rfl⟩
    · rename_i notMinus
      refine .inr ⟨?_, bounded parsed⟩
      intro minus
      obtain ⟨rest, chars⟩ := List.head?_eq_some_iff.mp minus
      exact notMinus rest chars

/-- Two keys of one length that read as one number are both zero, one of them with a minus. -/
theorem negativeZero_of_same {a b : String} {n : Int} (different : a ≠ b) (length : a.length = b.length)
    (parsed : tryParseStringToInt a = some n) (parsedOther : tryParseStringToInt b = some n) : NegativeZero a ∨ NegativeZero b := by
  have sameLength : a.toList.length = b.toList.length := by rw [String.length_toList, String.length_toList, length]
  rcases tryParseStringToInt_some parsed with ⟨digits, value, chars, read, number⟩ | ⟨plus, read⟩ <;>
    rcases tryParseStringToInt_some parsedOther with ⟨otherDigits, other, otherChars, readOther, otherNumber⟩ | ⟨otherPlus, readOther⟩
  · have value_eq : value = other := by omega
    rw [chars, otherChars, List.length_cons, List.length_cons] at sameLength
    rw [← value_eq] at readOther
    obtain ⟨_, rfl⟩ := parseDigits_injective (Nat.succ.inj sameLength) read readOther
    exact absurd (String.toList_inj.mp (chars.trans otherChars.symm)) different
  · have low := parseDigits_nonneg (by decide) read
    have high := parseDigits_nonneg (by decide) readOther
    have zero : n = 0 := by omega
    subst zero
    exact .inl ⟨parsed, by rw [chars]; rfl⟩
  · have low := parseDigits_nonneg (by decide) readOther
    have high := parseDigits_nonneg (by decide) read
    have zero : n = 0 := by omega
    subst zero
    exact .inr ⟨parsedOther, by rw [otherChars]; rfl⟩
  · obtain ⟨_, same⟩ := parseDigits_injective sameLength read readOther
    exact absurd (String.toList_inj.mp same) different

theorem compareKey_eq {a b : String} (same : compareKey a b = .eq) : a = b ∨ NegativeZero a ∨ NegativeZero b := by
  by_cases equal : a = b
  · exact .inl equal
  · rw [compareKey, if_neg equal] at same
    cases parsed : tryParseStringToInt a with
    | none =>
      cases parsedOther : tryParseStringToInt b with
      | none =>
        simp only [parsed, parsedOther] at same
        exact .inl (characters_injective (Std.LawfulEqCmp.eq_of_compare same))
      | some n => simp [parsed, parsedOther] at same
    | some m =>
      cases parsedOther : tryParseStringToInt b with
      | none => simp [parsed, parsedOther] at same
      | some n =>
        simp only [parsed, parsedOther] at same
        split at same
        · cases same
        · split at same
          · cases same
          · split at same
            · cases same
            · split at same
              · cases same
              · have number : m = n := by omega
                have length : a.length = b.length := by omega
                subst number
                exact .inr (negativeZero_of_same equal length parsed parsedOther)
/-- `compareKey:toKey:` compares a pair of numbers and texts. -/
theorem compareKey_eq_compareLex : compareKey = compareLex (compareOn fun key => (tryParseStringToInt key).isNone.toNat)
    (compareLex (compareOn fun key => (tryParseStringToInt key).getD 0)
      (compareLex (compareOn fun key => if (tryParseStringToInt key).isSome then key.length else 0)
        (compareOn fun key => if (tryParseStringToInt key).isSome then [] else characters key))) := by
  funext a b
  by_cases equal : a = b
  · subst equal
    rw [compareKey, if_pos rfl]
    exact (Std.ReflCmp.compare_self).symm
  · rw [compareKey, if_neg equal]
    cases parsed : tryParseStringToInt a with
    | none =>
      cases parsedOther : tryParseStringToInt b with
      | none =>
        simp [compareLex, compareOn, parsed, parsedOther]
      | some n =>
        simp only [compareLex, compareOn, parsed, parsedOther]
        rfl
    | some m =>
      cases parsedOther : tryParseStringToInt b with
      | none =>
        simp only [compareLex, compareOn, parsed, parsedOther]
        rfl
      | some n =>
        simp only [compareLex, compareOn, parsed, parsedOther, Option.isNone_some, Option.isSome_some, Option.getD_some, if_true]
        rcases Int.lt_trichotomy m n with less | rfl | more
        · rw [if_neg (by omega), if_pos less, Int.compare_eq_lt.mpr less]
          rfl
        · rw [if_neg (by omega), if_neg (by omega), Int.compare_eq_eq.mpr rfl]
          rcases Nat.lt_trichotomy a.length b.length with shorter | same | longer
          · rw [if_neg (by omega), if_pos shorter, Nat.compare_eq_lt.mpr shorter]
            rfl
          · rw [if_neg (by omega), if_neg (by omega), Nat.compare_eq_eq.mpr same]
            rfl
          · rw [if_pos longer, Nat.compare_eq_gt.mpr longer]
            rfl
        · rw [if_pos more, Int.compare_eq_gt.mpr more]
          rfl
instance : Std.TransCmp compareKey := by
  rw [compareKey_eq_compareLex]
  infer_instance

instance : Std.TransCmp fun a b : Key => compareKey a.val b.val where
  eq_swap := Std.OrientedCmp.eq_swap
  isLE_trans := Std.TransCmp.isLE_trans

/-! ## The check of the paths -/

theorem checkPaths_some (prev : List Key) (paths : List (List Key)) :
    checkPaths (some prev) paths = true ↔ (prev :: paths).IsChain fun p q => ¬ p <+: q := by
  induction paths generalizing prev with
  | nil => simp [checkPaths]
  | cons path rest ih =>
    rw [checkPaths, List.isChain_cons_cons]
    by_cases above : prev <+: path
    · simp [above]
    · rw [if_neg above, ih]
      simp [above]

theorem checkPaths_none (paths : List (List Key)) : checkPaths none paths = true ↔ paths.IsChain fun p q => ¬ p <+: q := by
  cases paths with
  | nil => simp [checkPaths]
  | cons path rest => exact checkPaths_some path rest

/-- The keys of the paths are told apart. -/
def PlainKeys (data : Update) : Prop := ∀ d ∈ data, ∀ key ∈ segments d.1, ¬ NegativeZero key.val

instance (data : Update) : Decidable (PlainKeys data) :=
  inferInstanceAs (Decidable (∀ d ∈ data, ∀ key ∈ segments d.1, ¬ NegativeZero key.val))

instance : Std.TransCmp compare := inferInstanceAs (Std.TransCmp (List.compareLex fun a b : Key => compareKey a.val b.val))

theorem sorted_mergeSort (paths : List (List Key)) :
    (paths.mergeSort fun left right => (compare left right).isLE).Pairwise fun p q => (compare p q).isLE := by
  refine List.pairwise_mergeSort ?_ ?_ paths
  · intro p q r
    exact Std.TransCmp.isLE_trans
  · intro p q
    have swapped : compare p q = (compare q p).swap := Std.OrientedCmp.eq_swap
    rw [swapped]
    cases compare q p <;> rfl

/-- The check of neighbours finds any two paths of which one is equal to the other or above it. -/
theorem checkPaths_sorted {data : Update} (plain : PlainKeys data) :
    checkPaths none ((data.map fun d => segments d.1).mergeSort fun left right => (compare left right).isLE) = true ↔
      Tree.Independent data.changes := by
  have perm := List.mergeSort_perm (data.map fun d => segments d.1) fun left right => (compare left right).isLE
  have paths : Tree.Independent data.changes ↔ (data.map fun d => segments d.1).Pairwise Apart := by
    simp [Tree.Independent, Update.changes, List.pairwise_map]
  rw [paths, checkPaths_none]
  constructor
  · intro chain
    have tells : PathOrder.Tells (fun a b : Key => compareKey a.val b.val)
        ((data.map fun d => segments d.1).mergeSort fun left right => (compare left right).isLE) := by
      intro p inP q inQ a inA b inB same
      obtain ⟨d, inData, rfl⟩ := List.mem_map.mp (perm.mem_iff.mp inP)
      obtain ⟨e, inData', rfl⟩ := List.mem_map.mp (perm.mem_iff.mp inQ)
      rcases compareKey_eq same with equal | negative | negative
      · exact Key.val_injective equal
      · exact absurd negative (plain d inData a inA)
      · exact absurd negative (plain e inData' b inB)
    exact perm.pairwise (PathOrder.apart_of_isChain tells (sorted_mergeSort _) chain) apart_comm.mp
  · intro apart
    have stillApart := perm.symm.pairwise apart apart_comm.mp
    exact (checkPaths_none _).mp (checkPaths_of_apart stillApart (by simp))

/-! ## Updates -/

theorem independent_perm {data values : Update} (enumerated : values.Perm data) :
    Tree.Independent values.changes ↔ Tree.Independent data.changes :=
  (enumerated.map _).pairwise_iff apart_comm.mp

/-- A dictionary is accepted exactly when its keys are valid and no path is equal to another or above it, and the
compound write that is made of it updates every node as the database is updated. -/
theorem update_dictionary_is_update (nodeFrom : Snapshot → FNode Key Value) (data values : Update)
    (nodes : ∀ d ∈ data, Represents (nodeFrom d.2) d.2) (enumerated : values.Perm data) (plain : PlainKeys data) :
    ((compoundWriteFromDictionary nodeFrom values).isSome = true ↔
      (∀ d ∈ data, validUpdateDictionaryKey d.1 = true) ∧ Tree.Independent data.changes) ∧
    ∀ write db node, compoundWriteFromDictionary nodeFrom values = some write → Represents node db →
      Represents (write.applyToNode node) (updateChildValues db data) := by
  have plainValues : PlainKeys values := fun d member => plain d (enumerated.mem_iff.mp member)
  have valid : (values.all fun v => validUpdateDictionaryKey v.1) = true ↔ ∀ d ∈ data, validUpdateDictionaryKey d.1 = true := by
    rw [List.all_eq_true]
    exact forall_congr' fun d => by rw [enumerated.mem_iff]
  have accepted := checkPaths_sorted plainValues
  rw [independent_perm enumerated] at accepted
  rw [← valid, ← accepted]
  constructor
  · unfold compoundWriteFromDictionary
    dsimp only
    split <;> rename_i allValid
    · split <;> rename_i passed
      · simp [allValid, passed]
      · simp [passed]
    · simp [allValid]
  · intro write db node made represented
    have passed : checkPaths none ((values.map fun v => segments v.1).mergeSort fun left right => (compare left right).isLE) = true ∧
        (values.map fun v => (segments v.1, nodeFrom v.2)).foldl (fun write c => write.addWrite c.2 c.1) .emptyWrite = write := by
      unfold compoundWriteFromDictionary at made
      dsimp only at made
      split at made
      · split at made <;> rename_i check
        · rw [List.foldl_map]
          exact ⟨check, Option.some.inj made⟩
        · cases made
      · cases made
    obtain ⟨check, rfl⟩ := passed
    have independent := (checkPaths_sorted plainValues).mp check
    have same : List.Forall₂ SameChange (values.map fun v => (segments v.1, nodeFrom v.2)) values.changes := by
      rw [Update.changes, List.forall₂_map_left_iff, List.forall₂_map_right_iff, List.forall₂_same]
      exact fun v member => ⟨rfl, nodes v (enumerated.mem_iff.mp member)⟩
    refine ((Keeps.empty.addWrites same).applyToNode represented).congr fun l => ?_
    obtain ⟨q, value⟩ := l
    have members : ∀ c, c ∈ values.changes ↔ c ∈ data.changes := fun c => (enumerated.map _).mem_iff
    rw [Overlay.overlay_independent independent, updateChildValues, Tree.mem_update independent,
      Tree.mem_update ((independent_perm enumerated).mp independent)]
    simp only [members]

/-- The dictionary of `AddNewList` for a new list of Alice's. -/
theorem update_dictionary_is_update_aliceCall :
    ∃ write, compoundWriteFromDictionary ofTree Sample.aliceCall.update.reverse = some write ∧
      ∀ path value, (write.applyToNode .emptyNode).valueAt path = some value ↔
        (path, value) ∈ (updateChildValues Tree.empty Sample.aliceCall.update).leaves := by
  obtain ⟨accepted, updates⟩ := update_dictionary_is_update ofTree Sample.aliceCall.update Sample.aliceCall.update.reverse
    (fun d _ => represents_ofTree d.2) (List.reverse_perm _) (by decide +kernel)
  have independent : Tree.Independent Sample.aliceCall.update.changes := @Write.independent (.addNewList Sample.aliceCall) trivial
  obtain ⟨write, made⟩ := Option.isSome_iff_exists.mp (accepted.mpr ⟨by decide +kernel, independent⟩)
  exact ⟨write, made, fun path value => (updates write _ _ made .empty).mem.symm⟩

/-- Two spellings of the number zero keep a path and one below it from being neighbours. -/
example : let paths : List (List Key) := [[⟨"00", by decide, by decide⟩], [⟨"-0", by decide, by decide⟩, ⟨"a", by decide, by decide⟩],
      [⟨"00", by decide, by decide⟩, ⟨"x", by decide, by decide⟩]]
    (paths.Pairwise fun p q => (compare p q).isLE) ∧ checkPaths none paths = true ∧ ¬ paths.Pairwise Apart := by decide +kernel

end SharedList.UpdateDictionaries
