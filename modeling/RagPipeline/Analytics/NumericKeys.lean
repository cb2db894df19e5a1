/-
  RagPipeline.Analytics.NumericKeys — the identity of a number that a count of distinct values hashes.

  The decimals are those of the language, with their sign, their coefficient and their exponent: of two equal ones the
  texts may differ.

    * `reads_key`         — the key of a number is a text of it, while its digits are few;
    * `distinct_key_iff`  — when two values have one key, or two.
-/
import RagPipeline.Lib.DecimalText
import RagPipeline.Lib.Strip

namespace RagPipeline.Analytics.NumericKeys

open RagPipeline.Lib

/-! ## §1. Values and their numbers. -/

/-- What an attribute of a row holds; a `float` is known by its text. -/
inductive AttributeValue where
  | none
  | bool (value : Bool)
  | int (value : ℤ)
  | float (shown : List Char)
  | decimal (value : Dec)
  | str (text : List Char)

/-- What is read of the language: the characters that are decimal digits, and those that `isdigit` takes for digits. -/
structure DigitTable extends Numerals where
  isDigit : Char → Bool

variable (t : DigitTable)

/-- The text as the decimal constructor reads it: without white space around it and without underscores. -/
def cleaned (text : List Char) : List Char := (stripBy isSpace text).filter fun c => decide (c ≠ '_')

/-- The exponents that a decimal can have. -/
def storable (d : Dec) : Bool :=
  decide (d.exponent + (digitsOf d.coefficient).length - 1 ≤ 999999999999999999 ∧ -1999999999999999997 ≤ d.exponent)

/-- `Decimal(text)`, of a finite number. -/
def decimalOf (text : List Char) : Option Dec := (readDecimal t.toNumerals (cleaned text)).filter storable

/-- `numeric_or_none`. -/
def numericOrNone : AttributeValue → Option Dec
  | .none => none
  | .bool _ => none
  | .decimal value => some value
  | .int value => some ⟨decide (value < 0), value.natAbs, 0⟩
  | .float shown => decimalOf t shown
  | .str text => decimalOf t (stripBy isSpace text)

/-- `number == number.to_integral()`: the zeros at its end reach to the point. -/
def isIntegral (d : Dec) : Bool := decide (d.coefficient = 0 ∨ 0 ≤ d.exponent + Dec.trailing d.coefficient)

/-- The digits of the decimal context. -/
def contextDigits : ℕ := 28

/-- What the context can hold: a greater number raises. -/
def inContext (d : Dec) : Bool :=
  decide (d.coefficient = 0 ∨
    (d.normal contextDigits).exponent + (digitsOf (d.normal contextDigits).coefficient).length - 1 ≤ 999999)

/-- `number.normalize()`. -/
def normalize (d : Dec) : Option Dec := if inContext d then some (d.normal contextDigits) else none

/-- `text.lstrip("-").isdigit()`. -/
def isDigits (text : List Char) : Bool :=
  let digits := text.dropWhile fun c => decide (c = '-')
  !digits.isEmpty && digits.all t.isDigit

/-- `str(number.normalize()) if number == number.to_integral() else str(number)`. -/
def numberKey (d : Dec) : Option (Option (List Char)) :=
  if isIntegral d then (normalize d).map fun n => some n.text else some (some d.text)

/-- `distinct_key`; the outer `none` is an exception, the inner one nothing to count. -/
def distinctKey : AttributeValue → Option (Option (List Char))
  | .str raw =>
    let text := stripBy isSpace raw
    if text = [] then some none
    else
      match numericOrNone t (.str text) with
      | none => some (some text)
      | some d => if isIntegral d && isDigits t text then (normalize d).map fun n => some n.text else some (some text)
  | value =>
    match numericOrNone t value with
    | none => some none
    | some d => numberKey d

/-! ## §2. Spellings. -/

/-- The value is put into its normal form: it is a whole number, and a text has only digits and minus signs. -/
def isPlain (value : AttributeValue) : Bool :=
  match numericOrNone t value with
  | none => false
  | some d =>
    isIntegral d && match value with
      | .str raw => isDigits t (stripBy isSpace raw)
      | _ => true

/-- The text that a value has. -/
def spelling (value : AttributeValue) (d : Dec) : List Char :=
  match value with
  | .str raw => stripBy isSpace raw
  | _ => d.text

/-- Two values of one number are spelled so that they have one key. -/
def SameSpelling (a b : AttributeValue) (x y : Dec) : Prop :=
  match isPlain t a, isPlain t b with
  | true, true => x.value = 0 → x.negative = y.negative
  | true, false => spelling b y = (x.normal contextDigits).text
  | false, true => spelling a x = (y.normal contextDigits).text
  | false, false => spelling a x = spelling b y

/-- The normal form of a plain value does not raise. -/
def Keyed (value : AttributeValue) (d : Dec) : Prop := isPlain t value = true → inContext d = true

section Keys

variable {t} {value : AttributeValue} {d : Dec}

/-- What is stripped has nothing more to strip. -/
theorem stripBy_idem (l : List Char) : stripBy isSpace (stripBy isSpace l) = stripBy isSpace l := by
  unfold stripBy
  have hprefix : ( l.dropWhile isSpace).rdropWhile isSpace <+: l.dropWhile isSpace := List.rdropWhile_prefix _ _
  have hhead : ((l.dropWhile isSpace).rdropWhile isSpace).dropWhile isSpace =
      (l.dropWhile isSpace).rdropWhile isSpace := by
    cases hr : (l.dropWhile isSpace).rdropWhile isSpace with
    | nil => rfl
    | cons c rest =>
      rw [hr] at hprefix
      obtain ⟨more, hmore⟩ := hprefix
      have hc := List.head?_dropWhile_not isSpace l
      rw [← hmore] at hc
      exact List.dropWhile_cons_of_neg (by simpa using hc)
  rw [hhead, List.rdropWhile_idempotent]

/-- What has nothing to strip stays as it is. -/
theorem stripBy_self {l : List Char} (h : ∀ c ∈ l, isSpace c = false) : stripBy isSpace l = l := by
  have hdrop : l.dropWhile isSpace = l := by
    cases l with
    | nil => rfl
    | cons c rest => exact List.dropWhile_cons_of_neg (by simp [h c List.mem_cons_self])
  unfold stripBy
  rw [hdrop, List.rdropWhile_eq_self_iff]
  intro hne
  simp [h _ (List.getLast_mem hne)]

/-- A character that a decimal is written with. -/
def Written (c : Char) : Prop := isSpace c = false ∧ c ≠ '_'

/-- What holds of the digits and of the marks holds of every character of a text. -/
theorem forall_text {P : Char → Prop} (hdigit : ∀ k, P (digitChar k)) (hmark : ∀ c ∈ ['.', '-', '+', 'E'], P c) (d : Dec) :
    ∀ c ∈ d.text, P c := by
  have hdigits : ∀ ds : List (Fin 10), ∀ c ∈ ds.map digitChar, P c := by
    intro ds c hc
    obtain ⟨k, -, rfl⟩ := List.mem_map.mp hc
    exact hdigit k
  have hzeros : ∀ k : ℕ, ∀ c ∈ List.replicate k (digitChar 0), P c := fun k c hc =>
    (List.mem_replicate.mp hc).2 ▸ hdigit 0
  have hsigned : ∀ n, ∀ c ∈ Dec.signedText n, P c := by
    intro n
    unfold Dec.signedText
    refine List.forall_mem_cons.mpr ⟨?_, hdigits _⟩
    split
    · exact hmark '-' (by decide)
    · exact hmark '+' (by decide)
  unfold Dec.text
  simp only
  refine List.forall_mem_append.mpr ⟨?_, List.forall_mem_append.mpr ⟨?_, ?_⟩⟩
  · split
    · exact List.forall_mem_singleton.mpr (hmark '-' (by decide))
    · exact fun c hc => absurd hc List.not_mem_nil
  · split
    · refine List.forall_mem_cons.mpr ⟨hdigit 0, List.forall_mem_cons.mpr ⟨hmark '.' (by decide), ?_⟩⟩
      exact List.forall_mem_append.mpr ⟨hzeros _, hdigits _⟩
    · split
      · exact List.forall_mem_append.mpr ⟨hdigits _, hzeros _⟩
      · exact List.forall_mem_append.mpr ⟨hdigits _, List.forall_mem_cons.mpr ⟨hmark '.' (by decide), hdigits _⟩⟩
  · split
    · exact fun c hc => absurd hc List.not_mem_nil
    · exact List.forall_mem_cons.mpr ⟨hmark 'E' (by decide), hsigned _⟩

theorem written_digitChar (k : Fin 10) : Written (digitChar k) := by
  unfold Written
  revert k
  decide

theorem written_text (d : Dec) : ∀ c ∈ d.text, Written c := by
  refine forall_text written_digitChar ?_ d
  intro c hc
  fin_cases hc <;> exact ⟨rfl, by decide⟩

theorem cleaned_of_written {text : List Char} (h : ∀ c ∈ text, Written c) : cleaned text = text := by
  unfold cleaned
  rw [stripBy_self fun c hc => (h c hc).1]
  exact List.filter_eq_self.mpr fun c hc => decide_eq_true (h c hc).2

/-- The text denotes the number. -/
def Reads (t : DigitTable) (text : List Char) (d : Dec) : Prop := readDecimal t.toNumerals (cleaned text) = some d

theorem reads_text (t : DigitTable) (d : Dec) : Reads t d.text d := by
  unfold Reads
  rw [cleaned_of_written (written_text d), parse_text]

theorem reads_spelling (h : numericOrNone t value = some d) : Reads t (spelling value d) d := by
  cases value with
  | str raw => exact (Option.filter_eq_some_iff.mp h).1
  | none => cases h
  | bool b => cases h
  | int n => exact reads_text t d
  | float shown => exact reads_text t d
  | decimal x => exact reads_text t d

theorem decimalOf_nil : decimalOf t [] = none := rfl

/-- **The key of a number**: its normal form, or the text it has. -/
theorem distinctKey_eq (h : numericOrNone t value = some d) :
    distinctKey t value =
      if isPlain t value then (if inContext d then some (some (d.normal contextDigits).text) else none)
      else some (some (spelling value d)) := by
  have hnormal : ((normalize d).map fun n => some n.text) =
      if inContext d then some (some (d.normal contextDigits).text) else none := by
    unfold normalize
    split <;> rfl
  -- a value that is no text is read as it is
  have hnumber : ∀ v, (∀ raw, v ≠ .str raw) → numericOrNone t v = some d → distinctKey t v =
      if isPlain t v then (if inContext d then some (some (d.normal contextDigits).text) else none)
      else some (some (spelling v d)) := by
    intro v hv hd
    have hplain : isPlain t v = isIntegral d := by
      unfold isPlain
      rw [hd]
      cases v with
      | str raw => exact absurd rfl (hv raw)
      | _ => exact Bool.and_true _
    have hkey : distinctKey t v = numberKey d := by
      unfold distinctKey
      cases v with
      | str raw => exact absurd rfl (hv raw)
      | _ =>
        simp only
        rw [hd]
    have hspelling : spelling v d = d.text := by
      cases v with
      | str raw => exact absurd rfl (hv raw)
      | _ => rfl
    rw [hkey, hplain, hspelling]
    unfold numberKey
    rw [hnormal]
  cases value with
  | str raw =>
    -- a text that is a number is not blank
    have hne : stripBy isSpace raw ≠ [] := by
      intro hnil
      have hd : decimalOf t (stripBy isSpace raw) = some d := h
      rw [hnil, decimalOf_nil] at hd
      cases hd
    have hd : numericOrNone t (.str (stripBy isSpace raw)) = some d := by
      show decimalOf t (stripBy isSpace (stripBy isSpace raw)) = some d
      rw [stripBy_idem]
      exact h
    unfold distinctKey isPlain
    simp only [hd, h, if_neg hne, hnormal]
    rfl
  | none => cases h
  | bool b => cases h
  | int n => exact hnumber _ (fun _ => nofun) h
  | float shown => exact hnumber _ (fun _ => nofun) h
  | decimal x => exact hnumber _ (fun _ => nofun) h

/-- The key that a number has, where nothing raises. -/
def keyText (t : DigitTable) (value : AttributeValue) (d : Dec) : List Char :=
  if isPlain t value then (d.normal contextDigits).text else spelling value d

/-- **The key of a number is a text of it**, while its digits are few. -/
theorem reads_key (h : numericOrNone t value = some d) (hfew : d.FewDigits contextDigits) :
    ∃ n, Reads t (keyText t value d) n ∧ n.value = d.value := by
  unfold keyText
  split
  · exact ⟨d.normal contextDigits, reads_text t _, Dec.value_normal hfew⟩
  · exact ⟨d, reads_spelling h, rfl⟩

theorem distinctKey_eq_some (h : numericOrNone t value = some d) (k : List Char) :
    distinctKey t value = some (some k) ↔ Keyed t value d ∧ k = keyText t value d := by
  rw [distinctKey_eq h]
  unfold Keyed keyText
  by_cases hplain : isPlain t value = true
  · rw [if_pos hplain, if_pos hplain]
    by_cases hcontext : inContext d = true
    · rw [if_pos hcontext]
      constructor
      · intro heq
        exact ⟨fun _ => hcontext, (Option.some.inj (Option.some.inj heq)).symm⟩
      · rintro ⟨-, rfl⟩
        rfl
    · rw [if_neg hcontext]
      exact ⟨nofun, fun heq => absurd (heq.1 hplain) hcontext⟩
  · rw [if_neg hplain, if_neg hplain]
    constructor
    · intro heq
      exact ⟨fun hp => absurd hp hplain, (Option.some.inj (Option.some.inj heq)).symm⟩
    · rintro ⟨-, rfl⟩
      rfl

end Keys

/-! ## §3. Two values. -/

theorem text_injective (t : DigitTable) {x y : Dec} (h : x.text = y.text) : x = y := by
  have hread := parse_text t.toNumerals x
  rw [h, parse_text] at hread
  exact (Option.some.inj hread).symm

/-- Normal forms of one number differ in the sign of a zero. -/
theorem normal_eq_iff {x y : Dec} (h : x.value = y.value) :
    x.normal contextDigits = y.normal contextDigits ↔ (x.value = 0 → x.negative = y.negative) := by
  by_cases hzero : x.value = 0
  · have hx := Dec.value_eq_zero.mp hzero
    have hy := Dec.value_eq_zero.mp (h ▸ hzero)
    unfold Dec.normal
    rw [if_pos hx, if_pos hy]
    exact ⟨fun heq _ => (Dec.mk.inj heq).1, fun hsign => by rw [hsign hzero]⟩
  · have hx : x.coefficient ≠ 0 := fun h0 => hzero (Dec.value_eq_zero.mpr h0)
    exact ⟨fun _ h0 => absurd h0 hzero, fun _ => Dec.normal_congr contextDigits h hx⟩

section Pairs

variable {t} {a b : AttributeValue} {x y : Dec}

/-- Two values of one number have one key exactly when they are spelled so. -/
theorem keyText_eq_iff (h : x.value = y.value) : keyText t a x = keyText t b y ↔ SameSpelling t a b x y := by
  unfold keyText SameSpelling
  cases isPlain t a <;> cases isPlain t b
  · exact Iff.rfl
  · exact Iff.rfl
  · exact eq_comm
  · refine Iff.trans ⟨fun heq => text_injective t heq, fun heq => congrArg Dec.text heq⟩ (normal_eq_iff h)

/-- What is asked of the keys of two numbers: equal ones have one, and different ones of few digits two. -/
def KeysRespect (t : DigitTable) (a b : AttributeValue) (x y : Dec) : Prop :=
  ∃ k k', distinctKey t a = some (some k) ∧ distinctKey t b = some (some k') ∧ (x.value = y.value → k = k') ∧
    (x.value ≠ y.value → x.FewDigits contextDigits → y.FewDigits contextDigits → k ≠ k')

/-- **When keys respect equality**: nothing raises, and equal numbers are spelled so that they have one key. -/
theorem distinct_key_iff (ha : numericOrNone t a = some x) (hb : numericOrNone t b = some y) :
    KeysRespect t a b x y ↔ Keyed t a x ∧ Keyed t b y ∧ (x.value = y.value → SameSpelling t a b x y) := by
  constructor
  · rintro ⟨k, k', hk, hk', hsame, -⟩
    obtain ⟨hkeyed, rfl⟩ := (distinctKey_eq_some ha k).mp hk
    obtain ⟨hkeyed', rfl⟩ := (distinctKey_eq_some hb k').mp hk'
    exact ⟨hkeyed, hkeyed', fun heq => (keyText_eq_iff heq).mp (hsame heq)⟩
  · rintro ⟨hkeyed, hkeyed', hsame⟩
    refine ⟨keyText t a x, keyText t b y, (distinctKey_eq_some ha _).mpr ⟨hkeyed, rfl⟩,
      (distinctKey_eq_some hb _).mpr ⟨hkeyed', rfl⟩, fun heq => (keyText_eq_iff heq).mpr (hsame heq), ?_⟩
    intro hne hfew hfew' heq
    -- a key that two numbers have denotes both
    obtain ⟨n, hn, hvalue⟩ := reads_key ha hfew
    obtain ⟨n', hn', hvalue'⟩ := reads_key hb hfew'
    have hread : some n = some n' := by
      rw [← hn, ← hn', heq]
    rw [← hvalue, ← hvalue', Option.some.inj hread] at hne
    exact hne rfl

end Pairs

/-- The digits of ASCII. -/
def asciiTable : DigitTable := { asciiNumerals with isDigit := Char.isDigit }

/-- An item number as it comes from a column, and as it comes from a text. -/
theorem distinct_key_iff_item :
    KeysRespect asciiTable (.int 624) (.str "0624".toList) ⟨false, 624, 0⟩ ⟨false, 624, 0⟩ := by
  have hplain : isPlain asciiTable (.int 624) = true := by decide +kernel
  have hplain' : isPlain asciiTable (.str "0624".toList) = true := by decide +kernel
  have hcontext : inContext ⟨false, 624, 0⟩ = true := by decide +kernel
  refine (distinct_key_iff (by decide +kernel) (by decide +kernel)).mpr
    ⟨fun _ => hcontext, fun _ => hcontext, fun _ => ?_⟩
  unfold SameSpelling
  rw [hplain, hplain']
  exact fun _ => rfl

/-- A text with a point keeps it: 624 and 624.0 count as two, and 0.5 and 0.50. -/
theorem pointed_differs : ¬∀ (a b : AttributeValue) (x y : Dec), numericOrNone asciiTable a = some x →
    numericOrNone asciiTable b = some y → KeysRespect asciiTable a b x y := by
  intro h
  obtain ⟨k, k', hk, hk', hsame, -⟩ := h (.int 624) (.str "624.0".toList) ⟨false, 624, 0⟩ ⟨false, 6240, -1⟩
    (by decide +kernel) (by decide +kernel)
  have hvalue : (⟨false, 624, 0⟩ : Dec).value = (⟨false, 6240, -1⟩ : Dec).value := by norm_num [Dec.value]
  have hkeys : distinctKey asciiTable (.int 624) = distinctKey asciiTable (.str "624.0".toList) := by
    rw [hk, hk', hsame hvalue]
  revert hkeys
  decide +kernel

end RagPipeline.Analytics.NumericKeys
