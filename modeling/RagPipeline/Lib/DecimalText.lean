/-
  RagPipeline.Lib.DecimalText — decimals, how they are written, and how they are read.

    * `parse_text`      — what is written is read back;
    * `normal_shift`    — a decimal and the same one with one more trailing zero have one normal form;
    * `normal_congr`    — so equal decimals have;
    * `value_normal`    — and a decimal that needs no rounding keeps its value.
-/
import Mathlib.Algebra.Order.Field.Rat
import Mathlib.Data.Nat.Digits.Lemmas
import Mathlib.Tactic.FieldSimp
import Mathlib.Tactic.FinCases
import Mathlib.Tactic.Ring

namespace RagPipeline.Lib

/-! ## §1. Digits. -/

/-- The digits of a number, the first one first; zero has one. -/
def digitsOf (n : ℕ) : List (Fin 10) :=
  if n = 0 then [0] else ((Nat.digits 10 n).map (Fin.ofNat 10)).reverse

/-- The number with these digits. -/
def numberOf (ds : List (Fin 10)) : ℕ := Nat.ofDigits 10 (ds.map Fin.val).reverse

theorem numberOf_digitsOf (n : ℕ) : numberOf (digitsOf n) = n := by
  unfold numberOf digitsOf
  split
  · next h =>
    rw [h]
    rfl
  · have hmap : ((Nat.digits 10 n).map (Fin.ofNat 10)).map Fin.val = Nat.digits 10 n := by
      rw [List.map_map]
      refine (List.map_congr_left fun d hd => ?_).trans (List.map_id _)
      exact Nat.mod_eq_of_lt (Nat.digits_lt_base (by decide) hd)
    rw [List.map_reverse, List.reverse_reverse, hmap, Nat.ofDigits_digits]

theorem numberOf_zeros (k : ℕ) (ds : List (Fin 10)) : numberOf (List.replicate k 0 ++ ds) = numberOf ds := by
  unfold numberOf
  rw [List.map_append, List.reverse_append, List.map_replicate, List.reverse_replicate]
  exact Nat.ofDigits_append_replicate_zero _

theorem digitsOf_ne_nil (n : ℕ) : digitsOf n ≠ [] := by
  unfold digitsOf
  split
  · exact List.cons_ne_nil _ _
  · next h => simpa [Nat.digits_ne_nil_iff_ne_zero] using h

/-- A digit as it is written. -/
def digitChar (d : Fin 10) : Char := Char.ofNat (48 + d.val)

/-- Which characters are decimal digits, and of which value: at least the ten that are written. -/
structure Numerals where
  decimal : Char → Option (Fin 10)
  written : ∀ d, decimal (digitChar d) = some d
  marks : ∀ c ∈ ['.', '-', '+', 'e', 'E'], decimal c = none

/-- Only the ten. -/
def asciiNumerals : Numerals where
  decimal c := (List.finRange 10).find? fun d => decide (digitChar d = c)
  written := by decide
  marks := by
    intro c hc
    fin_cases hc <;> decide

/-! ## §2. Decimals as texts. -/

/-- Sign, coefficient and exponent. -/
structure Dec where
  negative : Bool
  coefficient : ℕ
  exponent : ℤ
  deriving DecidableEq, Repr

namespace Dec

def value (d : Dec) : ℚ := (if d.negative then -1 else 1) * (d.coefficient * (10 : ℚ) ^ d.exponent)

/-- `%+d`. -/
def signedText (n : ℤ) : List Char := (if n < 0 then '-' else '+') :: (digitsOf n.natAbs).map digitChar

/-- Where the point stands in `str(decimal)`: behind the first digit, if the number is written with an exponent. -/
def pointAt (d : Dec) : ℤ :=
  let left := d.exponent + (digitsOf d.coefficient).length
  if d.exponent ≤ 0 ∧ -6 < left then left else 1

/-- `str(decimal)`. -/
def text (d : Dec) : List Char :=
  let digits := digitsOf d.coefficient
  let left := d.exponent + digits.length
  let point := d.pointAt
  let body :=
    if point ≤ 0 then digitChar 0 :: '.' :: (List.replicate point.natAbs (digitChar 0) ++ digits.map digitChar)
    else if digits.length ≤ point then
      digits.map digitChar ++ List.replicate (point.toNat - digits.length) (digitChar 0)
    else (digits.take point.toNat).map digitChar ++ '.' :: (digits.drop point.toNat).map digitChar
  let exponent := if left = point then [] else 'E' :: signedText (left - point)
  (if d.negative then ['-'] else []) ++ (body ++ exponent)

end Dec

variable (t : Numerals)

/-- The digits at the start of a text, and the rest. -/
def spanDigits : List Char → List (Fin 10) × List Char
  | [] => ([], [])
  | c :: cs =>
    match t.decimal c with
    | none => ([], c :: cs)
    | some d => (d :: (spanDigits cs).1, (spanDigits cs).2)

/-- A sign at the start of a text, and the rest. -/
def spanSign : List Char → Bool × List Char
  | '-' :: cs => (true, cs)
  | '+' :: cs => (false, cs)
  | cs => (false, cs)

/-- The exponent that ends a text. -/
def readExponent : List Char → Option ℤ
  | [] => some 0
  | c :: cs =>
    if c = 'e' ∨ c = 'E' then
      match spanDigits t (spanSign cs).2 with
      | (d :: ds, []) => some (if (spanSign cs).1 then -numberOf (d :: ds) else numberOf (d :: ds))
      | _ => none
    else none

/-- The digits behind the point, if there is one, and the rest. -/
def spanFraction : List Char → List (Fin 10) × List Char
  | '.' :: cs => spanDigits t cs
  | cs => ([], cs)

/-- The number that a text denotes. -/
def readDecimal (text : List Char) : Option Dec :=
  let sign := spanSign text
  let whole := spanDigits t sign.2
  let fraction := spanFraction t whole.2
  if whole.1 ++ fraction.1 = [] then none
  else (readExponent t fraction.2).map fun e =>
    ⟨sign.1, numberOf (whole.1 ++ fraction.1), e - fraction.1.length⟩

/-! ## §3. What is written is read back. -/

/-- The text does not go on with a digit. -/
def StopsDigits (text : List Char) : Prop := ∀ c ∈ text.head?, t.decimal c = none

theorem spanDigits_stop {text : List Char} (h : StopsDigits t text) : spanDigits t text = ([], text) := by
  cases text with
  | nil => rfl
  | cons c cs =>
    rw [spanDigits, h c rfl]

theorem spanDigits_append (ds : List (Fin 10)) {text : List Char} (h : StopsDigits t text) :
    spanDigits t (ds.map digitChar ++ text) = (ds, text) := by
  induction ds with
  | nil => exact spanDigits_stop t h
  | cons d ds ih =>
    show spanDigits t (digitChar d :: (ds.map digitChar ++ text)) = _
    rw [spanDigits, t.written d]
    show (d :: (spanDigits t (ds.map digitChar ++ text)).1, (spanDigits t (ds.map digitChar ++ text)).2) = _
    rw [ih]

theorem spanSign_digit (d : Fin 10) (cs : List Char) : spanSign (digitChar d :: cs) = (false, digitChar d :: cs) := by
  have hminus : digitChar d ≠ '-' := by
    revert d
    decide
  have hplus : digitChar d ≠ '+' := by
    revert d
    decide
  unfold spanSign
  split
  · next heq => exact absurd (List.cons.inj heq).1 hminus
  · next heq => exact absurd (List.cons.inj heq).1 hplus
  · rfl

theorem stopsDigits_mark {c : Char} (hc : c ∈ ['.', '-', '+', 'e', 'E']) (cs : List Char) : StopsDigits t (c :: cs) :=
  fun _ hc' => Option.some.inj hc' ▸ t.marks c hc

theorem readExponent_signedText (n : ℤ) : readExponent t ('E' :: Dec.signedText n) = some n := by
  have hsign : spanSign (Dec.signedText n) = (decide (n < 0), (digitsOf n.natAbs).map digitChar) := by
    unfold Dec.signedText
    by_cases hn : n < 0
    · simp [hn, spanSign]
    · simp [hn, spanSign]
  have hspan : spanDigits t ((digitsOf n.natAbs).map digitChar) = (digitsOf n.natAbs, []) := by
    have happend := spanDigits_append t (digitsOf n.natAbs) (show StopsDigits t [] from nofun)
    rwa [List.append_nil] at happend
  rw [readExponent, if_pos (Or.inr rfl), hsign, hspan]
  cases hdigits : digitsOf n.natAbs with
  | nil => exact absurd hdigits (digitsOf_ne_nil _)
  | cons d ds =>
    show some (if decide (n < 0) = true then -(numberOf (d :: ds) : ℤ) else numberOf (d :: ds)) = some n
    rw [← hdigits, numberOf_digitsOf]
    by_cases hn : n < 0
    · rw [if_pos (by simpa using hn)]
      congr 1
      omega
    · rw [if_neg (by simpa using hn)]
      congr 1
      omega

/-- How an exponent is written, or left out. -/
def exponentText (n : ℤ) : List Char := if n = 0 then [] else 'E' :: Dec.signedText n

theorem readExponent_text (n : ℤ) : readExponent t (exponentText n) = some n := by
  unfold exponentText
  split
  · next h =>
    rw [h]
    rfl
  · exact readExponent_signedText t n

theorem stopsDigits_exponentText (n : ℤ) : StopsDigits t (exponentText n) := by
  unfold exponentText
  split
  · exact nofun
  · exact stopsDigits_mark t (by decide) _

theorem spanFraction_exponentText (n : ℤ) : spanFraction t (exponentText n) = ([], exponentText n) := by
  unfold exponentText
  split <;> rfl

/-- A sign as it is written. -/
def signText (negative : Bool) : List Char := if negative then ['-'] else []

theorem spanSign_text (negative : Bool) (d : Fin 10) (cs : List Char) :
    spanSign (signText negative ++ digitChar d :: cs) = (negative, digitChar d :: cs) := by
  cases negative with
  | true => rfl
  | false => exact spanSign_digit d cs

/-- A number without a point. -/
theorem readDecimal_whole (negative : Bool) {ds : List (Fin 10)} (hds : ds ≠ []) (n : ℤ) :
    readDecimal t (signText negative ++ (ds.map digitChar ++ exponentText n)) = some ⟨negative, numberOf ds, n⟩ := by
  obtain ⟨d, ds, rfl⟩ := List.exists_cons_of_ne_nil hds
  have hsign := spanSign_text negative d (ds.map digitChar ++ exponentText n)
  have hspan := spanDigits_append t (d :: ds) (stopsDigits_exponentText t n)
  unfold readDecimal
  simp only [List.map_cons, List.cons_append] at hspan ⊢
  rw [hsign]
  simp only [hspan, spanFraction_exponentText, List.append_nil, readExponent_text]
  simp

/-- A number with a point. -/
theorem readDecimal_point (negative : Bool) {ds : List (Fin 10)} (hds : ds ≠ []) (fs : List (Fin 10)) (n : ℤ) :
    readDecimal t (signText negative ++ (ds.map digitChar ++ '.' :: (fs.map digitChar ++ exponentText n))) =
      some ⟨negative, numberOf (ds ++ fs), n - fs.length⟩ := by
  obtain ⟨d, ds, rfl⟩ := List.exists_cons_of_ne_nil hds
  have hsign := spanSign_text negative d (ds.map digitChar ++ '.' :: (fs.map digitChar ++ exponentText n))
  have hspan := spanDigits_append t (d :: ds)
    (stopsDigits_mark t (c := '.') (by decide) (fs.map digitChar ++ exponentText n))
  have hfraction := spanDigits_append t fs (stopsDigits_exponentText t n)
  unfold readDecimal
  simp only [List.map_cons, List.cons_append] at hspan ⊢
  rw [hsign]
  simp only [hspan, spanFraction, hfraction, readExponent_text]
  simp

/-- **What is written is read back.** -/
theorem parse_text (d : Dec) : readDecimal t d.text = some d := by
  obtain ⟨negative, c, e⟩ := d
  have hlen : 0 < (digitsOf c).length := List.length_pos_iff.mpr (digitsOf_ne_nil c)
  have hnumber := numberOf_digitsOf c
  have hexponent : ∀ left point : ℤ, (if left = point then [] else 'E' :: Dec.signedText (left - point)) =
      exponentText (left - point) := by
    intro left point
    unfold exponentText
    by_cases h : left = point
    · rw [if_pos h, if_pos (by omega)]
    · rw [if_neg h, if_neg (by omega)]
  unfold Dec.text
  simp only [hexponent]
  show readDecimal t (signText negative ++ _) = _
  -- where the point goes decides what is written: zeros before the digits, the digits alone, or a point between them
  generalize hpoint : Dec.pointAt ⟨negative, c, e⟩ = point
  have hcases : (e ≤ 0 ∧ point = e + (digitsOf c).length) ∨ point = 1 := by
    rw [← hpoint]
    unfold Dec.pointAt
    simp only
    split
    · next h => exact Or.inl ⟨h.1, rfl⟩
    · exact Or.inr rfl
  by_cases hsmall : point ≤ 0
  · -- zeros behind the point
    have hleft : e ≤ 0 ∧ point = e + (digitsOf c).length := hcases.resolve_right (by omega)
    rw [if_pos hsmall]
    have hread := readDecimal_point t negative (List.cons_ne_nil 0 [])
      (List.replicate point.natAbs 0 ++ digitsOf c) (e + (digitsOf c).length - point)
    rw [List.map_append, List.map_replicate] at hread
    simp only [List.map_cons, List.map_nil, List.cons_append, List.nil_append, List.append_assoc] at hread ⊢
    rw [hread]
    have hzeros := numberOf_zeros (point.natAbs + 1) (digitsOf c)
    rw [List.replicate_succ, List.cons_append] at hzeros
    rw [hzeros, hnumber, List.length_append, List.length_replicate]
    congr 2
    omega
  · rw [if_neg hsmall]
    by_cases hwhole : (digitsOf c).length ≤ point
    · -- all digits before the point
      rw [if_pos hwhole]
      have heq : point = (digitsOf c).length := by omega
      have hread := readDecimal_whole t negative (digitsOf_ne_nil c) (e + (digitsOf c).length - point)
      have hnone : point.toNat - (digitsOf c).length = 0 := by omega
      rw [hnone, List.replicate_zero, List.append_nil, hread, hnumber]
      congr 2
      omega
    · rw [if_neg hwhole]
      -- a point between the digits
      have htake : (digitsOf c).take point.toNat ≠ [] := by
        intro hnil
        have hzero := congrArg List.length hnil
        rw [List.length_take] at hzero
        simp only [List.length_nil] at hzero
        omega
      have hread := readDecimal_point t negative htake ((digitsOf c).drop point.toNat) (e + (digitsOf c).length - point)
      rw [List.take_append_drop, hnumber, List.length_drop] at hread
      rw [List.append_assoc, List.cons_append, hread]
      congr 2
      omega

/-! ## §4. Normal form. -/

namespace Dec

/-- The zeros at the end of a coefficient. -/
def trailing (c : ℕ) : ℕ := ((Nat.digits 10 c).takeWhile fun d => decide (d = 0)).length

/-- Without them. -/
def stripped (c : ℕ) (e : ℤ) : ℕ × ℤ := (c / 10 ^ trailing c, e + trailing c)

/-- Rounded half to even, to `p` digits. -/
def rounded (p c : ℕ) (e : ℤ) : ℕ × ℤ :=
  if c < 10 ^ p then (c, e)
  else
    let k := (Nat.digits 10 c).length - p
    let q := c / 10 ^ k
    let r := c % 10 ^ k
    (if 10 ^ k < 2 * r ∨ 2 * r = 10 ^ k ∧ q % 2 = 1 then q + 1 else q, e + k)

/-- The coefficient and the exponent of the normal form. -/
def normalParts (p : ℕ) (d : Dec) : ℕ × ℤ :=
  let r := rounded p d.coefficient d.exponent
  stripped r.1 r.2

/-- The normal form at a precision: rounded, and without zeros at its end. -/
def normal (p : ℕ) (d : Dec) : Dec :=
  if d.coefficient = 0 then ⟨d.negative, 0, 0⟩
  else ⟨d.negative, (normalParts p d).1, (normalParts p d).2⟩

theorem trailing_ten {c : ℕ} (h : c ≠ 0) : trailing (10 * c) = trailing c + 1 := by
  have hdigits : Nat.digits 10 (10 * c) = 0 :: Nat.digits 10 c := by
    rw [Nat.digits_def' (by decide) (by omega), Nat.mul_mod_right, Nat.mul_div_cancel_left c (by decide)]
  unfold trailing
  rw [hdigits, List.takeWhile_cons_of_pos (by decide), List.length_cons]

theorem trailing_of_not_dvd {c : ℕ} (h : ¬10 ∣ c) : trailing c = 0 := by
  have hc : c ≠ 0 := fun h0 => h (h0 ▸ dvd_zero 10)
  have hmod : c % 10 ≠ 0 := fun h0 => h (Nat.dvd_of_mod_eq_zero h0)
  unfold trailing
  rw [Nat.digits_def' (by decide) (by omega), List.takeWhile_cons_of_neg (by simpa using hmod)]
  rfl

theorem pow_trailing_dvd (c : ℕ) : 10 ^ trailing c ∣ c := by
  induction c using Nat.strong_induction_on with
  | h c ih =>
    by_cases hc : c = 0
    · rw [hc]
      exact dvd_zero _
    · by_cases hten : 10 ∣ c
      · obtain ⟨c', rfl⟩ := hten
        have hc' : c' ≠ 0 := fun h0 => hc (by rw [h0])
        rw [trailing_ten hc', pow_succ, mul_comm]
        exact Nat.mul_dvd_mul_left 10 (ih c' (by omega))
      · rw [trailing_of_not_dvd hten, pow_zero]
        exact one_dvd c

theorem stripped_ten {c : ℕ} (h : c ≠ 0) (e : ℤ) : stripped (10 * c) (e - 1) = stripped c e := by
  unfold stripped
  rw [trailing_ten h, pow_succ, mul_comm (10 ^ trailing c) 10, Nat.mul_div_mul_left _ _ (by decide)]
  congr 1
  push_cast
  ring

theorem length_digits_ten {c : ℕ} (h : c ≠ 0) : (Nat.digits 10 (10 * c)).length = (Nat.digits 10 c).length + 1 := by
  rw [Nat.digits_def' (by decide) (by omega), Nat.mul_mod_right, Nat.mul_div_cancel_left c (by decide),
    List.length_cons]

/-- A number that has no room for one more zero has all the digits of the precision. -/
theorem length_digits_full {p c : ℕ} (h : c ≠ 0) (hc : c < 10 ^ p) (hten : ¬10 * c < 10 ^ p) :
    (Nat.digits 10 c).length = p := by
  have hlower : 10 ^ (Nat.digits 10 c).length ≤ 10 * c := Nat.base_pow_length_digits_le 10 c (by decide) h
  have hupper : c < 10 ^ (Nat.digits 10 c).length := Nat.lt_base_pow_length_digits (by decide)
  have hle : (Nat.digits 10 c).length ≤ p := by
    by_contra hgt
    have hpow := Nat.pow_le_pow_right (show 0 < 10 by decide) (show p + 1 ≤ (Nat.digits 10 c).length by omega)
    rw [pow_succ] at hpow
    omega
  have hge : p ≤ (Nat.digits 10 c).length := by
    by_contra hlt
    have hpow := Nat.pow_le_pow_right (show 0 < 10 by decide) (show (Nat.digits 10 c).length + 1 ≤ p by omega)
    rw [pow_succ] at hpow
    omega
  omega

/-- Of a number that is too long, rounding drops the added zero as well. -/
theorem rounded_shift {p c : ℕ} (h : c ≠ 0) (hc : ¬c < 10 ^ p) (e : ℤ) :
    rounded p (10 * c) (e - 1) = rounded p c e := by
  have hupper : c < 10 ^ (Nat.digits 10 c).length := Nat.lt_base_pow_length_digits (by decide)
  have hten := length_digits_ten h
  have hmore : p < (Nat.digits 10 c).length := by
    by_contra hle
    have hpow := Nat.pow_le_pow_right (show 0 < 10 by decide) (not_lt.mp hle)
    omega
  have hk : (Nat.digits 10 c).length + 1 - p = ((Nat.digits 10 c).length - p) + 1 := by omega
  unfold rounded
  rw [if_neg (by omega), if_neg hc, hten, hk]
  generalize (Nat.digits 10 c).length - p = k
  have hq : 10 * c / 10 ^ (k + 1) = c / 10 ^ k := by
    rw [pow_succ, mul_comm (10 ^ k) 10, Nat.mul_div_mul_left _ _ (by decide)]
  have hr : 10 * c % 10 ^ (k + 1) = 10 * (c % 10 ^ k) := by
    rw [pow_succ, mul_comm (10 ^ k) 10, Nat.mul_mod_mul_left]
  have hpow : 10 ^ (k + 1) = 10 * 10 ^ k := by rw [pow_succ, mul_comm]
  simp only [hq, hr]
  rw [hpow]
  have hup : (10 * 10 ^ k < 2 * (10 * (c % 10 ^ k)) ∨ 2 * (10 * (c % 10 ^ k)) = 10 * 10 ^ k ∧ c / 10 ^ k % 2 = 1) ↔
      (10 ^ k < 2 * (c % 10 ^ k) ∨ 2 * (c % 10 ^ k) = 10 ^ k ∧ c / 10 ^ k % 2 = 1) := by
    omega
  simp only [hup]
  congr 1
  push_cast
  ring

/-- One more zero at the end, and the exponent one less. -/
theorem normalParts_shift (p : ℕ) (negative : Bool) {c : ℕ} (h : c ≠ 0) (e : ℤ) :
    normalParts p ⟨negative, 10 * c, e - 1⟩ = normalParts p ⟨negative, c, e⟩ := by
  have hten := length_digits_ten h
  unfold normalParts
  simp only
  by_cases hc : c < 10 ^ p
  · by_cases hten' : 10 * c < 10 ^ p
    · have hleft : rounded p (10 * c) (e - 1) = (10 * c, e - 1) := if_pos hten'
      have hright : rounded p c e = (c, e) := if_pos hc
      rw [hleft, hright]
      exact stripped_ten h e
    · -- the zero is the one digit too many
      have hlength := length_digits_full h hc hten'
      have hleft : rounded p (10 * c) (e - 1) = (c, e) := by
        unfold rounded
        rw [if_neg hten', hten, hlength, Nat.add_sub_cancel_left]
        have hr : 10 * c % 10 ^ 1 = 0 := by omega
        have hq : 10 * c / 10 ^ 1 = c := by omega
        simp only [hr, hq]
        rw [if_neg (by omega)]
        congr 1
        omega
      have hright : rounded p c e = (c, e) := if_pos hc
      rw [hleft, hright]
  · rw [rounded_shift h hc e]

/-- Any number of zeros. -/
theorem normalParts_pow (p : ℕ) (negative : Bool) {c : ℕ} (h : c ≠ 0) (e : ℤ) (k : ℕ) :
    normalParts p ⟨negative, 10 ^ k * c, e - k⟩ = normalParts p ⟨negative, c, e⟩ := by
  induction k with
  | zero => rw [pow_zero, one_mul, Nat.cast_zero, sub_zero]
  | succ k ih =>
    have hne : 10 ^ k * c ≠ 0 := Nat.mul_ne_zero (by positivity) h
    have hshift := normalParts_shift p negative hne (e - k)
    have hexponent : e - ((k + 1 : ℕ) : ℤ) = e - k - 1 := by
      push_cast
      ring
    rw [← ih, ← hshift, hexponent, pow_succ, mul_comm (10 ^ k) 10, mul_assoc]

theorem value_eq_zero {d : Dec} : d.value = 0 ↔ d.coefficient = 0 := by
  unfold value
  constructor
  · intro h
    have hsign : (if d.negative then -1 else 1 : ℚ) ≠ 0 := by split <;> decide
    have hpow : (10 : ℚ) ^ d.exponent ≠ 0 := zpow_ne_zero _ (by decide)
    have hcoefficient := (mul_eq_zero.mp ((mul_eq_zero.mp h).resolve_left hsign)).resolve_right hpow
    exact_mod_cast hcoefficient
  · intro h
    rw [h, Nat.cast_zero, zero_mul, mul_zero]

/-- Equal numbers have one sign, if they are not zero, and one absolute value. -/
theorem value_congr {d d' : Dec} (h : d.value = d'.value) (hne : d.coefficient ≠ 0) :
    d.negative = d'.negative ∧ (d.coefficient * (10 : ℚ) ^ d.exponent) = d'.coefficient * (10 : ℚ) ^ d'.exponent := by
  have hne' : d'.coefficient ≠ 0 := fun h0 => hne (value_eq_zero.mp (h.trans (value_eq_zero.mpr h0)))
  have hpos : ∀ x : Dec, x.coefficient ≠ 0 → 0 < (x.coefficient : ℚ) * (10 : ℚ) ^ x.exponent := fun x hx =>
    mul_pos (Nat.cast_pos.mpr (Nat.pos_of_ne_zero hx)) (zpow_pos (by decide) _)
  have hd := hpos d hne
  have hd' := hpos d' hne'
  unfold value at h
  cases hs : d.negative <;> cases hs' : d'.negative
  · rw [hs, hs'] at h
    exact ⟨rfl, by simpa using h⟩
  · rw [hs, hs'] at h
    simp only [if_true, Bool.false_eq_true, if_false] at h
    linarith
  · rw [hs, hs'] at h
    simp only [if_true, Bool.false_eq_true, if_false] at h
    linarith
  · rw [hs, hs'] at h
    exact ⟨rfl, by simpa using h⟩

/-- The one with the smaller exponent has the more zeros. -/
theorem coefficient_of_le {c c' : ℕ} {e e' : ℤ} (h : (c * (10 : ℚ) ^ e) = c' * (10 : ℚ) ^ e') (hle : e ≤ e') :
    c = 10 ^ (e' - e).toNat * c' := by
  have hexponent : e' = e + ((e' - e).toNat : ℤ) := by omega
  have hten : (10 : ℚ) ≠ 0 := by decide
  rw [hexponent, zpow_add₀ hten, zpow_natCast] at h
  have hpow : (10 : ℚ) ^ e ≠ 0 := zpow_ne_zero _ hten
  have hcancel : (c : ℚ) = 10 ^ (e' - e).toNat * c' := by
    refine mul_right_cancel₀ hpow ?_
    rw [h]
    ring
  exact_mod_cast hcancel

/-- **Equal numbers have one normal form**, up to the sign of a zero. -/
theorem normal_congr (p : ℕ) {d d' : Dec} (h : d.value = d'.value) (hne : d.coefficient ≠ 0) :
    normal p d = normal p d' := by
  have hne' : d'.coefficient ≠ 0 := fun h0 => hne (value_eq_zero.mp (h.trans (value_eq_zero.mpr h0)))
  obtain ⟨hsign, habs⟩ := value_congr h hne
  have hshift : ∀ {x y : Dec}, x.coefficient ≠ 0 → y.coefficient ≠ 0 →
      (x.coefficient * (10 : ℚ) ^ x.exponent) = y.coefficient * (10 : ℚ) ^ y.exponent → x.exponent ≤ y.exponent →
      normalParts p x = normalParts p y := by
    rintro ⟨s, c, e⟩ ⟨s', c', e'⟩ hx hy hvalue hle
    have hc : c = 10 ^ (e' - e).toNat * c' := coefficient_of_le hvalue hle
    have he : e = e' - ((e' - e).toNat : ℤ) := by
      have hle' : e ≤ e' := hle
      omega
    have hpow := normalParts_pow p s hy e' (e' - e).toNat
    rw [← hc, ← he] at hpow
    exact hpow
  have hparts : normalParts p d = normalParts p d' := by
    cases le_total d.exponent d'.exponent with
    | inl hle => exact hshift hne hne' habs hle
    | inr hle => exact (hshift hne' hne habs.symm hle).symm
  unfold normal
  rw [if_neg hne, if_neg hne', hparts, hsign]

/-- Without the zeros at its end the coefficient has at most `p` digits. -/
def FewDigits (p : ℕ) (d : Dec) : Prop := d.coefficient / 10 ^ trailing d.coefficient < 10 ^ p

/-- **A number of few digits keeps its value.** -/
theorem value_normal {p : ℕ} {d : Dec} (h : d.FewDigits p) : (normal p d).value = d.value := by
  by_cases hzero : d.coefficient = 0
  · unfold normal
    rw [if_pos hzero, value_eq_zero.mpr hzero]
    exact value_eq_zero.mpr rfl
  · obtain ⟨s, c, e⟩ := d
    obtain ⟨c₀, hc₀⟩ := pow_trailing_dvd c
    have hpos : 0 < 10 ^ trailing c := by positivity
    have hquotient : c / 10 ^ trailing c = c₀ := Nat.div_eq_of_eq_mul_right hpos hc₀
    have hne : c₀ ≠ 0 := by
      rintro rfl
      exact hzero (hc₀.trans (mul_zero _))
    have hfew : c₀ < 10 ^ p := hquotient ▸ h
    have hparts := normalParts_pow p s hne (e + trailing c) (trailing c)
    rw [← hc₀, add_sub_cancel_right] at hparts
    -- what is left of it has no zero at its end
    have hstripped : normalParts p ⟨s, c₀, e + trailing c⟩ = stripped c₀ (e + trailing c) := by
      unfold normalParts rounded
      simp only [if_pos hfew]
    obtain ⟨c₁, hc₁⟩ := pow_trailing_dvd c₀
    have hquotient' : c₀ / 10 ^ trailing c₀ = c₁ := Nat.div_eq_of_eq_mul_right (by positivity) hc₁
    unfold normal
    rw [if_neg hzero, hparts, hstripped]
    unfold stripped value
    simp only [hquotient']
    congr 1
    have hten : (10 : ℚ) ≠ 0 := by decide
    have hcast : (c : ℚ) = 10 ^ trailing c * c₀ := by exact_mod_cast hc₀
    have hcast' : (c₀ : ℚ) = 10 ^ trailing c₀ * c₁ := by exact_mod_cast hc₁
    calc (c₁ : ℚ) * 10 ^ (e + trailing c + trailing c₀)
        = (10 ^ trailing c * (10 ^ trailing c₀ * c₁)) * 10 ^ e := by
          rw [zpow_add₀ hten, zpow_add₀ hten, zpow_natCast, zpow_natCast]
          ring
      _ = (c : ℚ) * 10 ^ e := by rw [← hcast', ← hcast]

end Dec

end RagPipeline.Lib
