/-
  RagPipeline.Lib.Rounding — rounding of rationals to a grid, and to a number of significant digits.

    * `OnGrid b k q`  — `q` is a whole multiple of `b ^ k`;
    * `quantize`      — the multiple of `b ^ k` that a rounding of the integers picks;
    * `Format`        — a base, a precision and an exponent range: decimal contexts and binary
                        floating-point formats are both of this kind;
    * `Format.round`  — half-even rounding to the precision, `none` on overflow.

  What a user needs: a rounded value is rounded to itself (`Format.round_round`), and a value that is
  on a coarse grid stays on it (`Format.onGrid_of_round`).
-/
import Mathlib.Data.Int.ConditionallyCompleteOrder
import Mathlib.Data.Int.Log
import Mathlib.Data.Rat.Floor
import Mathlib.Tactic.Ring
import Mathlib.Tactic.Linarith
import Mathlib.Tactic.FieldSimp
import Mathlib.Tactic.NormNum
import Mathlib.Tactic.Positivity

namespace RagPipeline.Lib

/-! ## §1. Rounding to an integer. -/

/-- The nearest integer, a tie to the even one. -/
def halfEven (x : ℚ) : ℤ :=
  if x - ⌊x⌋ < 1 / 2 then ⌊x⌋
  else if 1 / 2 < x - ⌊x⌋ then ⌊x⌋ + 1
  else if ⌊x⌋ % 2 = 0 then ⌊x⌋ else ⌊x⌋ + 1

/-- The nearest integer, a tie away from zero. -/
def halfAway (x : ℚ) : ℤ := if 0 ≤ x then ⌊x + 1 / 2⌋ else -⌊-x + 1 / 2⌋

@[simp] theorem halfEven_intCast (n : ℤ) : halfEven (n : ℚ) = n := by
  have h : (n : ℚ) - ⌊(n : ℚ)⌋ < 1 / 2 := by
    rw [Int.floor_intCast, sub_self]
    norm_num
  rw [halfEven, if_pos h, Int.floor_intCast]

@[simp] theorem halfAway_intCast (n : ℤ) : halfAway (n : ℚ) = n := by
  have hup : ∀ m : ℤ, ⌊(m : ℚ) + 1 / 2⌋ = m := by
    intro m
    rw [Int.floor_eq_iff]
    constructor
    · linarith
    · linarith
  unfold halfAway
  split
  · exact hup n
  · have h := hup (-n)
    push_cast at h
    omega

theorem floor_le_halfEven (x : ℚ) : ⌊x⌋ ≤ halfEven x := by
  unfold halfEven
  split_ifs <;> omega

theorem halfEven_le_floor_succ (x : ℚ) : halfEven x ≤ ⌊x⌋ + 1 := by
  unfold halfEven
  split_ifs <;> omega

/-- A rounding does not leave a symmetric integer interval. -/
theorem halfEven_mono : Monotone halfEven := by
  intro x y h
  rcases lt_or_eq_of_le (Int.floor_le_floor h) with hlt | heq
  · calc halfEven x ≤ ⌊x⌋ + 1 := halfEven_le_floor_succ x
      _ ≤ ⌊y⌋ := hlt
      _ ≤ halfEven y := floor_le_halfEven y
  · unfold halfEven
    rw [← heq]
    split_ifs
    all_goals first
      | omega
      | exfalso; linarith

theorem abs_halfEven_le {x : ℚ} {n : ℤ} (h : |x| < n) : |halfEven x| ≤ n := by
  obtain ⟨hlo, hhi⟩ := abs_lt.mp h
  have hfloor : ⌊x⌋ < n := Int.floor_lt.mpr hhi
  have hneg : -n ≤ ⌊x⌋ := by
    apply Int.le_floor.mpr
    push_cast
    exact le_of_lt hlo
  have h1 := floor_le_halfEven x
  have h2 := halfEven_le_floor_succ x
  apply abs_le.mpr
  constructor
  · omega
  · omega

/-! ## §2. Grids. -/

/-- `q` is a whole multiple of `b ^ k`. -/
def OnGrid (b : ℕ) (k : ℤ) (q : ℚ) : Prop := ∃ n : ℤ, q = n * (b : ℚ) ^ k

/-- The multiple of `b ^ k` that `rnd` picks for `q`. -/
def quantize (rnd : ℚ → ℤ) (b : ℕ) (k : ℤ) (q : ℚ) : ℚ := rnd (q / (b : ℚ) ^ k) * (b : ℚ) ^ k

section Grid

variable {b : ℕ} {k j : ℤ} {q : ℚ} {rnd : ℚ → ℤ}

theorem onGrid_quantize : OnGrid b k (quantize rnd b k q) := ⟨_, rfl⟩

theorem quantize_mono (hb : 0 < b) (hrnd : Monotone rnd) {q q' : ℚ} (h : q ≤ q') :
    quantize rnd b k q ≤ quantize rnd b k q' := by
  have hpos : (0 : ℚ) < (b : ℚ) ^ k := zpow_pos (by exact_mod_cast hb) k
  have hle : rnd (q / (b : ℚ) ^ k) ≤ rnd (q' / (b : ℚ) ^ k) := hrnd ((div_le_div_iff_of_pos_right hpos).mpr h)
  exact mul_le_mul_of_nonneg_right (by exact_mod_cast hle) hpos.le

theorem onGrid_zero : OnGrid b k 0 := ⟨0, by simp⟩

theorem quantize_of_onGrid (hb : 1 < b) (hrnd : ∀ n : ℤ, rnd n = n) (h : OnGrid b k q) :
    quantize rnd b k q = q := by
  obtain ⟨n, rfl⟩ := h
  have hpow : (b : ℚ) ^ k ≠ 0 := zpow_ne_zero _ (by exact_mod_cast (by omega : b ≠ 0))
  rw [quantize, mul_div_assoc, div_self hpow, mul_one, hrnd]

/-- A coarse grid lies on every finer one. -/
theorem OnGrid.mono (hb : 1 < b) (hkj : j ≤ k) (h : OnGrid b k q) : OnGrid b j q := by
  obtain ⟨n, rfl⟩ := h
  have hne : (b : ℚ) ≠ 0 := by exact_mod_cast (by omega : b ≠ 0)
  refine ⟨n * (b : ℤ) ^ (k - j).toNat, ?_⟩
  have hsplit : (b : ℚ) ^ k = (b : ℚ) ^ (k - j).toNat * (b : ℚ) ^ j := by
    rw [← zpow_natCast, ← zpow_add₀ hne]
    congr 1
    omega
  rw [hsplit]
  push_cast
  ring

/-- Quantizing to one grid does not leave another: the finer of the two decides. -/
theorem OnGrid.quantize (hb : 1 < b) (hrnd : ∀ n : ℤ, rnd n = n) (h : OnGrid b j q) :
    OnGrid b j (quantize rnd b k q) := by
  rcases le_total k j with hkj | hjk
  · rw [quantize_of_onGrid hb hrnd (h.mono hb hkj)]
    exact h
  · exact onGrid_quantize.mono hb hjk

/-- On the grid is equivalent to being a fixed point of the quantization. -/
theorem onGrid_iff_quantize (hb : 1 < b) (hrnd : ∀ n : ℤ, rnd n = n) :
    OnGrid b k q ↔ Lib.quantize rnd b k q = q := by
  constructor
  · intro h
    exact quantize_of_onGrid hb hrnd h
  · intro h
    rw [← h]
    exact onGrid_quantize

end Grid

/-! ## §3. Significant digits. -/

/-- A base, a precision, the smallest exponent of a digit and the largest exponent of a value. -/
structure Format where
  base : ℕ
  precision : ℕ
  tiny : ℤ
  top : ℤ
  one_lt_base : 1 < base
  precision_pos : 0 < precision
  top_nonneg : 0 ≤ top

namespace Format

variable (f : Format)

/-- The exponent of the last digit that is kept. -/
def quantum (q : ℚ) : ℤ := max (Int.log f.base |q| - (f.precision - 1)) f.tiny

/-- Half-even rounding to the precision; `none` where the value is above the range. -/
def round (q : ℚ) : Option ℚ :=
  if f.top < Int.log f.base |quantize halfEven f.base (f.quantum q) q| then none
  else some (quantize halfEven f.base (f.quantum q) q)

variable {f} {q r : ℚ}

theorem round_eq_some :
    f.round q = some r ↔
      Int.log f.base |r| ≤ f.top ∧ r = quantize halfEven f.base (f.quantum q) q := by
  unfold round
  split
  · constructor
    · intro h
      simp at h
    · rintro ⟨hle, rfl⟩
      omega
  · constructor
    · intro h
      obtain rfl := Option.some.inj h
      exact ⟨by omega, rfl⟩
    · rintro ⟨-, rfl⟩
      rfl

@[simp] theorem round_zero : f.round 0 = some 0 := by
  have h : quantize halfEven f.base (f.quantum 0) 0 = 0 :=
    quantize_of_onGrid f.one_lt_base halfEven_intCast onGrid_zero
  have htop := f.top_nonneg
  rw [round_eq_some, h]
  simpa using htop

/-- What is on a grid stays on it. -/
theorem onGrid_of_round {k : ℤ} (h : OnGrid f.base k q) (hr : f.round q = some r) :
    OnGrid f.base k r := by
  obtain ⟨-, rfl⟩ := round_eq_some.mp hr
  exact h.quantize f.one_lt_base halfEven_intCast

/-- The digits that are kept, as an integer, are no more than the precision's. -/
theorem abs_digits_le (q : ℚ) :
    |halfEven (q / (f.base : ℚ) ^ f.quantum q)| ≤ (f.base : ℤ) ^ f.precision := by
  have hpos : (0 : ℚ) < (f.base : ℚ) ^ f.quantum q :=
    zpow_pos (by exact_mod_cast (by have := f.one_lt_base; omega : 0 < f.base)) _
  have hne : (f.base : ℚ) ≠ 0 := by exact_mod_cast (by have := f.one_lt_base; omega : f.base ≠ 0)
  apply abs_halfEven_le
  rw [abs_div, abs_of_pos hpos, div_lt_iff₀ hpos]
  push_cast
  rw [← zpow_natCast, ← zpow_add₀ hne]
  -- `|q|` is below the power after its leading digit, which is within the precision
  calc |q| < (f.base : ℚ) ^ (Int.log f.base |q| + 1) :=
        Int.lt_zpow_succ_log_self f.one_lt_base _
    _ ≤ (f.base : ℚ) ^ ((f.precision : ℤ) + f.quantum q) := by
        apply zpow_le_zpow_right₀ (by exact_mod_cast f.one_lt_base.le)
        have : Int.log f.base |q| - (f.precision - 1) ≤ f.quantum q := le_max_left _ _
        omega

/-- A rounded value is on the grid it would itself be rounded to. -/
theorem onGrid_quantum_quantize (q : ℚ) :
    OnGrid f.base (f.quantum (quantize halfEven f.base (f.quantum q) q))
      (quantize halfEven f.base (f.quantum q) q) := by
  have hb := f.one_lt_base
  have hne : (f.base : ℚ) ≠ 0 := by exact_mod_cast (by omega : f.base ≠ 0)
  have hpos : (0 : ℚ) < (f.base : ℚ) ^ f.quantum q :=
    zpow_pos (by exact_mod_cast (by omega : 0 < f.base)) _
  have hdigits := abs_digits_le (f := f) q
  have htiny : f.tiny ≤ f.quantum q := le_max_right _ _
  revert hdigits
  unfold quantize
  generalize halfEven (q / (f.base : ℚ) ^ f.quantum q) = n
  generalize f.quantum q = k at *
  intro hdigits
  by_cases hzero : n = 0
  · subst hzero
    simpa using onGrid_zero
  by_cases hle : f.quantum (n * (f.base : ℚ) ^ k) ≤ k
  · exact OnGrid.mono hb hle ⟨n, rfl⟩
  · -- the rounding carried into one more digit: the value is a power of the base
    have habs : |(n : ℚ) * (f.base : ℚ) ^ k| = |(n : ℚ)| * (f.base : ℚ) ^ k := by
      rw [abs_mul, abs_of_pos hpos]
    have hlog : k + f.precision ≤ Int.log f.base |(n : ℚ) * (f.base : ℚ) ^ k| := by
      unfold quantum at hle
      omega
    have hnpos : 0 < |(n : ℚ)| := abs_pos.mpr (by exact_mod_cast hzero)
    have hbig : (f.base : ℚ) ^ f.precision ≤ |(n : ℚ)| := by
      rw [habs, ← Int.zpow_le_iff_le_log hb (mul_pos hnpos hpos), zpow_add₀ hne, mul_comm,
        zpow_natCast] at hlog
      exact le_of_mul_le_mul_right hlog hpos
    have hexact : |(n : ℚ)| = (f.base : ℚ) ^ f.precision :=
      le_antisymm (by exact_mod_cast hdigits) hbig
    have hpow : |(n : ℚ) * (f.base : ℚ) ^ k| = (f.base : ℚ) ^ ((f.precision : ℤ) + k) := by
      rw [habs, hexact, zpow_add₀ hne, zpow_natCast]
    have hgrid : f.quantum (n * (f.base : ℚ) ^ k) ≤ (f.precision : ℤ) + k := by
      unfold quantum at hle ⊢
      rw [hpow, Int.log_zpow hb] at hle ⊢
      have hp := f.precision_pos
      omega
    refine OnGrid.mono hb hgrid ?_
    rcases abs_choice (n : ℚ) with hn | hn
    · exact ⟨1, by rw [← hpow, habs, hn]; push_cast; ring⟩
    · exact ⟨-1, by rw [← hpow, habs, hn]; push_cast; ring⟩

/-- A rounded value is rounded to itself. -/
theorem round_round (h : f.round q = some r) : f.round r = some r := by
  obtain ⟨hle, hr⟩ := round_eq_some.mp h
  have hgrid : OnGrid f.base (f.quantum r) r := by
    rw [hr]
    exact onGrid_quantum_quantize q
  rw [round_eq_some]
  exact ⟨hle, (quantize_of_onGrid f.one_lt_base halfEven_intCast hgrid).symm⟩

end Format

end RagPipeline.Lib
