/-
  RagPipeline.Lib.Gregorian — the proleptic Gregorian calendar of the years 1 to 9999.

    * `daysBeforeYear_succ`  — a year is as long as its months;
    * `ordinal_injective`    — the ordinal of a date is its own;
    * `ofOrdinal_eq_some`    — and every ordinal up to the last is that of a date;
    * `addDays_eq_some`      — so days are added as numbers, within the years there are;
    * `lt_iff_lex`           — dates are ordered by year, month and day.
-/
import Mathlib.Order.Basic
import Mathlib.Order.Lattice
import Mathlib.Order.Monotone.Basic
import Mathlib.Tactic.Common

namespace RagPipeline.Lib

/-! ## §1. Years and months. -/

def isLeap (y : ℕ) : Bool := decide (y % 4 = 0 ∧ (y % 100 ≠ 0 ∨ y % 400 = 0))

def yearLength (y : ℕ) : ℕ := 365 + (isLeap y).toNat

def daysInMonth (leap : Bool) : ℕ → ℕ
  | 2 => 28 + leap.toNat
  | 4 | 6 | 9 | 11 => 30
  | _ => 31

/-- The days of a year before its month `m`. -/
def daysBeforeMonth (leap : Bool) (m : ℕ) : ℕ :=
  [0, 0, 31, 59, 90, 120, 151, 181, 212, 243, 273, 304, 334].getD m 0 + (decide (2 < m) && leap).toNat

/-- The days before the first one of year `y`. -/
def daysBeforeYear (y : ℕ) : ℕ := (y - 1) * 365 + (y - 1) / 4 - (y - 1) / 100 + (y - 1) / 400

theorem daysBeforeMonth_lt : ∀ leap : Bool, ∀ m < 13, ∀ m' < 13, 1 ≤ m → m < m' →
    daysBeforeMonth leap m + daysInMonth leap m ≤ daysBeforeMonth leap m' := by decide

theorem daysBeforeMonth_le : ∀ leap : Bool, ∀ m < 13, 1 ≤ m →
    daysBeforeMonth leap m + daysInMonth leap m ≤ 365 + leap.toNat := by decide

theorem daysInMonth_pos : ∀ leap : Bool, ∀ m < 13, 1 ≤ daysInMonth leap m := by decide

/-- A count of multiples grows with each of them. -/
theorem count_succ (p k : ℕ) : (p + 1) / k = p / k + (decide ((p + 1) % k = 0)).toNat := by
  rw [Nat.succ_div]
  by_cases h : k ∣ p + 1
  · rw [if_pos h, decide_eq_true (Nat.mod_eq_zero_of_dvd h)]
    rfl
  · rw [if_neg h, decide_eq_false fun hmod => h (Nat.dvd_of_mod_eq_zero hmod)]
    rfl

theorem daysBeforeYear_succ {y : ℕ} (h : 1 ≤ y) : daysBeforeYear (y + 1) = daysBeforeYear y + yearLength y := by
  obtain ⟨p, rfl⟩ : ∃ p, y = p + 1 := ⟨y - 1, by omega⟩
  have hless : p / 100 ≤ p / 4 := Nat.div_le_div_left (by decide) (by decide)
  have hhundred : (p + 1) % 100 = 0 → (p + 1) % 4 = 0 := by omega
  have hfour : (p + 1) % 400 = 0 → (p + 1) % 100 = 0 := by omega
  unfold daysBeforeYear yearLength isLeap
  rw [Nat.add_sub_cancel, Nat.add_sub_cancel, count_succ p 4, count_succ p 100, count_succ p 400]
  generalize p / 4 = n4 at hless ⊢
  generalize p / 100 = n100 at hless ⊢
  generalize (p + 1) % 4 = m4 at hhundred ⊢
  generalize (p + 1) % 100 = m100 at hhundred hfour ⊢
  generalize (p + 1) % 400 = m400 at hfour ⊢
  by_cases h4 : m4 = 0 <;> by_cases h100 : m100 = 0 <;> by_cases h400 : m400 = 0 <;> simp [h4, h100, h400] <;> omega

theorem daysBeforeYear_lt {y y' : ℕ} (h : 1 ≤ y) (hlt : y < y') :
    daysBeforeYear y + yearLength y ≤ daysBeforeYear y' := by
  induction y', hlt using Nat.le_induction with
  | base => exact (daysBeforeYear_succ h).ge
  | succ n hn ih =>
    rw [daysBeforeYear_succ (by omega)]
    omega

/-! ## §2. Dates. -/

/-- A date. -/
structure CivilDate where
  year : ℕ
  month : ℕ
  day : ℕ
  year_mem : 1 ≤ year ∧ year ≤ 9999
  month_mem : 1 ≤ month ∧ month ≤ 12
  day_mem : 1 ≤ day ∧ day ≤ daysInMonth (isLeap year) month
  deriving DecidableEq

namespace CivilDate

/-- `toordinal`: the days from the first one of year 1, which is the first. -/
def ordinal (d : CivilDate) : ℕ := daysBeforeYear d.year + daysBeforeMonth (isLeap d.year) d.month + d.day

theorem ordinal_bounds (d : CivilDate) :
    daysBeforeYear d.year < d.ordinal ∧ d.ordinal ≤ daysBeforeYear d.year + yearLength d.year := by
  have hmonth := daysBeforeMonth_le (isLeap d.year) d.month (Nat.lt_succ_of_le d.month_mem.2) d.month_mem.1
  have hday := d.day_mem
  unfold ordinal yearLength
  omega

theorem ordinal_lt_of_year {d d' : CivilDate} (h : d.year < d'.year) : d.ordinal < d'.ordinal := by
  have hyears := daysBeforeYear_lt d.year_mem.1 h
  have hd := d.ordinal_bounds
  have hd' := d'.ordinal_bounds
  omega

theorem ordinal_lt_of_month {d d' : CivilDate} (hyear : d.year = d'.year) (h : d.month < d'.month) :
    d.ordinal < d'.ordinal := by
  have hmonths := daysBeforeMonth_lt (isLeap d'.year) d.month (Nat.lt_succ_of_le d.month_mem.2) d'.month
    (Nat.lt_succ_of_le d'.month_mem.2) d.month_mem.1 h
  have hd := d.day_mem
  have hd' := d'.day_mem
  unfold ordinal
  rw [hyear] at hd ⊢
  omega

theorem ordinal_lt_of_day {d d' : CivilDate} (hyear : d.year = d'.year) (hmonth : d.month = d'.month)
    (h : d.day < d'.day) : d.ordinal < d'.ordinal := by
  unfold ordinal
  rw [hyear, hmonth]
  omega

/-- Before by year, or by month, or by day. -/
def Lex (d d' : CivilDate) : Prop :=
  d.year < d'.year ∨ d.year = d'.year ∧ (d.month < d'.month ∨ d.month = d'.month ∧ d.day < d'.day)

theorem Lex.ordinal_lt {d d' : CivilDate} (h : Lex d d') : d.ordinal < d'.ordinal := by
  rcases h with hyear | ⟨hyear, hmonth | ⟨hmonth, hday⟩⟩
  · exact ordinal_lt_of_year hyear
  · exact ordinal_lt_of_month hyear hmonth
  · exact ordinal_lt_of_day hyear hmonth hday

theorem lex_or_eq (d d' : CivilDate) : Lex d d' ∨ d = d' ∨ Lex d' d := by
  obtain ⟨y, m, n, hy, hm, hn⟩ := d
  obtain ⟨y', m', n', hy', hm', hn'⟩ := d'
  by_cases h : y = y' ∧ m = m' ∧ n = n'
  · obtain ⟨rfl, rfl, rfl⟩ := h
    exact Or.inr (Or.inl rfl)
  · unfold Lex
    simp only
    omega

theorem ordinal_injective : Function.Injective ordinal := by
  intro d d' h
  rcases lex_or_eq d d' with hlt | heq | hgt
  · exact absurd h hlt.ordinal_lt.ne
  · exact heq
  · exact absurd h hgt.ordinal_lt.ne'

/-- The order in time. -/
instance : LinearOrder CivilDate := LinearOrder.lift' ordinal ordinal_injective

theorem le_iff {d d' : CivilDate} : d ≤ d' ↔ d.ordinal ≤ d'.ordinal := Iff.rfl

theorem lt_iff {d d' : CivilDate} : d < d' ↔ d.ordinal < d'.ordinal := Iff.rfl

theorem lt_iff_lex {d d' : CivilDate} : d < d' ↔ Lex d d' := by
  constructor
  · intro h
    rcases lex_or_eq d d' with hlt | heq | hgt
    · exact hlt
    · exact absurd h (heq ▸ lt_irrefl d)
    · exact absurd hgt.ordinal_lt (lt_iff.mp h).asymm
  · exact Lex.ordinal_lt

/-! ## §3. From ordinals. -/

/-- The ordinal of the last day of year 9999. -/
def maxOrdinal : ℕ := 3652059

theorem ordinal_le (d : CivilDate) : 1 ≤ d.ordinal ∧ d.ordinal ≤ maxOrdinal := by
  have hbounds := d.ordinal_bounds
  refine ⟨by omega, ?_⟩
  have hend : daysBeforeYear d.year + yearLength d.year ≤ daysBeforeYear 10000 :=
    daysBeforeYear_lt d.year_mem.1 (Nat.lt_succ_of_le d.year_mem.2)
  have hlast : daysBeforeYear 10000 = maxOrdinal := by decide
  omega

/-- The last date is 31 December 9999. -/
theorem ordinal_last_iff (d : CivilDate) : d.ordinal = maxOrdinal ↔ d.year = 9999 ∧ d.month = 12 ∧ d.day = 31 := by
  have hlast : (⟨9999, 12, 31, by decide, by decide, by decide⟩ : CivilDate).ordinal = maxOrdinal := by decide
  rw [← hlast, ordinal_injective.eq_iff]
  constructor
  · rintro rfl
    exact ⟨rfl, rfl, rfl⟩
  · intro h
    obtain ⟨y, m, n, hy, hm, hn⟩ := d
    obtain ⟨rfl, rfl, rfl⟩ := h
    rfl

/-- The year that has the day number `n`, counted from zero, and which of its days that is, also from zero: by cycles
of 400, 100 and 4 years. The last day of a cycle is one more than its years have in common. -/
def yearAndDay (n : ℕ) : ℕ × ℕ :=
  let r := n % 146097
  let r' := r % 36524
  let r'' := r' % 1461
  let years := n / 146097 * 400 + r / 36524 * 100 + r' / 1461 * 4 + r'' / 365
  if r / 36524 = 4 ∨ r'' / 365 = 4 then (years, 365) else (years + 1, r'' % 365)

/-- The month of day `k` of a year, counted from zero, and the day in it, counted from one. -/
def monthAndDay (leap : Bool) (k : ℕ) : ℕ × ℕ :=
  let m := (k + 50) / 32
  let month := if k < daysBeforeMonth leap m then m - 1 else m
  (month, k - daysBeforeMonth leap month + 1)

section Cycles

variable {c b q e : ℕ} (hb : b ≤ 3) (hq : q ≤ 24) (he : e ≤ 3)

include hb hq he

/-- The days before a year that is told by its place in the cycles. -/
theorem daysBeforeYear_cycles : daysBeforeYear (c * 400 + b * 100 + q * 4 + e + 1) =
    146097 * c + 36524 * b + 1461 * q + 365 * e := by
  have h4 : (c * 400 + b * 100 + q * 4 + e) / 4 = c * 100 + b * 25 + q := by omega
  have h100 : (c * 400 + b * 100 + q * 4 + e) / 100 = c * 4 + b := by omega
  have h400 : (c * 400 + b * 100 + q * 4 + e) / 400 = c := by omega
  unfold daysBeforeYear
  rw [Nat.add_sub_cancel, h4, h100, h400]
  omega

end Cycles

/-- A year that ends four years is a leap year, unless it ends a century that does not end four. -/
theorem isLeap_cycles {c b q : ℕ} (hq : q ≤ 24) (hcentury : q = 24 → b = 3) :
    isLeap (c * 400 + b * 100 + q * 4 + 3 + 1) = true := by
  have h4 : (c * 400 + b * 100 + q * 4 + 3 + 1) % 4 = 0 := by omega
  refine decide_eq_true ⟨h4, ?_⟩
  by_cases h : q = 24
  · have hb3 := hcentury h
    exact Or.inr (by omega)
  · exact Or.inl (by omega)

theorem yearAndDay_spec {n : ℕ} (h : n < maxOrdinal) :
    (1 ≤ (yearAndDay n).1 ∧ (yearAndDay n).1 ≤ 9999) ∧ (yearAndDay n).2 < yearLength (yearAndDay n).1 ∧
      daysBeforeYear (yearAndDay n).1 + (yearAndDay n).2 = n := by
  have hn := Nat.div_add_mod n 146097
  have hr := Nat.div_add_mod (n % 146097) 36524
  have hr' := Nat.div_add_mod (n % 146097 % 36524) 1461
  have hr'' := Nat.div_add_mod (n % 146097 % 36524 % 1461) 365
  have hlt := Nat.mod_lt n (show 0 < 146097 by decide)
  have hlt' := Nat.mod_lt (n % 146097) (show 0 < 36524 by decide)
  have hlt'' := Nat.mod_lt (n % 146097 % 36524) (show 0 < 1461 by decide)
  have hlt3 := Nat.mod_lt (n % 146097 % 36524 % 1461) (show 0 < 365 by decide)
  unfold yearAndDay
  simp only
  unfold maxOrdinal at h
  generalize n / 146097 = c at *
  generalize n % 146097 = r at *
  generalize r / 36524 = b at *
  generalize r % 36524 = r' at *
  generalize r' / 1461 = q at *
  generalize r' % 1461 = r'' at *
  generalize r'' / 365 = e at *
  generalize r'' % 365 = k at *
  split
  · next hlast =>
    cases hlast with
    | inl hfour =>
      -- the last day of 400 years
      have hyear : c * 400 + b * 100 + q * 4 + e = c * 400 + 3 * 100 + 24 * 4 + 3 + 1 := by omega
      have hdays := daysBeforeYear_cycles (c := c) (b := 3) (q := 24) (e := 3) (by decide) (by decide) (by decide)
      have hleap := isLeap_cycles (c := c) (b := 3) (q := 24) (by decide) fun _ => rfl
      simp only [hyear]
      refine ⟨by omega, ?_, by omega⟩
      unfold yearLength
      rw [hleap]
      decide
    | inr hfour =>
      -- the last day of four
      have hyear : c * 400 + b * 100 + q * 4 + e = c * 400 + b * 100 + q * 4 + 3 + 1 := by omega
      have hdays := daysBeforeYear_cycles (c := c) (b := b) (q := q) (e := 3) (by omega) (by omega) (by decide)
      have hleap := isLeap_cycles (c := c) (b := b) (q := q) (by omega) (by omega)
      simp only [hyear]
      refine ⟨by omega, ?_, by omega⟩
      unfold yearLength
      rw [hleap]
      decide
  · next hinner =>
    obtain ⟨hb, he⟩ := not_or.mp hinner
    dsimp only
    have hdays := daysBeforeYear_cycles (c := c) (b := b) (q := q) (e := e) (by omega) (by omega) (by omega)
    refine ⟨by omega, ?_, by omega⟩
    show k < 365 + _
    omega

theorem monthAndDay_spec : ∀ leap : Bool, ∀ k < 366, k < 365 + leap.toNat →
    (1 ≤ (monthAndDay leap k).1 ∧ (monthAndDay leap k).1 ≤ 12) ∧
      (1 ≤ (monthAndDay leap k).2 ∧ (monthAndDay leap k).2 ≤ daysInMonth leap (monthAndDay leap k).1) ∧
      daysBeforeMonth leap (monthAndDay leap k).1 + (monthAndDay leap k).2 = k + 1 := by
  decide +kernel

/-- The date with day number `n`, counted from zero. -/
def ofDayNumber (n : ℕ) (h : n < maxOrdinal) : CivilDate :=
  have hyear := yearAndDay_spec h
  have hk : (yearAndDay n).2 < 366 := lt_of_lt_of_le hyear.2.1
    (Nat.add_le_add_left (Bool.toNat_le (isLeap (yearAndDay n).1)) 365)
  have hmonth := monthAndDay_spec (isLeap (yearAndDay n).1) (yearAndDay n).2 hk hyear.2.1
  ⟨(yearAndDay n).1, (monthAndDay (isLeap (yearAndDay n).1) (yearAndDay n).2).1,
    (monthAndDay (isLeap (yearAndDay n).1) (yearAndDay n).2).2, hyear.1, hmonth.1, hmonth.2.1⟩

theorem ordinal_ofDayNumber (n : ℕ) (h : n < maxOrdinal) : (ofDayNumber n h).ordinal = n + 1 := by
  have hyear := yearAndDay_spec h
  have hk : (yearAndDay n).2 < 366 := lt_of_lt_of_le hyear.2.1
    (Nat.add_le_add_left (Bool.toNat_le (isLeap (yearAndDay n).1)) 365)
  have hmonth := monthAndDay_spec (isLeap (yearAndDay n).1) (yearAndDay n).2 hk hyear.2.1
  show daysBeforeYear (yearAndDay n).1 +
      daysBeforeMonth (isLeap (yearAndDay n).1) (monthAndDay (isLeap (yearAndDay n).1) (yearAndDay n).2).1 +
        (monthAndDay (isLeap (yearAndDay n).1) (yearAndDay n).2).2 = n + 1
  rw [Nat.add_assoc, hmonth.2.2, ← Nat.add_assoc, hyear.2.2]

/-- `fromordinal`: none outside the years there are. -/
def ofOrdinal (n : ℤ) : Option CivilDate :=
  if h : 1 ≤ n ∧ n ≤ maxOrdinal then some (ofDayNumber (n.toNat - 1) (by omega)) else none

theorem ofOrdinal_eq_some {n : ℤ} {d : CivilDate} : ofOrdinal n = some d ↔ (d.ordinal : ℤ) = n := by
  have hle := d.ordinal_le
  unfold ofOrdinal
  constructor
  · intro h
    split at h
    · rename_i hn
      have hordinal := ordinal_ofDayNumber (n.toNat - 1) (by omega)
      rw [Option.some.inj h] at hordinal
      omega
    · cases h
  · intro h
    have hn : 1 ≤ n ∧ n ≤ maxOrdinal := by omega
    rw [dif_pos hn]
    refine congrArg some (ordinal_injective ?_)
    rw [ordinal_ofDayNumber]
    omega

theorem ofOrdinal_eq_none {n : ℤ} : ofOrdinal n = none ↔ n < 1 ∨ (maxOrdinal : ℤ) < n := by
  unfold ofOrdinal
  by_cases h : 1 ≤ n ∧ n ≤ maxOrdinal
  · rw [dif_pos h]
    constructor
    · intro hsome
      cases hsome
    · intro hout
      omega
  · rw [dif_neg h]
    exact ⟨fun _ => by omega, fun _ => rfl⟩

/-- `date + timedelta(days=k)`: it raises outside the years there are. -/
def addDays (d : CivilDate) (k : ℤ) : Option CivilDate := ofOrdinal (d.ordinal + k)

theorem addDays_eq_some {d d' : CivilDate} {k : ℤ} : d.addDays k = some d' ↔ (d'.ordinal : ℤ) = d.ordinal + k :=
  ofOrdinal_eq_some

/-! ## §4. From year, month and day. -/

/-- `date(y, m, n)`: it raises for what is no date. -/
def ofParts (y m n : ℕ) : Option CivilDate :=
  if h : (1 ≤ y ∧ y ≤ 9999) ∧ (1 ≤ m ∧ m ≤ 12) ∧ 1 ≤ n ∧ n ≤ daysInMonth (isLeap y) m then
    some ⟨y, m, n, h.1, h.2.1, h.2.2⟩
  else none

theorem ext_parts {d d' : CivilDate} (hyear : d.year = d'.year) (hmonth : d.month = d'.month) (hday : d.day = d'.day) :
    d = d' := by
  obtain ⟨y, m, n, hy, hm, hn⟩ := d
  obtain ⟨y', m', n', hy', hm', hn'⟩ := d'
  cases hyear
  cases hmonth
  cases hday
  rfl

theorem ofParts_eq_some {y m n : ℕ} {d : CivilDate} :
    ofParts y m n = some d ↔ d.year = y ∧ d.month = m ∧ d.day = n := by
  unfold ofParts
  constructor
  · intro h
    split at h
    · cases h
      exact ⟨rfl, rfl, rfl⟩
    · cases h
  · rintro ⟨rfl, rfl, rfl⟩
    rw [dif_pos ⟨d.year_mem, d.month_mem, d.day_mem⟩]

/-- The first of a month is a date if the year and the month are. -/
theorem ofParts_first {y m : ℕ} : ofParts y m 1 = none ↔ ¬((1 ≤ y ∧ y ≤ 9999) ∧ 1 ≤ m ∧ m ≤ 12) := by
  unfold ofParts
  constructor
  · intro h hmem
    have hone := daysInMonth_pos (isLeap y) m (Nat.lt_succ_of_le hmem.2.2)
    rw [dif_pos ⟨hmem.1, hmem.2, le_rfl, hone⟩] at h
    cases h
  · intro h
    rw [dif_neg fun hmem => h ⟨hmem.1, hmem.2.1⟩]

/-- `replace(day=1)`. -/
def firstOfMonth (d : CivilDate) : CivilDate :=
  ⟨d.year, d.month, 1, d.year_mem, d.month_mem, le_rfl,
    daysInMonth_pos (isLeap d.year) d.month (Nat.lt_succ_of_le d.month_mem.2)⟩

/-- `replace(month=1, day=1)`. -/
def firstOfYear (d : CivilDate) : CivilDate :=
  ⟨d.year, 1, 1, d.year_mem, by decide, le_rfl, daysInMonth_pos (isLeap d.year) 1 (by decide)⟩

theorem firstOfMonth_eq_iff {d d' : CivilDate} :
    d.firstOfMonth = d'.firstOfMonth ↔ d.year = d'.year ∧ d.month = d'.month := by
  constructor
  · intro h
    have hyear : d.firstOfMonth.year = d'.firstOfMonth.year := congrArg year h
    have hmonth : d.firstOfMonth.month = d'.firstOfMonth.month := congrArg month h
    exact ⟨hyear, hmonth⟩
  · rintro ⟨hyear, hmonth⟩
    exact ext_parts hyear hmonth rfl

theorem firstOfYear_eq_iff {d d' : CivilDate} : d.firstOfYear = d'.firstOfYear ↔ d.year = d'.year := by
  constructor
  · intro h
    have hyear : d.firstOfYear.year = d'.firstOfYear.year := congrArg year h
    exact hyear
  · intro hyear
    exact ext_parts hyear rfl rfl

theorem le_iff_lex {d d' : CivilDate} : d ≤ d' ↔ ¬Lex d' d := by
  rw [← lt_iff_lex, not_lt]

end CivilDate

end RagPipeline.Lib
