/-
  RagPipeline.Forecast.Targets — the buckets a forecast is for.

  A run that has learned from the days up to one predicts the days after it, and the weeks and months from the
  one on that the next day lies in.

    * `bucketBounds`   — the first and the last day of a bucket;
    * `targets`        — the buckets of a run, each with its label and the instant it begins at;
    * `targets_tile`   — each day after the one is in exactly one of them, up to the last day of the last.
-/
import RagPipeline.Lib.Gregorian
import RagPipeline.Lib.OptionLoops

namespace RagPipeline.Forecast

open RagPipeline.Lib CivilDate

/-! ## §1. Buckets. -/

inductive Grain
  | hour
  | day
  | week
  | month
  deriving DecidableEq, Repr

/-- `date.weekday()`: Monday is 0. -/
def weekday (d : CivilDate) : ℕ := (d.ordinal + 6) % 7

def weekStart (d : CivilDate) : Option CivilDate := d.addDays (-weekday d)

def monthStart (d : CivilDate) : CivilDate := d.firstOfMonth

/-- `replace(day=monthrange(…)[1])`. -/
def monthEnd (d : CivilDate) : CivilDate :=
  ⟨d.year, d.month, daysInMonth (isLeap d.year) d.month, d.year_mem, d.month_mem,
    daysInMonth_pos (isLeap d.year) d.month (Nat.lt_succ_of_le d.month_mem.2), le_rfl⟩

/-- The first of the month so many months after that of the day. -/
def addMonths (d : CivilDate) (n : ℕ) : Option CivilDate :=
  ofParts (d.year + (d.month - 1 + n) / 12) ((d.month - 1 + n) % 12 + 1) 1

/-- The first and the last day of the bucket; there is none of an hour. -/
def bucketBounds (d : CivilDate) : Grain → Option (CivilDate × CivilDate)
  | .day => some (d, d)
  | .week => do
    let start ← weekStart d
    let stop ← start.addDays 6
    return (start, stop)
  | .month => some (monthStart d, monthEnd d)
  | .hour => none

/-! ## §2. Targets. -/

/-- The tenant's clock: the instant of a wall-clock hour of a day, in microseconds, and the day and the hour of an
instant. -/
structure Clock where
  utc : CivilDate → ℕ → ℤ
  localDate : ℤ → CivilDate
  localHour : ℤ → ℕ

def Clock.localMidnight (c : Clock) (d : CivilDate) : ℤ := c.utc d 0

/-- A label is a number and a letter. -/
structure HorizonLabel where
  steps : ℤ
  suffix : Char
  deriving DecidableEq

/-- `horizon_label`; there is none for an hour. -/
def horizonLabel : Grain → ℤ → Option HorizonLabel
  | .day, steps => some ⟨steps, 'd'⟩
  | .week, steps => some ⟨steps, 'w'⟩
  | .month, steps => some ⟨steps, 'm'⟩
  | .hour, _ => none

structure Target where
  label : HorizonLabel
  start : CivilDate
  stop : CivilDate
  targetAt : ℤ
  deriving DecidableEq

/-- The bucket so many buckets after one that begins on this day. -/
def stepBucket (first : CivilDate) (grain : Grain) (k : ℕ) : Option CivilDate :=
  if grain = .week then first.addDays (7 * k) else addMonths first k

def Clock.targetOf (c : Clock) (grain : Grain) (steps : ℤ) (bounds : CivilDate × CivilDate) : Option Target := do
  let label ← horizonLabel grain steps
  return ⟨label, bounds.1, bounds.2, c.localMidnight bounds.1⟩

def Clock.targets (c : Clock) (asOf : CivilDate) (n : ℕ) : Grain → Option (List Target)
  | .day => (List.range n).mapM fun k : ℕ => do
    let day ← asOf.addDays (k + 1)
    c.targetOf .day (k + 1) (day, day)
  | grain => do
    let next ← asOf.addDays 1
    let first ← bucketBounds next grain
    (List.range n).mapM fun k => do
      let start ← stepBucket first.1 grain k
      let bounds ← bucketBounds start grain
      c.targetOf grain k bounds

/-! ## §3. One bucket after the other. -/

section Buckets

variable {d d' a b : CivilDate} {grain : Grain}

/-- The first bucket holds the day. -/
theorem bucketBounds_mem (h : bucketBounds d grain = some (a, b)) : a ≤ d ∧ d ≤ b := by
  cases grain with
  | hour => cases h
  | day =>
    cases h
    exact ⟨le_rfl, le_rfl⟩
  | week =>
    obtain ⟨start, hstart, h⟩ := Option.bind_eq_some_iff.mp h
    obtain ⟨stop, hstop, h⟩ := Option.bind_eq_some_iff.mp h
    cases h
    have hs := addDays_eq_some.mp hstart
    have he := addDays_eq_some.mp hstop
    have hlt : weekday d < 7 := Nat.mod_lt _ (by decide)
    rw [CivilDate.le_iff, CivilDate.le_iff]
    omega
  | month =>
    cases h
    have hday := d.day_mem
    rw [CivilDate.le_iff, CivilDate.le_iff]
    unfold monthStart monthEnd firstOfMonth CivilDate.ordinal
    dsimp only
    omega

/-- The first day of a week is a Monday, and the bucket of a Monday begins with it. -/
theorem weekStart_monday (h : weekStart d = some a) : weekday a = 0 := by
  have hs := addDays_eq_some.mp h
  have hlt : weekday d < 7 := Nat.mod_lt _ (by decide)
  unfold weekday at *
  omega

theorem weekStart_of_monday (h : weekday d = 0) : weekStart d = some d := by
  unfold weekStart
  rw [h]
  exact addDays_eq_some.mpr (by simp)

/-- The days of the months of a year. -/
theorem daysBeforeMonth_succ : ∀ leap : Bool, ∀ m < 12, 1 ≤ m →
    daysBeforeMonth leap (m + 1) = daysBeforeMonth leap m + daysInMonth leap m := by
  decide

theorem daysBeforeMonth_last : ∀ leap : Bool, daysBeforeMonth leap 12 + daysInMonth leap 12 = 365 + leap.toNat := by
  decide

/-- **The next month begins after the last day of this one.** -/
theorem addMonths_one (h : addMonths d 1 = some d') : d'.ordinal = (monthEnd d).ordinal + 1 := by
  obtain ⟨hyear, hmonth, hday⟩ := ofParts_eq_some.mp h
  have hm := d.month_mem
  unfold CivilDate.ordinal monthEnd
  rw [hyear, hmonth, hday]
  dsimp only
  by_cases hlast : d.month = 12
  · have hnext : (d.month - 1 + 1) / 12 = 1 ∧ (d.month - 1 + 1) % 12 + 1 = 1 := by omega
    have hfirst : daysBeforeMonth (isLeap (d.year + 1)) 1 = 0 := by
      cases isLeap (d.year + 1) <;> decide
    have htotal := daysBeforeMonth_last (isLeap d.year)
    rw [hnext.1, hnext.2, daysBeforeYear_succ d.year_mem.1, hlast, hfirst]
    unfold yearLength
    omega
  · have hnext : (d.month - 1 + 1) / 12 = 0 ∧ (d.month - 1 + 1) % 12 + 1 = d.month + 1 := by omega
    have hsucc := daysBeforeMonth_succ (isLeap d.year) d.month (by omega) hm.1
    rw [hnext.1, hnext.2]
    simp only [Nat.add_zero]
    rw [hsucc]
    omega

/-- Months are added one by one. -/
theorem addMonths_succ {k : ℕ} (h : addMonths d k = some a) : addMonths d (k + 1) = addMonths a 1 := by
  obtain ⟨hyear, hmonth, -⟩ := ofParts_eq_some.mp h
  have hm := d.month_mem
  unfold addMonths
  rw [hyear, hmonth]
  congr 1 <;> omega

/-- What is added to is the first of a month. -/
theorem addMonths_first {k : ℕ} (h : addMonths d k = some a) : monthStart a = a := by
  obtain ⟨-, -, hday⟩ := ofParts_eq_some.mp h
  exact CivilDate.ext_parts rfl rfl hday.symm

/-- The first day of a bucket has the same bucket. -/
theorem bucketBounds_self (h : bucketBounds d grain = some (a, b)) : bucketBounds a grain = some (a, b) := by
  cases grain with
  | hour => cases h
  | day =>
    cases h
    rfl
  | week =>
    obtain ⟨start, hstart, h⟩ := Option.bind_eq_some_iff.mp h
    obtain ⟨stop, hstop, h⟩ := Option.bind_eq_some_iff.mp h
    cases h
    show (weekStart a).bind _ = _
    rw [weekStart_of_monday (weekStart_monday hstart), Option.bind_some, hstop]
    rfl
  | month =>
    cases h
    rfl

/-- A day within a bucket has this bucket. -/
theorem bucketBounds_of_mem {s : CivilDate} (h : bucketBounds s grain = some (s, b)) (hle : s ≤ d) (hd : d ≤ b) :
    bucketBounds d grain = some (s, b) := by
  rw [CivilDate.le_iff] at hle hd
  cases grain with
  | hour => cases h
  | day =>
    have hone : s = b := (Prod.mk.inj (Option.some.inj h)).2
    have heq : d = s := ordinal_injective (by rw [← hone] at hd; omega)
    rw [heq]
    exact h
  | week =>
    obtain ⟨start, hstart, h⟩ := Option.bind_eq_some_iff.mp h
    obtain ⟨stop, hstop, h⟩ := Option.bind_eq_some_iff.mp h
    cases h
    have hmonday := weekStart_monday hstart
    have hend := addDays_eq_some.mp hstop
    have hd' : weekStart d = some s := by
      refine addDays_eq_some.mpr ?_
      unfold weekday at hmonday ⊢
      omega
    show (weekStart d).bind _ = _
    rw [hd', Option.bind_some, hstop]
    rfl
  | month =>
    have hbounds : (monthStart s, monthEnd s) = (s, b) := Option.some.inj h
    obtain ⟨hs, rfl⟩ := Prod.mk.inj hbounds
    have hsame : d.year = s.year ∧ d.month = s.month := by
      have hfrom : ¬CivilDate.Lex d s := fun hlex => absurd hlex.ordinal_lt (by omega)
      have hto : ¬CivilDate.Lex (monthEnd s) d := fun hlex => absurd hlex.ordinal_lt (by omega)
      have hone : s.day = 1 := by rw [← hs]; rfl
      have hpos := d.day_mem.1
      unfold CivilDate.Lex at hfrom hto
      unfold monthEnd at hto
      dsimp only at hto
      omega
    have hfirst : monthStart d = s := by
      rw [← hs]
      exact firstOfMonth_eq_iff.mpr hsame
    have hlast : monthEnd d = monthEnd s :=
      ext_parts hsame.1 hsame.2 (by unfold monthEnd; dsimp only; rw [hsame.1, hsame.2])
    show some (monthStart d, monthEnd d) = _
    rw [hfirst, hlast]

variable {first : CivilDate × CivilDate} {k : ℕ} {s s' : CivilDate}

/-- What `stepBucket` reaches is the beginning of a bucket. -/
theorem stepBucket_start (hgrain : grain = .week ∨ grain = .month) (hfirst : bucketBounds d grain = some first)
    (hs : stepBucket first.1 grain k = some s) (h : bucketBounds s grain = some (a, b)) : a = s := by
  cases hgrain with
  | inl hweek =>
    subst hweek
    obtain ⟨start, hstart, hfirst⟩ := Option.bind_eq_some_iff.mp hfirst
    obtain ⟨stop, -, hfirst⟩ := Option.bind_eq_some_iff.mp hfirst
    cases hfirst
    have hmonday := weekStart_monday hstart
    have hord := addDays_eq_some.mp hs
    have hs' : weekStart s = some s := by
      refine weekStart_of_monday ?_
      unfold weekday at *
      dsimp only at hord
      omega
    obtain ⟨start', hstart', h⟩ := Option.bind_eq_some_iff.mp h
    obtain ⟨stop', -, h⟩ := Option.bind_eq_some_iff.mp h
    cases h
    exact Option.some.inj (hstart'.symm.trans hs')
  | inr hmonth =>
    subst hmonth
    cases h
    exact addMonths_first hs

/-- The bucket after a bucket begins on the day after its last. -/
theorem stepBucket_next (hgrain : grain = .week ∨ grain = .month) (hs : stepBucket first.1 grain k = some s)
    (h : bucketBounds s grain = some (s, b)) (hs' : stepBucket first.1 grain (k + 1) = some s') :
    s'.ordinal = b.ordinal + 1 := by
  cases hgrain with
  | inl hweek =>
    subst hweek
    obtain ⟨start, -, h⟩ := Option.bind_eq_some_iff.mp h
    obtain ⟨stop, hstop, h⟩ := Option.bind_eq_some_iff.mp h
    cases h
    have hord := addDays_eq_some.mp hs
    have hord' := addDays_eq_some.mp hs'
    have hend := addDays_eq_some.mp hstop
    push_cast at hord'
    omega
  | inr hmonth =>
    subst hmonth
    have hb : monthEnd s = b := (Prod.mk.inj (Option.some.inj h)).2
    have hone : addMonths s 1 = some s' := (addMonths_succ hs).symm.trans hs'
    rw [← hb]
    exact addMonths_one hone

end Buckets

/-! ## §4. The targets of a run. -/

section Targets

variable {c : Clock} {asOf d : CivilDate} {n : ℕ} {grain : Grain} {ts : List Target}

theorem targetOf_eq_some {steps : ℤ} {bounds : CivilDate × CivilDate} {t : Target} :
    c.targetOf grain steps bounds = some t ↔ horizonLabel grain steps = some t.label ∧ t.start = bounds.1 ∧
      t.stop = bounds.2 ∧ t.targetAt = c.localMidnight bounds.1 := by
  unfold Clock.targetOf
  obtain ⟨label, start, stop, at'⟩ := t
  constructor
  · intro h
    obtain ⟨l, hl, h⟩ := Option.bind_eq_some_iff.mp h
    cases h
    exact ⟨hl, rfl, rfl, rfl⟩
  · intro h
    dsimp only at h
    rw [h.1, h.2.1, h.2.2.1, h.2.2.2]
    rfl

/-- What a run has: the targets are buckets, labelled one after the other, and laid end to end from a day on that
is not after the first. -/
structure Laid (c : Clock) (asOf : CivilDate) (grain : Grain) (ts : List Target) : Prop where
  bucket : ∀ t ∈ ts, bucketBounds t.start grain = some (t.start, t.stop)
  instant : ∀ t ∈ ts, t.targetAt = c.localMidnight t.start
  label : ∀ k (hk : k < ts.length), horizonLabel grain (k + if grain = .day then 1 else 0) = some ts[k].label
  next : ∀ k (hk : k + 1 < ts.length), ts[k + 1].start.ordinal = ts[k].stop.ordinal + 1
  first : ∀ t ∈ ts.head?, t.start.ordinal ≤ asOf.ordinal + 1 ∧ asOf.ordinal < t.stop.ordinal

theorem getElem_of_mapM {f : ℕ → Option Target} (h : (List.range n).mapM f = some ts) (k : ℕ) (hk : k < ts.length) :
    f k = some ts[k] := by
  have hmap := map_of_mapM h
  have hlen : n = ts.length := by simpa using congrArg List.length hmap
  have hget := congrArg (·[k]?) hmap
  simpa [List.getElem?_range (hlen ▸ hk), List.getElem?_eq_getElem hk] using hget

theorem laid_days (h : c.targets asOf n .day = some ts) : Laid c asOf .day ts := by
  have hnth : ∀ k (hk : k < ts.length), horizonLabel .day (k + 1) = some ts[k].label ∧
      ts[k].start.ordinal = asOf.ordinal + k + 1 ∧ ts[k].stop = ts[k].start ∧
      ts[k].targetAt = c.localMidnight ts[k].start := by
    intro k hk
    have hall : ((List.range n).mapM fun k : ℕ => (asOf.addDays ((k : ℤ) + 1)).bind fun day =>
        c.targetOf .day ((k : ℤ) + 1) (day, day)) = some ts := h
    obtain ⟨day, hday, htarget⟩ := Option.bind_eq_some_iff.mp (getElem_of_mapM hall k hk)
    obtain ⟨hlabel, hstart, hstop, hat⟩ := targetOf_eq_some.mp htarget
    have hord := addDays_eq_some.mp hday
    rw [hstart, hstop, hat]
    dsimp only
    exact ⟨hlabel, by omega, rfl, rfl⟩
  refine ⟨?_, ?_, ?_, ?_, ?_⟩
  · intro t ht
    obtain ⟨k, hk, rfl⟩ := List.mem_iff_getElem.mp ht
    rw [(hnth k hk).2.2.1]
    rfl
  · intro t ht
    obtain ⟨k, hk, rfl⟩ := List.mem_iff_getElem.mp ht
    exact (hnth k hk).2.2.2
  · intro k hk
    exact (hnth k hk).1
  · intro k hk
    rw [(hnth (k + 1) hk).2.1, (hnth k (by omega)).2.2.1, (hnth k (by omega)).2.1]
    omega
  · intro t ht
    cases ts with
    | nil => cases ht
    | cons t' ts' =>
      cases Option.mem_some_iff.mp ht
      have hzero := hnth 0 (Nat.succ_pos _)
      rw [List.getElem_cons_zero] at hzero
      rw [hzero.2.2.1]
      omega

theorem laid_buckets (hgrain : grain = .week ∨ grain = .month) (h : c.targets asOf n grain = some ts) :
    Laid c asOf grain ts := by
  have hday : grain ≠ .day := by
    rintro rfl
    cases hgrain with
    | inl h => cases h
    | inr h => cases h
  have hplain : ∃ next first, asOf.addDays 1 = some next ∧ bucketBounds next grain = some first ∧
      ((List.range n).mapM fun k => do
        let start ← stepBucket first.1 grain k
        let bounds ← bucketBounds start grain
        c.targetOf grain k bounds) = some ts := by
    cases hgrain with
    | inl hg =>
      subst hg
      obtain ⟨next, hnext, h⟩ := Option.bind_eq_some_iff.mp h
      obtain ⟨first, hfirst, h⟩ := Option.bind_eq_some_iff.mp h
      exact ⟨next, first, hnext, hfirst, h⟩
    | inr hg =>
      subst hg
      obtain ⟨next, hnext, h⟩ := Option.bind_eq_some_iff.mp h
      obtain ⟨first, hfirst, h⟩ := Option.bind_eq_some_iff.mp h
      exact ⟨next, first, hnext, hfirst, h⟩
  obtain ⟨next, first, hnext, hfirst, hall⟩ := hplain
  have hnth : ∀ k (hk : k < ts.length), horizonLabel grain k = some ts[k].label ∧
      stepBucket first.1 grain k = some ts[k].start ∧
      bucketBounds ts[k].start grain = some (ts[k].start, ts[k].stop) ∧
      ts[k].targetAt = c.localMidnight ts[k].start := by
    intro k hk
    obtain ⟨start, hstart, htarget⟩ := Option.bind_eq_some_iff.mp (getElem_of_mapM hall k hk)
    obtain ⟨bounds, hbounds, htarget⟩ := Option.bind_eq_some_iff.mp htarget
    obtain ⟨hlabel, hs, he, hat⟩ := targetOf_eq_some.mp htarget
    have hsame : bounds.1 = start := stepBucket_start hgrain hfirst hstart hbounds
    rw [hs, he, hat, hsame]
    refine ⟨hlabel, hstart, ?_, rfl⟩
    rw [hbounds, ← hsame]
  refine ⟨?_, ?_, ?_, ?_, ?_⟩
  · intro t ht
    obtain ⟨k, hk, rfl⟩ := List.mem_iff_getElem.mp ht
    exact (hnth k hk).2.2.1
  · intro t ht
    obtain ⟨k, hk, rfl⟩ := List.mem_iff_getElem.mp ht
    exact (hnth k hk).2.2.2
  · intro k hk
    rw [if_neg hday, Int.add_zero]
    exact (hnth k hk).1
  · intro k hk
    exact stepBucket_next hgrain (hnth k (by omega)).2.1 (hnth k (by omega)).2.2.1 (hnth (k + 1) hk).2.1
  · intro t ht
    cases ts with
    | nil => cases ht
    | cons t' ts' =>
      cases Option.mem_some_iff.mp ht
      have hzero := hnth 0 (Nat.succ_pos _)
      rw [List.getElem_cons_zero] at hzero
      have hord := addDays_eq_some.mp hnext
      have hmem := bucketBounds_mem hfirst
      rw [CivilDate.le_iff, CivilDate.le_iff] at hmem
      have hstart : first.1 = t.start := by
        cases hgrain with
        | inl hg =>
          subst hg
          have hz := addDays_eq_some.mp hzero.2.1
          exact ordinal_injective (by omega)
        | inr hg =>
          subst hg
          obtain ⟨hy, hm, hd⟩ := ofParts_eq_some.mp hzero.2.1
          have hf : monthStart next = first.1 := (Prod.mk.inj (Option.some.inj hfirst)).1
          have hm' := first.1.month_mem
          refine (ext_parts ?_ ?_ ?_).symm
          · omega
          · omega
          · rw [hd, ← hf]
            rfl
      have hself : bucketBounds t.start grain = some first := hstart ▸ bucketBounds_self hfirst
      have hstop : first.2 = t.stop := (Prod.mk.inj (Option.some.inj (hself.symm.trans hzero.2.2.1))).2
      rw [← hstart, ← hstop]
      omega

theorem laid (h : c.targets asOf n grain = some ts) : Laid c asOf grain ts := by
  cases grain with
  | hour =>
    obtain ⟨next, -, h⟩ := Option.bind_eq_some_iff.mp h
    cases h
  | day => exact laid_days h
  | week => exact laid_buckets (.inl rfl) h
  | month => exact laid_buckets (.inr rfl) h

namespace Laid

variable {i j : ℕ}

theorem start_le_stop (hl : Laid c asOf grain ts) {t : Target} (ht : t ∈ ts) : t.start.ordinal ≤ t.stop.ordinal := by
  have hmem := bucketBounds_mem (hl.bucket t ht)
  rw [CivilDate.le_iff, CivilDate.le_iff] at hmem
  exact hmem.2

theorem stop_lt_start (hl : Laid c asOf grain ts) (hj : j < ts.length) (hij : i < j) :
    ts[i].stop.ordinal < ts[j].start.ordinal := by
  induction j with
  | zero => exact absurd hij (Nat.not_lt_zero i)
  | succ j ih =>
    have hnext := hl.next j hj
    cases Nat.lt_succ_iff_lt_or_eq.mp hij with
    | inl hlt =>
      have hbefore := ih (by omega) hlt
      have hle := hl.start_le_stop (List.getElem_mem (by omega : j < ts.length))
      omega
    | inr heq =>
      subst heq
      omega

/-- Up to the end of a target, no day is left out. -/
theorem covers (hl : Laid c asOf grain ts) (hd : asOf.ordinal < d.ordinal) (hj : j < ts.length)
    (hstop : d.ordinal ≤ ts[j].stop.ordinal) : ∃ t ∈ ts, t.start.ordinal ≤ d.ordinal ∧ d.ordinal ≤ t.stop.ordinal := by
  induction j with
  | zero =>
    have hhead : ts[0] ∈ ts.head? := by rw [List.head?_eq_getElem?, List.getElem?_eq_getElem hj]; rfl
    have hfirst := hl.first ts[0] hhead
    exact ⟨ts[0], List.getElem_mem hj, by omega, hstop⟩
  | succ j ih =>
    by_cases hbefore : d.ordinal ≤ ts[j].stop.ordinal
    · exact ih (by omega) hbefore
    · have hnext := hl.next j hj
      exact ⟨ts[j + 1], List.getElem_mem hj, by omega, hstop⟩

end Laid

/-- **Every target is a bucket of its grain that begins at local midnight, and each day after the last one learned
from is in exactly one of them, the bucket of the day, as far as the targets reach.** -/
theorem targets_tile (h : c.targets asOf n grain = some ts) :
    (∀ t ∈ ts, bucketBounds t.start grain = some (t.start, t.stop) ∧ t.targetAt = c.localMidnight t.start) ∧
      ∀ d, asOf < d → (∃ t ∈ ts, d ≤ t.stop) → ∃! t, t ∈ ts ∧ bucketBounds d grain = some (t.start, t.stop) := by
  have hl := laid h
  refine ⟨fun t ht => ⟨hl.bucket t ht, hl.instant t ht⟩, fun d hd hreach => ?_⟩
  obtain ⟨t, ht, hstop⟩ := hreach
  obtain ⟨j, hj, rfl⟩ := List.mem_iff_getElem.mp ht
  rw [CivilDate.lt_iff] at hd
  rw [CivilDate.le_iff] at hstop
  obtain ⟨t, ht, hin⟩ := hl.covers hd hj hstop
  have hbucket := bucketBounds_of_mem (hl.bucket t ht) hin.1 hin.2
  refine ⟨t, ⟨ht, hbucket⟩, ?_⟩
  intro t' ht'
  have hsame := Prod.mk.inj (Option.some.inj (ht'.2.symm.trans hbucket))
  obtain ⟨i, hi, rfl⟩ := List.mem_iff_getElem.mp ht
  obtain ⟨i', hi', rfl⟩ := List.mem_iff_getElem.mp ht'.1
  -- Of two targets the later one begins after the other has ended, so that one bucket is one target.
  have hle := hl.start_le_stop ht
  have hle' := hl.start_le_stop ht'.1
  rw [hsame.1, hsame.2] at hle'
  rcases Nat.lt_trichotomy i i' with hlt | heq | hlt
  · have hafter := hl.stop_lt_start hi' hlt
    rw [hsame.1] at hafter
    omega
  · subst heq
    rfl
  · have hafter := hl.stop_lt_start hi hlt
    rw [hsame.2] at hafter
    omega

end Targets

theorem newYear_date : (ofParts 2027 1 1).isSome = true := by decide

def newYear : CivilDate := (ofParts 2027 1 1).get newYear_date

/-- A zone without an offset. -/
def plainClock : Clock where
  utc d h := (d.ordinal * 24 + h) * 3600000000
  localDate t := (ofOrdinal (t / 86400000000)).getD newYear
  localHour t := (t / 3600000000 % 24).toNat

/-- New Year's Day is in the week in progress when the year ends. -/
theorem targets_tile_newYear : ∃ ts asOf, plainClock.targets asOf 2 .week = some ts ∧
    ∃! t, t ∈ ts ∧ bucketBounds newYear .week = some (t.start, t.stop) := by
  have hall : (newYear.addDays (-3)).any (fun asOf => decide (asOf < newYear) &&
      (plainClock.targets asOf 2 .week).any fun ts => ts.any fun t => decide (newYear ≤ t.stop)) = true := by
    decide +kernel
  obtain ⟨asOf, -, hall⟩ := ((Option.any_eq_true _ _).mp hall)
  obtain ⟨hbefore, hall⟩ := Bool.and_eq_true_iff.mp hall
  obtain ⟨ts, hts, hall⟩ := ((Option.any_eq_true _ _).mp hall)
  obtain ⟨t, ht, hreach⟩ := List.any_eq_true.mp hall
  exact ⟨ts, asOf, hts, (targets_tile hts).2 newYear (of_decide_eq_true hbefore) ⟨t, ht, of_decide_eq_true hreach⟩⟩

end RagPipeline.Forecast
