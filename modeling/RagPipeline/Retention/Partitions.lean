/-
  RagPipeline.Retention.Partitions — the calendar of the partitions, at the grain of each table.

  A partition is named by its first day and ends where the next one begins; what is past retention is told by its last
  day.  Dates end with the year 9999: the last period has no next one.

    * `nextPeriodStart_spec` — a period is what lies between its start and the next one's;
    * `mem_periodsFrom`      — the periods of a range are those it touches;
    * `mem_expiredDays`      — what is expired is before the cutoff with all its days;
    * `partition_calendar`   — both, with when the functions raise.
-/
import RagPipeline.Lib.Gregorian
import Mathlib.Data.List.Chain
import Mathlib.Data.List.Sort
import RagPipeline.Retention.Worker

namespace RagPipeline.Retention.Partitions

open RagPipeline.Lib

/-! ## §1. Period arithmetic. -/

inductive Grain where
  | daily | monthly | yearly
  deriving DecidableEq, Repr

/-- `period_start`. -/
def periodStart (grain : Grain) (day : CivilDate) : CivilDate :=
  match grain with
  | .daily => day
  | .monthly => day.firstOfMonth
  | .yearly => day.firstOfYear

/-- `next_period_start`: it raises where there is no such date. -/
def nextPeriodStart (grain : Grain) (day : CivilDate) : Option CivilDate :=
  let start := periodStart grain day
  match grain with
  | .daily => start.addDays 1
  | .monthly => CivilDate.ofParts (start.year + start.month / 12) (start.month % 12 + 1) 1
  | .yearly => CivilDate.ofParts (start.year + 1) 1 1

/-- `period_end`: the last day, inclusive. -/
def periodEnd (grain : Grain) (day : CivilDate) : Option CivilDate := do
  let next ← nextPeriodStart grain day
  next.addDays (-1)

/-- A day of the last period that there is. -/
def InLastPeriod (grain : Grain) (d : CivilDate) : Prop :=
  match grain with
  | .daily => d.year = 9999 ∧ d.month = 12 ∧ d.day = 31
  | .monthly => d.year = 9999 ∧ d.month = 12
  | .yearly => d.year = 9999

section Periods

variable {grain : Grain} {d n : CivilDate}

theorem periodStart_idem (grain : Grain) (d : CivilDate) :
    periodStart grain (periodStart grain d) = periodStart grain d := by
  cases grain <;> rfl

/-- The next period depends on the period only. -/
theorem nextPeriodStart_congr {d' : CivilDate} (h : periodStart grain d = periodStart grain d') :
    nextPeriodStart grain d = nextPeriodStart grain d' := by
  unfold nextPeriodStart
  rw [h]

/-- **A period** is what lies between its start and the next one's. -/
theorem nextPeriodStart_spec (h : nextPeriodStart grain d = some n) :
    periodStart grain n = n ∧ ∀ d', periodStart grain d' = periodStart grain d ↔ periodStart grain d ≤ d' ∧ d' < n := by
  cases grain with
  | daily =>
    have hnext : (n.ordinal : ℤ) = d.ordinal + 1 := CivilDate.addDays_eq_some.mp h
    refine ⟨rfl, fun d' => ?_⟩
    show d' = d ↔ d ≤ d' ∧ d' < n
    rw [CivilDate.le_iff, CivilDate.lt_iff, ← CivilDate.ordinal_injective.eq_iff]
    omega
  | monthly =>
    have hnext : n.year = d.year + d.month / 12 ∧ n.month = d.month % 12 + 1 ∧ n.day = 1 :=
      CivilDate.ofParts_eq_some.mp h
    refine ⟨CivilDate.ext_parts rfl rfl hnext.2.2.symm, fun d' => ?_⟩
    show d'.firstOfMonth = d.firstOfMonth ↔ d.firstOfMonth ≤ d' ∧ d' < n
    rw [CivilDate.firstOfMonth_eq_iff, CivilDate.le_iff_lex, CivilDate.lt_iff_lex]
    have hday := d'.day_mem.1
    have hmonth := d.month_mem
    have hmonth' := d'.month_mem
    show _ ↔ ¬(d'.year < d.year ∨ d'.year = d.year ∧ (d'.month < d.month ∨ d'.month = d.month ∧ d'.day < 1)) ∧
      (d'.year < n.year ∨ d'.year = n.year ∧ (d'.month < n.month ∨ d'.month = n.month ∧ d'.day < n.day))
    omega
  | yearly =>
    have hnext : n.year = d.year + 1 ∧ n.month = 1 ∧ n.day = 1 := CivilDate.ofParts_eq_some.mp h
    refine ⟨CivilDate.ext_parts rfl hnext.2.1.symm hnext.2.2.symm, fun d' => ?_⟩
    show d'.firstOfYear = d.firstOfYear ↔ d.firstOfYear ≤ d' ∧ d' < n
    rw [CivilDate.firstOfYear_eq_iff, CivilDate.le_iff_lex, CivilDate.lt_iff_lex]
    have hday := d'.day_mem.1
    have hmonth' := d'.month_mem
    show _ ↔ ¬(d'.year < d.year ∨ d'.year = d.year ∧ (d'.month < 1 ∨ d'.month = 1 ∧ d'.day < 1)) ∧
      (d'.year < n.year ∨ d'.year = n.year ∧ (d'.month < n.month ∨ d'.month = n.month ∧ d'.day < n.day))
    omega

/-- The calendar ends with the last period. -/
theorem nextPeriodStart_eq_none : nextPeriodStart grain d = none ↔ InLastPeriod grain d := by
  have hyear := d.year_mem
  have hmonth := d.month_mem
  cases grain with
  | daily =>
    show CivilDate.ofOrdinal (d.ordinal + 1) = none ↔ d.year = 9999 ∧ d.month = 12 ∧ d.day = 31
    rw [CivilDate.ofOrdinal_eq_none, ← CivilDate.ordinal_last_iff]
    have hle := d.ordinal_le
    omega
  | monthly =>
    show CivilDate.ofParts (d.year + d.month / 12) (d.month % 12 + 1) 1 = none ↔ d.year = 9999 ∧ d.month = 12
    rw [CivilDate.ofParts_first]
    omega
  | yearly =>
    show CivilDate.ofParts (d.year + 1) 1 1 = none ↔ d.year = 9999
    rw [CivilDate.ofParts_first]
    omega

theorem periodStart_le (grain : Grain) (d : CivilDate) : periodStart grain d ≤ d := by
  have hday := d.day_mem.1
  have hmonth := d.month_mem
  cases grain with
  | daily => exact le_rfl
  | monthly =>
    show d.firstOfMonth ≤ d
    rw [CivilDate.le_iff_lex]
    show ¬(d.year < d.year ∨ d.year = d.year ∧ (d.month < d.month ∨ d.month = d.month ∧ d.day < 1))
    omega
  | yearly =>
    show d.firstOfYear ≤ d
    rw [CivilDate.le_iff_lex]
    show ¬(d.year < d.year ∨ d.year = d.year ∧ (d.month < 1 ∨ d.month = 1 ∧ d.day < 1))
    omega

/-- What follows a day of the last period is in it too. -/
theorem InLastPeriod.mono {d' : CivilDate} (hle : d ≤ d') (h : InLastPeriod grain d) : InLastPeriod grain d' := by
  have hyear := d'.year_mem
  have hmonth := d'.month_mem
  cases grain with
  | daily =>
    have hlast : d.ordinal = CivilDate.maxOrdinal := d.ordinal_last_iff.mpr h
    have hbound := d'.ordinal_le
    refine d'.ordinal_last_iff.mp ?_
    rw [CivilDate.le_iff] at hle
    omega
  | monthly =>
    have hlast : d.year = 9999 ∧ d.month = 12 := h
    rw [CivilDate.le_iff_lex] at hle
    unfold CivilDate.Lex at hle
    show d'.year = 9999 ∧ d'.month = 12
    omega
  | yearly =>
    have hlast : d.year = 9999 := h
    rw [CivilDate.le_iff_lex] at hle
    unfold CivilDate.Lex at hle
    show d'.year = 9999
    omega

theorem periodStart_mono {d' : CivilDate} (hle : d ≤ d') : periodStart grain d ≤ periodStart grain d' := by
  cases grain with
  | daily => exact hle
  | monthly =>
    rw [CivilDate.le_iff_lex] at hle
    unfold CivilDate.Lex at hle
    show d.firstOfMonth ≤ d'.firstOfMonth
    rw [CivilDate.le_iff_lex]
    show ¬(d'.year < d.year ∨ d'.year = d.year ∧ (d'.month < d.month ∨ d'.month = d.month ∧ 1 < 1))
    omega
  | yearly =>
    rw [CivilDate.le_iff_lex] at hle
    unfold CivilDate.Lex at hle
    show d.firstOfYear ≤ d'.firstOfYear
    rw [CivilDate.le_iff_lex]
    show ¬(d'.year < d.year ∨ d'.year = d.year ∧ (1 < 1 ∨ 1 = 1 ∧ 1 < 1))
    omega

theorem lt_nextPeriodStart (h : nextPeriodStart grain d = some n) : d < n :=
  (((nextPeriodStart_spec h).2 d).mp rfl).2

end Periods

/-! ## §2. The periods of a range. -/

/-- The loop of `periods_covering`: `cur` to `stop`, a step of which may raise. -/
def periodsFrom (grain : Grain) (stop cur : CivilDate) : Option (List CivilDate) :=
  if cur ≤ stop then
    match _h : nextPeriodStart grain cur with
    | none => none
    | some next => (periodsFrom grain stop next).map (cur :: ·)
  else some []
termination_by stop.ordinal + 1 - cur.ordinal
decreasing_by
  have hlt : cur.ordinal < next.ordinal := lt_nextPeriodStart (by assumption)
  have hle : cur.ordinal ≤ stop.ordinal := by assumption
  omega

/-- `periods_covering`: an inverted range raises. -/
def periodsCovering (grain : Grain) (first last : CivilDate) : Option (List CivilDate) :=
  if last < first then none else periodsFrom grain (periodStart grain last) (periodStart grain first)

section Range

variable {grain : Grain} {stop cur : CivilDate} {out : List CivilDate}

/-- A start that is not after a day is the start of its period, or the period ends before the day. -/
theorem eq_or_next_le {s d n : CivilDate} (hs : periodStart grain s = s) (hnext : nextPeriodStart grain s = some n)
    (hle : s ≤ d) : periodStart grain d = s ∨ n ≤ d := by
  by_cases hlt : d < n
  · left
    have hsame := ((nextPeriodStart_spec hnext).2 d).mpr ⟨hs.symm ▸ hle, hlt⟩
    rw [hsame, hs]
  · exact Or.inr (not_lt.mp hlt)

theorem periodsFrom_stop (h : ¬cur ≤ stop) : periodsFrom grain stop cur = some [] := by
  rw [periodsFrom, if_neg h]

theorem periodsFrom_step (h : cur ≤ stop) {n : CivilDate} (hnext : nextPeriodStart grain cur = some n) :
    periodsFrom grain stop cur = (periodsFrom grain stop n).map (cur :: ·) := by
  rw [periodsFrom, if_pos h]
  split
  · next hnone =>
    rw [hnone] at hnext
    cases hnext
  · next n' hsome =>
    rw [hsome] at hnext
    rw [Option.some.inj hnext]

theorem periodsFrom_raise (h : cur ≤ stop) (hnext : nextPeriodStart grain cur = none) :
    periodsFrom grain stop cur = none := by
  rw [periodsFrom, if_pos h]
  split
  · rfl
  · next n' hsome =>
    rw [hsome] at hnext
    cases hnext

/-- Induction on what is left of the range. -/
@[elab_as_elim]
theorem periods_induction (grain : Grain) (stop : CivilDate) {P : CivilDate → Prop} (after : ∀ cur, ¬cur ≤ stop → P cur)
    (raise : ∀ cur, cur ≤ stop → nextPeriodStart grain cur = none → P cur)
    (step : ∀ cur n, cur ≤ stop → nextPeriodStart grain cur = some n → P n → P cur) (cur : CivilDate) : P cur := by
  induction hk : stop.ordinal + 1 - cur.ordinal using Nat.strong_induction_on generalizing cur with
  | h k ih =>
    by_cases hle : cur ≤ stop
    · cases hnext : nextPeriodStart grain cur with
      | none => exact raise cur hle hnext
      | some n =>
        have hlt : cur.ordinal < n.ordinal := lt_nextPeriodStart hnext
        have hstop : cur.ordinal ≤ stop.ordinal := hle
        exact step cur n hle hnext (ih (stop.ordinal + 1 - n.ordinal) (by omega) n rfl)
    · exact after cur hle

/-- The loop raises where the last period has no next one: it asks for it before it ends. -/
theorem periodsFrom_eq_none (hstop : periodStart grain stop = stop) (hcur : periodStart grain cur = cur)
    (hle : cur ≤ stop) : periodsFrom grain stop cur = none ↔ InLastPeriod grain stop := by
  induction cur using periods_induction grain stop with
  | after cur hafter => exact absurd hle hafter
  | raise cur _ hnext =>
    have hlast := (nextPeriodStart_eq_none.mp hnext).mono hle
    exact ⟨fun _ => hlast, fun _ => periodsFrom_raise hle hnext⟩
  | step cur n _ hnext ih =>
    rw [periodsFrom_step hle hnext, Option.map_eq_none_iff]
    by_cases hn : n ≤ stop
    · exact ih (nextPeriodStart_spec hnext).1 hn
    · -- the last one
      have hsame : stop = cur := by
        have heq := (eq_or_next_le hcur hnext hle).resolve_right hn
        rwa [hstop] at heq
      rw [periodsFrom_stop hn, hsame, ← nextPeriodStart_eq_none, hnext]
      exact ⟨nofun, nofun⟩

/-- **The periods of a range** are those that begin in it. -/
theorem mem_periodsFrom (hcur : periodStart grain cur = cur) (h : periodsFrom grain stop cur = some out)
    (s : CivilDate) : s ∈ out ↔ periodStart grain s = s ∧ cur ≤ s ∧ s ≤ stop := by
  induction cur using periods_induction grain stop generalizing out with
  | after cur hafter =>
    rw [periodsFrom_stop hafter] at h
    cases h
    refine ⟨fun hs => absurd hs List.not_mem_nil, fun hs => absurd (hs.2.1.trans hs.2.2) hafter⟩
  | raise cur hle hnext =>
    rw [periodsFrom_raise hle hnext] at h
    cases h
  | step cur n hle hnext ih =>
    rw [periodsFrom_step hle hnext] at h
    obtain ⟨rest, hrest, rfl⟩ := Option.map_eq_some_iff.mp h
    rw [List.mem_cons, ih (nextPeriodStart_spec hnext).1 hrest]
    constructor
    · intro hs
      cases hs with
      | inl heq =>
        rw [heq]
        exact ⟨hcur, le_rfl, hle⟩
      | inr hs => exact ⟨hs.1, (lt_nextPeriodStart hnext).le.trans hs.2.1, hs.2.2⟩
    · rintro ⟨hs, hfrom, hto⟩
      cases eq_or_next_le hcur hnext hfrom with
      | inl hsame => exact Or.inl (hs.symm.trans hsame)
      | inr hn => exact Or.inr ⟨hs, hn, hto⟩

/-- Each is where the one before it ends. -/
theorem chain_periodsFrom (h : periodsFrom grain stop cur = some out) :
    out.IsChain (fun s s' => nextPeriodStart grain s = some s') ∧ ∀ s ∈ out.head?, s = cur := by
  induction cur using periods_induction grain stop generalizing out with
  | after cur hafter =>
    rw [periodsFrom_stop hafter] at h
    cases h
    exact ⟨.nil, fun s hs => by cases hs⟩
  | raise cur hle hnext =>
    rw [periodsFrom_raise hle hnext] at h
    cases h
  | step cur n hle hnext ih =>
    rw [periodsFrom_step hle hnext] at h
    obtain ⟨rest, hrest, rfl⟩ := Option.map_eq_some_iff.mp h
    obtain ⟨hchain, hhead⟩ := ih hrest
    refine ⟨List.isChain_cons.mpr ⟨fun s hs => ?_, hchain⟩, fun s hs => (Option.some.inj hs).symm⟩
    rw [hhead s hs]
    exact hnext

end Range

/-- The days of the partition that starts at `s`, from its start up to the next one's. -/
def InPeriod (grain : Grain) (s d : CivilDate) : Prop := s ≤ d ∧ ∃ n, nextPeriodStart grain s = some n ∧ d < n

/-- The periods tile the days of a range. -/
structure PeriodsTile (grain : Grain) (first last : CivilDate) (out : List CivilDate) : Prop where
  starts : ∀ s ∈ out, periodStart grain s = s
  meet : out.IsChain fun s s' => nextPeriodStart grain s = some s'
  covers : ∀ d, first ≤ d → d ≤ last → ∃! s, s ∈ out ∧ InPeriod grain s d
  touches : ∀ s ∈ out, ∃ d, first ≤ d ∧ d ≤ last ∧ InPeriod grain s d

section Covering

variable {grain : Grain} {first last : CivilDate} {out : List CivilDate}

theorem inPeriod_iff {s d n : CivilDate} (hs : periodStart grain s = s) (hnext : nextPeriodStart grain s = some n) :
    InPeriod grain s d ↔ periodStart grain d = s := by
  have hspec := (nextPeriodStart_spec hnext).2 d
  rw [hs] at hspec
  rw [hspec]
  constructor
  · rintro ⟨hle, n', hn', hlt⟩
    rw [hnext] at hn'
    exact ⟨hle, Option.some.inj hn' ▸ hlt⟩
  · rintro ⟨hle, hlt⟩
    exact ⟨hle, n, hnext, hlt⟩

/-- The loop raises for an inverted range, and where the range ends in the last period that there is. -/
theorem isSome_periodsCovering : (periodsCovering grain first last).isSome ↔ first ≤ last ∧ ¬InLastPeriod grain last := by
  unfold periodsCovering
  by_cases hinverted : last < first
  · rw [if_pos hinverted]
    exact ⟨nofun, fun h => absurd hinverted (not_lt.mpr h.1)⟩
  · have hle := not_lt.mp hinverted
    have hnone := periodsFrom_eq_none (periodStart_idem grain last) (periodStart_idem grain first) (periodStart_mono hle)
    have hlast : InLastPeriod grain (periodStart grain last) ↔ InLastPeriod grain last := by
      rw [← nextPeriodStart_eq_none, ← nextPeriodStart_eq_none, nextPeriodStart_congr (periodStart_idem grain last)]
    rw [if_neg hinverted, Option.isSome_iff_ne_none, Ne, hnone, hlast]
    exact ⟨fun h => ⟨hle, h⟩, fun h => h.2⟩

theorem periodsCovering_tile (h : periodsCovering grain first last = some out) : PeriodsTile grain first last out := by
  obtain ⟨hle, hlast⟩ := isSome_periodsCovering.mp (Option.isSome_iff_exists.mpr ⟨out, h⟩)
  unfold periodsCovering at h
  rw [if_neg (not_lt.mpr hle)] at h
  have hmem := mem_periodsFrom (periodStart_idem grain first) h
  -- no period before the last one is the last
  have hnext : ∀ s ∈ out, ∃ n, nextPeriodStart grain s = some n := by
    intro s hs
    refine Option.ne_none_iff_exists'.mp fun hnone => hlast ?_
    have hstop := ((hmem s).mp hs).2.2
    exact ((nextPeriodStart_eq_none.mp hnone).mono hstop).mono (periodStart_le grain last)
  have hperiod : ∀ s ∈ out, ∀ d, InPeriod grain s d ↔ periodStart grain d = s := by
    intro s hs d
    obtain ⟨n, hn⟩ := hnext s hs
    exact inPeriod_iff ((hmem s).mp hs).1 hn
  refine ⟨fun s hs => ((hmem s).mp hs).1, (chain_periodsFrom h).1, fun d hfirst hto => ?_, fun s hs => ?_⟩
  · have hd : periodStart grain d ∈ out :=
      (hmem _).mpr ⟨periodStart_idem grain d, periodStart_mono hfirst, periodStart_mono hto⟩
    refine ⟨periodStart grain d, ⟨hd, (hperiod _ hd d).mpr rfl⟩, ?_⟩
    rintro s ⟨hs, hin⟩
    exact ((hperiod s hs d).mp hin).symm
  · obtain ⟨hstart, hfrom, hto⟩ := (hmem s).mp hs
    by_cases hs' : s ≤ first
    · -- the period of the first day
      have hsame : periodStart grain first = s := by
        have hmono : periodStart grain s ≤ periodStart grain first := periodStart_mono hs'
        rw [hstart] at hmono
        exact le_antisymm hfrom hmono
      exact ⟨first, le_rfl, hle, (hperiod s hs first).mpr hsame⟩
    · exact ⟨s, (not_le.mp hs').le, hto.trans (periodStart_le grain last), (hperiod s hs s).mpr hstart⟩

end Covering

/-! ## §3. Retention. -/

/-- What `expired_days` goes through, at a cutoff: the last day of each may not be a date. -/
def expiredBefore (grain : Grain) (cutoff : CivilDate) : List CivilDate → Option (List CivilDate)
  | [] => some []
  | s :: covered => do
    let last ← periodEnd grain s
    let expired ← expiredBefore grain cutoff covered
    some (if last < cutoff then s :: expired else expired)

/-- `expired_days`. -/
def expiredDays (grain : Grain) (covered : List CivilDate) (today : CivilDate) (retention : ℤ) :
    Option (List CivilDate) := do
  let cutoff ← today.addDays (-retention)
  let expired ← expiredBefore grain cutoff covered
  some (expired.insertionSort (· ≤ ·))

/-- `PARTITIONED`. -/
inductive RegisteredTable where
  | logEntries | logTransactions | logEntryAssignment
  | analyticsFacts | analyticsFactLedger | analyticsHourlyRollups | analyticsDailyRollups | analyticsRecordFacts
  | analyticsQualityIssues
  deriving DecidableEq, Repr

/-- `grain_of`. -/
def grainOf : RegisteredTable → Grain
  | .logEntries | .logTransactions | .logEntryAssignment | .analyticsHourlyRollups => .daily
  | .analyticsFacts | .analyticsFactLedger | .analyticsRecordFacts | .analyticsQualityIssues => .monthly
  | .analyticsDailyRollups => .yearly

/-- `retention_days_for`, with `KEEP_FOREVER`, `RETENTION_DAYS` and `_LAG_ONE_DAY`. -/
def retentionDays (c : RetentionSettings) : RegisteredTable → Option ℤ
  | .analyticsFacts | .analyticsFactLedger | .analyticsDailyRollups | .analyticsRecordFacts => none
  | .analyticsHourlyRollups => some 90
  | .analyticsQualityIssues => some 365
  | .logTransactions => some c.logPartitionRetentionDays
  | .logEntries | .logEntryAssignment => some (c.logPartitionRetentionDays + 1)

/-- `droppable_days`. -/
def droppable (c : RetentionSettings) (table : RegisteredTable) (covered : List CivilDate) (today : CivilDate) :
    Option (List CivilDate) :=
  match retentionDays c table with
  | none => some []
  | some retention => expiredDays (grainOf table) covered today retention

section Expired

variable {grain : Grain} {covered out : List CivilDate} {cutoff today : CivilDate}

/-- All days of the period of `s` are before the cutoff. -/
def AllBefore (grain : Grain) (cutoff s : CivilDate) : Prop :=
  ∀ d, periodStart grain d = periodStart grain s → d < cutoff

/-- The last day of a period is the day before the next one. -/
theorem periodEnd_eq_some {s last : CivilDate} : periodEnd grain s = some last ↔
    ∃ n, nextPeriodStart grain s = some n ∧ (last.ordinal : ℤ) = n.ordinal - 1 := by
  unfold periodEnd
  constructor
  · intro h
    obtain ⟨n, hn, hlast⟩ := Option.bind_eq_some_iff.mp h
    exact ⟨n, hn, CivilDate.addDays_eq_some.mp hlast⟩
  · rintro ⟨n, hn, hlast⟩
    exact Option.bind_eq_some_iff.mpr ⟨n, hn, CivilDate.addDays_eq_some.mpr hlast⟩

theorem periodEnd_eq_none {s : CivilDate} : periodEnd grain s = none ↔ InLastPeriod grain s := by
  rw [← nextPeriodStart_eq_none]
  unfold periodEnd
  constructor
  · intro h
    cases hn : nextPeriodStart grain s with
    | none => rfl
    | some n =>
      -- the day before a later one is a date
      have hlt : s.ordinal < n.ordinal := lt_nextPeriodStart hn
      have hbound := n.ordinal_le
      have hstart := s.ordinal_le
      rw [hn] at h
      have hout := CivilDate.ofOrdinal_eq_none.mp h
      omega
  · intro h
    rw [h]
    rfl

/-- The last day is before the cutoff exactly when all days are. -/
theorem allBefore_iff {s last : CivilDate} (h : periodEnd grain s = some last) :
    AllBefore grain cutoff s ↔ last < cutoff := by
  obtain ⟨n, hn, hlast⟩ := periodEnd_eq_some.mp h
  have hspec := (nextPeriodStart_spec hn).2
  constructor
  · intro hall
    refine hall last ((hspec last).mpr ⟨?_, ?_⟩)
    · have hstart : (periodStart grain s).ordinal ≤ s.ordinal := periodStart_le grain s
      have hlt : s.ordinal < n.ordinal := lt_nextPeriodStart hn
      rw [CivilDate.le_iff]
      omega
    · rw [CivilDate.lt_iff]
      omega
  · intro hbefore d hd
    have hlt : d.ordinal < n.ordinal := ((hspec d).mp hd).2
    rw [CivilDate.lt_iff] at hbefore ⊢
    omega

theorem isSome_expiredBefore :
    (expiredBefore grain cutoff covered).isSome ↔ ∀ s ∈ covered, ¬InLastPeriod grain s := by
  induction covered with
  | nil => exact ⟨fun _ s hs => absurd hs List.not_mem_nil, fun _ => rfl⟩
  | cons s covered ih =>
    have hstep : expiredBefore grain cutoff (s :: covered) = (periodEnd grain s).bind fun last =>
        (expiredBefore grain cutoff covered).bind fun expired =>
          some (if last < cutoff then s :: expired else expired) := rfl
    rw [hstep, List.forall_mem_cons, ← ih, ← periodEnd_eq_none]
    cases periodEnd grain s with
    | none => exact ⟨nofun, fun h => absurd rfl h.1⟩
    | some last =>
      cases expiredBefore grain cutoff covered with
      | none => exact ⟨nofun, fun h => by cases h.2⟩
      | some expired => exact ⟨fun _ => ⟨nofun, rfl⟩, fun _ => rfl⟩

theorem mem_expiredBefore (h : expiredBefore grain cutoff covered = some out) (s : CivilDate) :
    s ∈ out ↔ s ∈ covered ∧ AllBefore grain cutoff s := by
  induction covered generalizing out with
  | nil =>
    cases h
    exact ⟨fun hs => absurd hs List.not_mem_nil, fun hs => absurd hs.1 List.not_mem_nil⟩
  | cons s' covered ih =>
    obtain ⟨last, hlast, hrest⟩ := Option.bind_eq_some_iff.mp h
    obtain ⟨expired, hexpired, hout⟩ := Option.bind_eq_some_iff.mp hrest
    have hall : AllBefore grain cutoff s' ↔ last < cutoff := allBefore_iff hlast
    have hmem := ih hexpired
    have hout := Option.some.inj hout
    subst hout
    rw [List.mem_cons]
    split
    · next hbefore =>
      rw [List.mem_cons, hmem]
      constructor
      · intro hs
        cases hs with
        | inl heq => exact ⟨Or.inl heq, heq ▸ hall.mpr hbefore⟩
        | inr hs => exact ⟨Or.inr hs.1, hs.2⟩
      · rintro ⟨hs, hbefore'⟩
        exact hs.imp id fun hs => ⟨hs, hbefore'⟩
    · next hkept =>
      rw [hmem]
      constructor
      · rintro ⟨hs, hbefore'⟩
        exact ⟨Or.inr hs, hbefore'⟩
      · rintro ⟨hs, hbefore'⟩
        cases hs with
        | inl heq => exact absurd (hall.mp (heq ▸ hbefore')) hkept
        | inr hs => exact ⟨hs, hbefore'⟩

variable {retention : ℤ}

theorem isSome_expiredDays : (expiredDays grain covered today retention).isSome ↔
    (today.addDays (-retention)).isSome ∧ ∀ s ∈ covered, ¬InLastPeriod grain s := by
  unfold expiredDays
  cases hcutoff : today.addDays (-retention) with
  | none => exact ⟨nofun, fun h => by cases h.1⟩
  | some cutoff =>
    have hbefore := @isSome_expiredBefore grain covered cutoff
    rw [← hbefore]
    show ((expiredBefore grain cutoff covered).bind fun expired => some (expired.insertionSort (· ≤ ·))).isSome ↔
      true = true ∧ (expiredBefore grain cutoff covered).isSome
    cases expiredBefore grain cutoff covered with
    | none => exact ⟨nofun, nofun⟩
    | some expired => exact ⟨fun _ => ⟨rfl, rfl⟩, fun _ => rfl⟩

/-- **What is expired** is before the cutoff, with all its days. -/
theorem mem_expiredDays (h : expiredDays grain covered today retention = some out) :
    ∃ cutoff, today.addDays (-retention) = some cutoff ∧ out.Pairwise (· ≤ ·) ∧
      ∀ s, s ∈ out ↔ s ∈ covered ∧ AllBefore grain cutoff s := by
  obtain ⟨cutoff, hcutoff, hrest⟩ := Option.bind_eq_some_iff.mp h
  obtain ⟨expired, hexpired, hout⟩ := Option.bind_eq_some_iff.mp hrest
  have hout := Option.some.inj hout
  subst hout
  refine ⟨cutoff, hcutoff, List.pairwise_insertionSort _ _, fun s => ?_⟩
  rw [List.mem_insertionSort]
  exact mem_expiredBefore hexpired s

/-- At the daily grain this is the test of the worker's day numbers. -/
theorem mem_expiredDays_daily (h : expiredDays .daily covered today retention = some out) (s : CivilDate) :
    s ∈ out ↔ s ∈ covered ∧ (s.ordinal : ℤ) ∈
      Retention.expiredDays (covered.map fun d => (d.ordinal : ℤ)) (today.ordinal : ℤ) retention := by
  obtain ⟨cutoff, hcutoff, -, hmem⟩ := mem_expiredDays h
  have hcutoff := CivilDate.addDays_eq_some.mp hcutoff
  have hall : AllBefore .daily cutoff s ↔ s < cutoff :=
    ⟨fun hall => hall s rfl, fun hlt d hd => (show d = s from hd) ▸ hlt⟩
  have hnumber : ∀ (a b : ℕ) (t r : ℤ), (b : ℤ) = t + -r → (a < b ↔ (a : ℤ) < t - r) := by
    intro a b t r hb
    omega
  have hlt := hnumber s.ordinal cutoff.ordinal today.ordinal retention hcutoff
  rw [hmem s, Retention.mem_expiredDays, hall, CivilDate.lt_iff]
  constructor
  · rintro ⟨hs, hbefore⟩
    exact ⟨hs, List.mem_map_of_mem hs, hlt.mp hbefore⟩
  · rintro ⟨hs, -, hbefore⟩
    exact ⟨hs, hlt.mpr hbefore⟩

/-- A table drops what its own retention has expired, and one that is kept forever nothing. -/
theorem mem_droppable {c : RetentionSettings} {table : RegisteredTable}
    (h : droppable c table covered today = some out) {s : CivilDate} (hs : s ∈ out) :
    ∃ retention cutoff, retentionDays c table = some retention ∧ today.addDays (-retention) = some cutoff ∧
      s ∈ covered ∧ AllBefore (grainOf table) cutoff s := by
  unfold droppable at h
  cases hretention : retentionDays c table with
  | none =>
    rw [hretention] at h
    cases h
    exact absurd hs List.not_mem_nil
  | some retention =>
    rw [hretention] at h
    obtain ⟨cutoff, hcutoff, -, hmem⟩ := mem_expiredDays h
    exact ⟨retention, cutoff, rfl, hcutoff, (hmem s).mp hs⟩

end Expired

/-! ## §4. The calendar. -/

/-- **The calendar of the partitions**: where the range does not end in the last period of the year 9999, its periods
tile its days; and what is expired, or dropped from a table, has all its days before the cutoff. -/
theorem partition_calendar :
    (∀ grain first last, ((periodsCovering grain first last).isSome ↔ first ≤ last ∧ ¬InLastPeriod grain last) ∧
      ∀ out, periodsCovering grain first last = some out → PeriodsTile grain first last out) ∧
    (∀ grain covered today retention,
      ((expiredDays grain covered today retention).isSome ↔
        (today.addDays (-retention)).isSome ∧ ∀ s ∈ covered, ¬InLastPeriod grain s) ∧
      ∀ out, expiredDays grain covered today retention = some out →
        ∃ cutoff, today.addDays (-retention) = some cutoff ∧ out.Pairwise (· ≤ ·) ∧
          ∀ s, s ∈ out ↔ s ∈ covered ∧ AllBefore grain cutoff s) ∧
    ∀ c table covered today out, droppable c table covered today = some out → ∀ s ∈ out,
      ∃ retention cutoff, retentionDays c table = some retention ∧ today.addDays (-retention) = some cutoff ∧
        s ∈ covered ∧ AllBefore (grainOf table) cutoff s :=
  ⟨fun _ _ _ => ⟨isSome_periodsCovering, fun _ h => periodsCovering_tile h⟩,
    fun _ _ _ _ => ⟨isSome_expiredDays, fun _ h => mem_expiredDays h⟩,
    fun _ _ _ _ _ h _ hs => mem_droppable h hs⟩

/-- The leap day is in the range. -/
def leapWeek : CivilDate × CivilDate :=
  (⟨2024, 2, 26, by decide, by decide, by decide⟩, ⟨2024, 3, 3, by decide, by decide, by decide⟩)

theorem partition_calendar_leap : ∃ out, periodsCovering .monthly leapWeek.1 leapWeek.2 = some out ∧
    PeriodsTile .monthly leapWeek.1 leapWeek.2 out := by
  have hcalendar := partition_calendar.1 .monthly leapWeek.1 leapWeek.2
  have hrange : leapWeek.1 ≤ leapWeek.2 ∧ ¬InLastPeriod .monthly leapWeek.2 :=
    ⟨by decide, fun h => absurd h.1 (by decide)⟩
  obtain ⟨out, hout⟩ := Option.isSome_iff_exists.mp (hcalendar.1.mpr hrange)
  exact ⟨out, hout, hcalendar.2 out hout⟩

/-- The last day that there is has no partition: the next boundary is no date. -/
theorem lastDay_raises : ¬∀ (grain : Grain) (first last : CivilDate), first ≤ last →
    ∃ out, periodsCovering grain first last = some out ∧ PeriodsTile grain first last out := by
  intro h
  obtain ⟨out, hout, -⟩ := h .daily ⟨9999, 12, 31, by decide, by decide, by decide⟩
    ⟨9999, 12, 31, by decide, by decide, by decide⟩ le_rfl
  exact (isSome_periodsCovering.mp (Option.isSome_iff_exists.mpr ⟨out, hout⟩)).2 ⟨rfl, rfl, rfl⟩

end RagPipeline.Retention.Partitions
