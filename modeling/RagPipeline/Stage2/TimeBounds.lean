/-
  RagPipeline.Stage2.TimeBounds — windows of instants beside the conditions that say what is meant.

  The tables are cut by UTC day, and only a condition on the instant itself keeps a query from opening every part.  So
  a window goes in beside the exact condition: it may only leave out what that leaves out anyway.

    * `local_window_exact` — the window beside a range of local dates changes nothing of what is selected, whatever
                             zone the rows were written in and whatever zone the tenant has now;
    * `feed_day_exact`     — the feed of a day is the rows with that date;
    * `page_window_exact`  — the window over the beginnings and ends of transactions leaves out none of their lines.
-/
import RagPipeline.Lib.ThreeValued
import RagPipeline.Stage2.Compute

namespace RagPipeline.Stage2.TimeBounds

open RagPipeline.Lib

/-! ## §1. Windows. -/

/-- Half-open; a side that is not there is open. -/
structure UtcWindow where
  start : Option Instant
  stop : Option Instant
  deriving DecidableEq, Repr

/-- `and_(true(), ...)`. -/
def allOf (conds : List Truth) : Truth := conds.foldl Truth.and (some true)

def UtcWindow.rangePredicates (w : UtcWindow) (column : Option Instant) : List Truth :=
  (w.start.map fun t => Truth.compare (fun a b => decide (b ≤ a)) column (some t)).toList ++
    (w.stop.map fun t => Truth.compare (fun a b => decide (a < b)) column (some t)).toList

def UtcWindow.covers (w : UtcWindow) (includeNull : Bool) (column : Option Instant) : Truth :=
  let inside := allOf (w.rangePredicates column)
  if includeNull then inside.or (.isNull column) else inside

/-- One microsecond: the end is not in the window. -/
def tick : Duration := 1

def fromInstants (instants : List (Option Instant)) (pad : Duration) : Option UtcWindow :=
  match (instants.filterMap id).min?, (instants.filterMap id).max? with
  | some first, some last => some ⟨some (first - pad), some (last + pad + tick)⟩
  | _, _ => none

def hour : Duration := 3600 * second

def dayLength : Duration := 24 * hour

def localDatePad : Duration := 27 * hour

/-- A zone: how far its clocks are ahead at an instant, and at a time they show. -/
structure Clock where
  utcOffset : Instant → Duration
  wallOffset : Instant → Duration

/-- From UTC-12 to UTC+14. -/
structure Clock.Real (c : Clock) : Prop where
  utc : ∀ t, -(12 * hour) ≤ c.utcOffset t ∧ c.utcOffset t ≤ 14 * hour
  wall : ∀ t, -(12 * hour) ≤ c.wallOffset t ∧ c.wallOffset t ≤ 14 * hour

/-- `to_display(started).date()`. -/
def Clock.displayDay (c : Clock) (t : Instant) : Day := (t + c.utcOffset t) / dayLength

def Clock.localMidnightUtc (c : Clock) (plusDays : ℤ) (shift : Duration) (day : Day) : Instant :=
  let midnight := (day + plusDays) * dayLength
  midnight - c.wallOffset midnight + shift

def Clock.fromLocalDates (c : Clock) (dateFrom dateTo : Option Day) : Option UtcWindow :=
  if dateFrom = none ∧ dateTo = none then none
  else some ⟨dateFrom.map (c.localMidnightUtc 0 (-localDatePad)), dateTo.map (c.localMidnightUtc 1 localDatePad)⟩

/-! ## §2. The conditions on transactions. -/

/-- What the conditions read of a row of `log_transactions`. -/
structure DatedRow where
  customerCode : String
  date : Option Day
  startedAt : Option Instant
  deriving DecidableEq, Repr

/-- The date was made from the instant, in the zone of its day. -/
def DatedRow.Written (r : DatedRow) : Prop := ∃ c : Clock, c.Real ∧ r.date = r.startedAt.map c.displayDay

theorem written_compute {c : Clock} (hc : c.Real) (customerCode : String) (millis : Duration → ℤ) (es : List LogEntry) :
    DatedRow.Written ⟨customerCode, (compute c.displayDay millis es).date, (compute c.displayDay millis es).startedAt⟩ :=
  ⟨c, hc, rfl⟩

def ofCustomer (customer : String) (r : DatedRow) : Truth :=
  .compare (fun a b => decide (a = b)) (some r.customerCode) (some customer)

/-- The exact conditions of a range of dates, as the delete of a range has them. -/
def rangeConditions (customer : String) (dateFrom dateTo : Option Day) (r : DatedRow) : List Truth :=
  ofCustomer customer r ::
    ((dateFrom.map fun d => Truth.compare (fun a b => decide (b ≤ a)) r.date (some d)).toList ++
      (dateTo.map fun d => Truth.compare (fun a b => decide (a ≤ b)) r.date (some d)).toList)

/-- The window that goes in beside them. -/
def Clock.window (c : Clock) (dateFrom dateTo : Option Day) (r : DatedRow) : List Truth :=
  ((c.fromLocalDates dateFrom dateTo).map fun w => w.covers false r.startedAt).toList

/-- `day_conditions`. -/
def Clock.dayConditions (c : Clock) (customer : String) (day : Day) (r : DatedRow) : List Truth :=
  [ofCustomer customer r, .compare (fun a b => decide (a = b)) r.date (some day)] ++ c.window (some day) (some day) r

/-! ## §3. What a window leaves out. -/

theorem selects_foldl (conds : List Truth) (a : Truth) :
    (conds.foldl Truth.and a).selects = (a.selects && conds.all Truth.selects) := by
  induction conds generalizing a with
  | nil => exact (Bool.and_true _).symm
  | cons cond conds ih => rw [List.foldl_cons, ih, Truth.selects_and, List.all_cons, Bool.and_assoc]

@[simp] theorem selects_allOf (conds : List Truth) : (allOf conds).selects = conds.all Truth.selects := by
  unfold allOf
  rw [selects_foldl, Truth.selects_some, Bool.true_and]

theorem selects_range {w : UtcWindow} {t : Instant} (hstart : ∀ s ∈ w.start, s ≤ t) (hstop : ∀ s ∈ w.stop, t < s) :
    (allOf (w.rangePredicates (some t))).selects = true := by
  rw [selects_allOf, List.all_eq_true]
  intro cond hcond
  rcases List.mem_append.mp hcond with hcond | hcond
  · obtain ⟨s, hs, rfl⟩ := Option.map_eq_some_iff.mp (Option.mem_toList.mp hcond)
    exact Truth.selects_compare.mpr ⟨t, rfl, s, rfl, decide_eq_true (hstart s hs)⟩
  · obtain ⟨s, hs, rfl⟩ := Option.map_eq_some_iff.mp (Option.mem_toList.mp hcond)
    exact Truth.selects_compare.mpr ⟨t, rfl, s, rfl, decide_eq_true (hstop s hs)⟩

section LocalDates

variable {c now : Clock} {t : Instant} {day : Day}

/-- Two zones are never more than twenty-six hours apart. -/
theorem apart_le {midnight t offset wall hour : ℤ} (hhour : 0 < hour) (hle : midnight ≤ t + offset)
    (hoffset : offset ≤ 14 * hour) (hwall : -(12 * hour) ≤ wall) : midnight - wall + -(27 * hour) ≤ t := by
  omega

theorem lt_apart {midnight t offset wall hour : ℤ} (hhour : 0 < hour) (hlt : t + offset < midnight)
    (hoffset : -(12 * hour) ≤ offset) (hwall : wall ≤ 14 * hour) : t < midnight - wall + 27 * hour := by
  omega

theorem hour_pos : (0 : ℤ) < hour := by decide

theorem after_midnight (hc : c.Real) (hnow : now.Real) (h : day ≤ c.displayDay t) :
    now.localMidnightUtc 0 (-localDatePad) day ≤ t := by
  have hday : day * dayLength ≤ t + c.utcOffset t := (Int.le_ediv_iff_mul_le (by decide)).mp h
  rw [← Int.add_zero day] at hday
  exact apart_le hour_pos hday (hc.utc t).2 (hnow.wall _).1

theorem before_midnight (hc : c.Real) (hnow : now.Real) (h : c.displayDay t ≤ day) :
    t < now.localMidnightUtc 1 localDatePad day := by
  have hday : t + c.utcOffset t < (day + 1) * dayLength :=
    (Int.ediv_lt_iff_lt_mul (by decide)).mp (Int.lt_add_one_of_le h)
  exact lt_apart hour_pos hday (hc.utc t).1 (hnow.wall _).2

/-- A row whose date is in the range is in the window. -/
theorem window_covers (hnow : now.Real) {r : DatedRow} (hr : r.Written) {d : Day} (hdate : r.date = some d)
    {dateFrom dateTo : Option Day} (hfrom : ∀ a ∈ dateFrom, a ≤ d) (hto : ∀ b ∈ dateTo, d ≤ b) :
    ∀ cond ∈ now.window dateFrom dateTo r, cond.selects = true := by
  obtain ⟨c, hc, hwritten⟩ := hr
  obtain ⟨t, ht, hd⟩ := Option.map_eq_some_iff.mp (hwritten.symm.trans hdate)
  intro cond hcond
  obtain ⟨w, hw, rfl⟩ := Option.map_eq_some_iff.mp (Option.mem_toList.mp hcond)
  unfold Clock.fromLocalDates at hw
  split at hw
  · cases hw
  · obtain rfl := Option.some.inj hw
    rw [ht]
    refine selects_range (fun s hs => ?_) (fun s hs => ?_)
    · obtain ⟨a, ha, rfl⟩ := Option.map_eq_some_iff.mp hs
      exact after_midnight hc hnow (hd ▸ hfrom a ha)
    · obtain ⟨b, hb, rfl⟩ := Option.map_eq_some_iff.mp hs
      exact before_midnight hc hnow (hd ▸ hto b hb)

end LocalDates

/-- **The window beside a range of dates changes nothing.**  Whatever zone each row was written in, and whatever zone
the tenant has now; a row without a date is selected by no side that is there. -/
theorem local_window_exact {now : Clock} (hnow : now.Real) {r : DatedRow} (hr : r.Written) (customer : String)
    (dateFrom dateTo : Option Day) :
    (allOf (rangeConditions customer dateFrom dateTo r ++ now.window dateFrom dateTo r)).selects =
      (allOf (rangeConditions customer dateFrom dateTo r)).selects := by
  rw [selects_allOf, selects_allOf, List.all_append]
  cases hall : (rangeConditions customer dateFrom dateTo r).all Truth.selects with
  | false => rfl
  | true =>
    rw [Bool.true_and, List.all_eq_true]
    have hconds := List.all_eq_true.mp hall
    have hfrom : ∀ a ∈ dateFrom, ∃ d, r.date = some d ∧ a ≤ d := by
      intro a ha
      have hcond := hconds _ (List.mem_cons_of_mem _ (List.mem_append_left _
        (Option.mem_toList.mpr (Option.map_eq_some_iff.mpr ⟨a, ha, rfl⟩))))
      obtain ⟨d, hd, b, hb, hle⟩ := Truth.selects_compare.mp hcond
      cases hb
      exact ⟨d, hd, of_decide_eq_true hle⟩
    have hto : ∀ b ∈ dateTo, ∃ d, r.date = some d ∧ d ≤ b := by
      intro b hb
      have hcond := hconds _ (List.mem_cons_of_mem _ (List.mem_append_right _
        (Option.mem_toList.mpr (Option.map_eq_some_iff.mpr ⟨b, hb, rfl⟩))))
      obtain ⟨d, hd, b', hb', hle⟩ := Truth.selects_compare.mp hcond
      cases hb'
      exact ⟨d, hd, of_decide_eq_true hle⟩
    cases hdate : r.date with
    | none =>
      -- Neither side is there, so there is no window.
      have hnone : dateFrom = none ∧ dateTo = none := by
        constructor
        · refine Option.eq_none_iff_forall_not_mem.mpr fun a ha => ?_
          obtain ⟨d, hd, -⟩ := hfrom a ha
          cases hdate.symm.trans hd
        · refine Option.eq_none_iff_forall_not_mem.mpr fun b hb => ?_
          obtain ⟨d, hd, -⟩ := hto b hb
          cases hdate.symm.trans hd
      unfold Clock.window Clock.fromLocalDates
      rw [if_pos hnone]
      exact fun cond hcond => nomatch hcond
    | some d =>
      refine window_covers hnow hr hdate (fun a ha => ?_) (fun b hb => ?_)
      · obtain ⟨d', hd', hle⟩ := hfrom a ha
        cases hdate.symm.trans hd'
        exact hle
      · obtain ⟨d', hd', hle⟩ := hto b hb
        cases hdate.symm.trans hd'
        exact hle

def fixedClock (offset : Duration) : Clock := ⟨fun _ => offset, fun _ => offset⟩

theorem real_fixedClock {offset : Duration} (h : -(12 * hour) ≤ offset ∧ offset ≤ 14 * hour) : (fixedClock offset).Real :=
  ⟨fun _ => h, fun _ => h⟩

/-- Written at UTC+14, where the day had just begun. -/
def farEast : DatedRow := ⟨"A", some 1, some (10 * hour)⟩

/-- The tenant has moved to UTC-12, where that day begins twenty-six hours later. -/
theorem local_window_exact_moved :
    (allOf (rangeConditions "A" (some 1) (some 1) farEast ++
      (fixedClock (-(12 * hour))).window (some 1) (some 1) farEast)).selects = true := by
  have hwritten : farEast.Written := ⟨fixedClock (14 * hour), real_fixedClock (by decide), rfl⟩
  exact (local_window_exact (real_fixedClock (by decide)) hwritten "A" (some 1) (some 1)).trans (by decide)

/-- **The feed of a day is the rows with that date.** -/
theorem feed_day_exact {now : Clock} (hnow : now.Real) {r : DatedRow} (hr : r.Written) (customer : String) (day : Day) :
    (allOf (now.dayConditions customer day r)).selects = true ↔ r.customerCode = customer ∧ r.date = some day := by
  unfold Clock.dayConditions
  rw [selects_allOf, List.all_append, Bool.and_eq_true]
  constructor
  · rintro ⟨hexact, -⟩
    have hconds := List.all_eq_true.mp hexact
    obtain ⟨a, ha, b, hb, hcustomer⟩ := Truth.selects_compare.mp (hconds _ (List.mem_cons_self ..))
    obtain ⟨d, hd, d', hd', hdate⟩ :=
      Truth.selects_compare.mp (hconds _ (List.mem_cons_of_mem _ (List.mem_cons_self ..)))
    cases ha
    cases hb
    cases hd'
    exact ⟨of_decide_eq_true hcustomer, by rw [← of_decide_eq_true hdate]; exact hd⟩
  · rintro ⟨rfl, hdate⟩
    refine ⟨?_, List.all_eq_true.mpr (window_covers hnow hr hdate (fun a ha => ?_) (fun b hb => ?_))⟩
    · rw [List.all_cons, List.all_cons, List.all_nil, Bool.and_true, Bool.and_eq_true]
      exact ⟨Truth.selects_compare.mpr ⟨_, rfl, _, rfl, decide_eq_true rfl⟩,
        Truth.selects_compare.mpr ⟨day, hdate, day, rfl, decide_eq_true rfl⟩⟩
    · cases ha
      exact Int.le_refl _
    · cases hb
      exact Int.le_refl _

/-! ## §4. The lines of a page of transactions. -/

/-- `load_entries`: the window over the beginnings and ends of the transactions of a page. -/
def pageWindow (groups : List (List LogEntry)) : Option UtcWindow :=
  fromInstants (groups.map startedAt ++ groups.map endedAt) 0

/-- **No line of a page is left out.**  Nor is one whose time could not be read. -/
theorem page_window_exact {groups : List (List LogEntry)} {w : UtcWindow} (hw : pageWindow groups = some w)
    {es : List LogEntry} (hes : es ∈ groups) {e : LogEntry} (he : e ∈ es) :
    (w.covers true e.timestamp).selects = true := by
  show ((allOf (w.rangePredicates e.timestamp)).or (.isNull e.timestamp)).selects = true
  rw [Truth.selects_or, Bool.or_eq_true]
  cases ht : e.timestamp with
  | none => exact .inr rfl
  | some t =>
    left
    have hstamp : t ∈ stamps es := List.mem_filterMap.mpr ⟨e, he, ht⟩
    obtain ⟨first, hfirst⟩ : ∃ first, startedAt es = some first := Option.isSome_iff_exists.mp
      (List.isSome_min?_of_mem hstamp)
    obtain ⟨last, hlast⟩ : ∃ last, endedAt es = some last := Option.isSome_iff_exists.mp
      (List.isSome_max?_of_mem hstamp)
    have hfirst_le : first ≤ t := (List.min?_eq_some_iff.mp hfirst).2 t hstamp
    have hle_last : t ≤ last := (List.max?_eq_some_iff.mp hlast).2 t hstamp
    have hknown : first ∈ (groups.map startedAt ++ groups.map endedAt).filterMap id ∧
        last ∈ (groups.map startedAt ++ groups.map endedAt).filterMap id := by
      constructor
      · exact List.mem_filterMap.mpr ⟨some first, List.mem_append_left _ (List.mem_map.mpr ⟨es, hes, hfirst⟩), rfl⟩
      · exact List.mem_filterMap.mpr ⟨some last, List.mem_append_right _ (List.mem_map.mpr ⟨es, hes, hlast⟩), rfl⟩
    unfold pageWindow fromInstants at hw
    split at hw
    · next lo hi hlo hhi =>
      obtain rfl := Option.some.inj hw
      have hlo_le : lo ≤ first := (List.min?_eq_some_iff.mp hlo).2 first hknown.1
      have hle_hi : last ≤ hi := (List.max?_eq_some_iff.mp hhi).2 last hknown.2
      refine selects_range (fun s hs => ?_) (fun s hs => ?_)
      · cases hs
        rw [Int.sub_zero]
        exact Int.le_trans hlo_le hfirst_le
      · cases hs
        rw [Int.add_zero]
        exact Int.lt_add_one_of_le (Int.le_trans hle_last hle_hi)
    · cases hw

end RagPipeline.Stage2.TimeBounds
