/-
  RagPipeline.Analytics.PlanTiles — what `plan_read` cuts a window into.

    * `Calendar.ofMonotone` — a zone whose local date never goes back and whose days each have a first
                              instant is a calendar;
    * `edges_tile`          — a range inside the window, and the two edges `_edges` leaves beside it;
    * `planRead_tiles`      — the windows of a plan tile the request, and what is read from the rollups is
                              whole buckets before the watermark.
-/
import RagPipeline.Analytics.TwoTier
import Mathlib.Order.CompletePartialOrder
import Mathlib.Order.Interval.Set.Basic

namespace RagPipeline.Analytics

open RagPipeline.Stage2

/-! ## §1. Calendars and buckets. -/

/-- The calendar of a zone: its local date never goes back, and every local day starts at one instant. -/
def Calendar.ofMonotone (utcDate dateOf : Instant → Day) (midnight : Day → Instant)
    (hmono : Monotone dateOf) (hfirst : ∀ d, IsLeast (Set.preimage dateOf {d}) (midnight d)) : Calendar where
  utcDate := utcDate
  dateOf := dateOf
  midnight := midnight
  midnight_le_iff := by
    intro t d
    have hd : dateOf (midnight d) = d := (hfirst d).1
    constructor
    · intro hle
      exact hd.symm.le.trans (hmono hle)
    · intro hle
      -- an earlier instant has an earlier date, or the same one: then `midnight d` was not the first
      by_contra hlt
      have hback : dateOf t ≤ d := (hmono (not_le.mp hlt).le).trans_eq hd
      exact hlt ((hfirst d).2 (le_antisymm hback hle))

/-- The bucket of an instant, in the table a grain is read from. -/
def Calendar.bucketAt (cal : Calendar) (grain : Grain) (t : Instant) : Bucket :=
  match grain with
  | .hourly => .hour (hourOf t)
  | _ => .day (cal.dateOf t)

/-- `rollup_window`: the instants of the buckets that are read from the rollups. -/
def ReadPlan.rollupWindow (cal : Calendar) (plan : ReadPlan) : Option (Instant × Instant) :=
  match plan.dates with
  | some (first, last) => some (cal.midnight first, cal.midnight (last + 1))
  | none => plan.hours

/-- Every window of a plan. -/
def ReadPlan.windows (cal : Calendar) (plan : ReadPlan) : List (Instant × Instant) :=
  (plan.rollupWindow cal).toList ++ plan.live

/-- Two windows share no instant. -/
def Apart (a b : Instant × Instant) : Prop := Disjoint (Set.Ico a.1 a.2) (Set.Ico b.1 b.2)

/-- A plan divides a request into windows, those of the rollups along the edges of buckets. -/
structure ReadPlan.TilesWindow (plan : ReadPlan) (cal : Calendar) (grain : Grain) (start stop : Instant)
    (watermark : Option Instant) : Prop where
  /-- no instant is read twice -/
  apart : (plan.windows cal).Pairwise Apart
  /-- every instant of the request is read, and no other -/
  covers : ∀ t, (∃ r ∈ plan.windows cal, t ∈ Set.Ico r.1 r.2) ↔ t ∈ Set.Ico start stop
  /-- a bucket is read whole or not at all -/
  whole : ∀ r ∈ plan.rollupWindow cal, ∀ t ∈ Set.Ico r.1 r.2, ∀ t',
    cal.bucketAt grain t' = cal.bucketAt grain t → t' ∈ Set.Ico r.1 r.2
  /-- the stored buckets that are read are those of the rollup window -/
  served : ∀ t, plan.serves cal (cal.bucketAt grain t) = true ↔
    ∃ r ∈ plan.rollupWindow cal, t ∈ Set.Ico r.1 r.2
  /-- the rollup window ends at the watermark or before -/
  settled : ∀ r ∈ plan.rollupWindow cal, ∃ t ∈ watermark, r.2 ≤ t

/-! ## §2. Windows. -/

theorem apart_of_le {a b : Instant × Instant} (h : a.2 ≤ b.1) : Apart a b := by
  rw [Apart, Set.disjoint_left]
  intro t ha hb
  exact absurd (ha.2.trans_le h) (not_lt.mpr hb.1)

theorem Apart.symm {a b : Instant × Instant} (h : Apart a b) : Apart b a := Disjoint.symm h

/-- A range inside the window, and the edges beside it. -/
theorem edges_tile {start stop lo hi : Instant} (hlo : start ≤ lo) (hle : lo ≤ hi) (hhi : hi ≤ stop) :
    ((lo, hi) :: edges start stop lo hi).Pairwise Apart ∧
      ∀ t, (∃ r ∈ (lo, hi) :: edges start stop lo hi, t ∈ Set.Ico r.1 r.2) ↔ t ∈ Set.Ico start stop := by
  have hleft : Apart (lo, hi) (start, lo) := (apart_of_le le_rfl).symm
  have hright : Apart (lo, hi) (hi, stop) := apart_of_le le_rfl
  have hsides : Apart (start, lo) (hi, stop) := apart_of_le hle
  have hcut : ∀ t start stop lo hi : Int, start ≤ lo → lo ≤ hi → hi ≤ stop →
      ((lo ≤ t ∧ t < hi) ∨ (start < lo ∧ start ≤ t ∧ t < lo) ∨ (hi < stop ∧ hi ≤ t ∧ t < stop) ↔
        start ≤ t ∧ t < stop) := by
    intro t start stop lo hi
    omega
  constructor
  · unfold edges
    by_cases h₁ : start < lo
    · by_cases h₂ : hi < stop
      · simp [h₁, h₂, hleft, hright, hsides]
      · simp [h₁, h₂, hleft]
    · by_cases h₂ : hi < stop
      · simp [h₁, h₂, hright]
      · simp [h₁, h₂]
  · intro t
    show _ ↔ start ≤ t ∧ t < stop
    rw [← hcut t start stop lo hi hlo hle hhi]
    unfold edges
    by_cases h₁ : start < lo
    · by_cases h₂ : hi < stop
      · simp [h₁, h₂]
      · simp [h₁, h₂]
    · by_cases h₂ : hi < stop
      · simp [h₁, h₂]
      · simp [h₁, h₂]

/-! ## §3. Plans. -/

section Plans

variable (cal : Calendar) {start stop watermark : Instant}

/-- A plan that reads the whole window live. -/
theorem tilesWindow_live (grain : Grain) (start stop : Instant) (watermark : Option Instant) :
    ({ live := [(start, stop)] } : ReadPlan).TilesWindow cal grain start stop watermark := by
  have hno : ∀ b, ({ live := [(start, stop)] } : ReadPlan).serves cal b = false := by
    intro b
    cases b <;> rfl
  constructor
  · show [(start, stop)].Pairwise Apart
    exact List.pairwise_singleton _ _
  · intro t
    show (∃ r ∈ [(start, stop)], t ∈ Set.Ico r.1 r.2) ↔ _
    simp
  · intro r hr
    exact absurd hr (by simp [ReadPlan.rollupWindow])
  · intro t
    rw [hno]
    simp [ReadPlan.rollupWindow]
  · intro r hr
    exact absurd hr (by simp [ReadPlan.rollupWindow])

/-- The hourly plan. -/
theorem tilesWindow_hours {lo hi : Instant} (hlo : start ≤ lo) (hlt : lo < hi)
    (hhi : hi ≤ min stop watermark) (hwlo : hourOf lo = lo) (hwhi : hourOf hi = hi) :
    ({ hours := some (lo, hi), live := edges start stop lo hi } : ReadPlan).TilesWindow cal .hourly start
      stop (some watermark) := by
  have htile := edges_tile hlo hlt.le (hhi.trans (min_le_left _ _))
  -- an instant is in the range exactly when its hour is
  have hrange : ∀ t, hourOf t ∈ Set.Ico lo hi ↔ t ∈ Set.Ico lo hi := by
    intro t
    show lo ≤ hourOf t ∧ hourOf t < hi ↔ lo ≤ t ∧ t < hi
    rw [← hwlo, ← hwhi, ← hourOf_le_iff, ← not_le, ← hourOf_le_iff, not_le]
  constructor
  · exact htile.1
  · exact htile.2
  · intro r hr t ht t' hsame
    obtain rfl : (lo, hi) = r := Option.some.inj hr
    have hhour : hourOf t' = hourOf t := Bucket.hour.inj hsame
    rw [← hrange, hhour, hrange]
    exact ht
  · intro t
    refine mem_serves_hour.trans ((hrange t).trans ?_)
    simp [ReadPlan.rollupWindow]
  · intro r hr
    obtain rfl : (lo, hi) = r := Option.some.inj hr
    exact ⟨watermark, rfl, hhi.trans (min_le_right _ _)⟩

/-- The daily plan. -/
theorem tilesWindow_dates {first last : Day} (hlo : start ≤ cal.midnight first) (hle : first ≤ last)
    (hhi : cal.midnight (last + 1) ≤ min stop watermark) :
    ({ dates := some (first, last)
       live := edges start stop (cal.midnight first) (cal.midnight (last + 1)) } : ReadPlan).TilesWindow cal
      .daily start stop (some watermark) := by
  have hsucc : ∀ a b : Int, a ≤ b → a ≤ b + 1 := by intro a b; omega
  have hlast : ∀ a b : Int, a < b + 1 ↔ a ≤ b := by intro a b; omega
  have htile := edges_tile hlo (midnight_mono cal (hsucc _ _ hle)) (hhi.trans (min_le_left _ _))
  -- an instant is in the window exactly when its date is one of the span
  have hrange : ∀ t, t ∈ Set.Ico (cal.midnight first) (cal.midnight (last + 1)) ↔
      first ≤ cal.dateOf t ∧ cal.dateOf t ≤ last := by
    intro t
    rw [Set.mem_Ico, cal.midnight_le_iff, lt_midnight_iff]
    exact and_congr_right fun _ => hlast _ _
  constructor
  · exact htile.1
  · exact htile.2
  · intro r hr t ht t' hsame
    obtain rfl : (cal.midnight first, cal.midnight (last + 1)) = r := Option.some.inj hr
    have hdate : cal.dateOf t' = cal.dateOf t := Bucket.day.inj hsame
    rw [hrange, hdate, ← hrange]
    exact ht
  · intro t
    refine mem_serves_day.trans ((hrange t).symm.trans ?_)
    simp [ReadPlan.rollupWindow]
  · intro r hr
    obtain rfl : (cal.midnight first, cal.midnight (last + 1)) = r := Option.some.inj hr
    exact ⟨watermark, rfl, hhi.trans (min_le_right _ _)⟩

end Plans

/-- **A plan tiles the window**, at the hourly and at the daily grain. -/
theorem planRead_tiles (cal : Calendar) (start stop : Instant) (watermark : Option Instant) :
    (planRead cal .hourly start stop watermark).TilesWindow cal .hourly start stop watermark ∧
      (planRead cal .daily start stop watermark).TilesWindow cal .daily start stop watermark := by
  cases watermark with
  | none => exact ⟨tilesWindow_live cal .hourly start stop none, tilesWindow_live cal .daily start stop none⟩
  | some watermark =>
    constructor
    · show ReadPlan.TilesWindow (if hourOf (min stop watermark) ≤ ceilHour start then _ else _) _ _ _ _ _
      split
      · exact tilesWindow_live cal .hourly start stop _
      · next hlt =>
        exact tilesWindow_hours cal (ceilHour_spec start).1 (not_le.mp hlt) (hourOf_le _)
          (ceilHour_spec start).2 (hourOf_hourOf _)
    · obtain ⟨first, last, hfirst, hlast, hplan⟩ := planRead_daily cal start stop watermark
      rw [hplan]
      split
      · exact tilesWindow_live cal .daily start stop _
      · next hle => exact tilesWindow_dates cal hfirst (not_lt.mp hle) hlast

end RagPipeline.Analytics
