/-
  RagPipeline.Retention.Worker — the partition worker: which day's partition one tick drops.

  A partition goes when it is past ITS retention (`droppableDays`; entries and assignments one day
  later than transactions) and nothing holds it (`blocked`):

    * an open stitch window touches the day (`overlaps`);
    * a live consumer has not passed the day's end (`blocksUntil`, the minimum over the live ones);
    * analytics is broken in a way that makes the source worth keeping (`heldByAnalytics`).

  The three log tables are cut by UTC day, so a period is a day; of the analytics tables only the facts
  are here, for what is said about them: they are never dropped.  A tick that fails is rolled back.
-/
import RagPipeline.Stage2.Store

namespace RagPipeline.Retention

open RagPipeline.Stage2

/-! ## §1. Days. -/

/-- One UTC day. -/
def dayLength : Duration := 86400 * second

/-- `day_start`: midnight UTC. -/
def dayStart (d : Day) : Instant := d * dayLength

/-- The UTC day of an instant. -/
def dayOf (t : Instant) : Day := t / dayLength

theorem dayStart_le {d d' : Day} (h : d ≤ d') : dayStart d ≤ dayStart d' := by
  have hmul : ∀ a b : Int, a ≤ b → a * (86400 * 1000000) ≤ b * (86400 * 1000000) := by
    intro a b hab
    omega
  exact hmul d d' h

theorem dayOf_le {t t' : Instant} (h : t ≤ t') : dayOf t ≤ dayOf t' := by
  have hdiv : ∀ a b : Int, a ≤ b → a / (86400 * 1000000) ≤ b / (86400 * 1000000) := by
    intro a b hab
    omega
  exact hdiv t t' h

/-! ## §2. Retention. -/

/-- The partitioned tables the results below are about. -/
inductive PartitionedTable where
  | logEntries | logTransactions | logEntryAssignment | analyticsFacts
  deriving DecidableEq, Repr

/-- The settings of the worker, with their defaults. -/
structure RetentionSettings where
  logPartitionRetentionDays : Int := 60
  analyticsRetentionGateEnabled : Bool := true
  analyticsRetentionHoldMaxDays : Int := 14
  consumerCursorStaleAfter : Duration := 86400 * second

/-- `KEEP_FOREVER`. -/
def keepForever : PartitionedTable → Bool
  | .analyticsFacts => true
  | _ => false

/-- `_LAG_ONE_DAY`. -/
def lagsOneDay : PartitionedTable → Bool
  | .logEntries | .logEntryAssignment => true
  | _ => false

/-- `retention_days_for`. -/
def retentionDaysFor (c : RetentionSettings) (table : PartitionedTable) : Option Int :=
  if keepForever table then none
  else some (c.logPartitionRetentionDays + if lagsOneDay table then 1 else 0)

/-- `expired_days`: strictly older than the cutoff. -/
def expiredDays (covered : List Day) (today : Day) (retention : Int) : List Day :=
  (covered.filter fun d => decide (d < today - retention)).insertionSort (· ≤ ·)

/-- `droppable_days`. -/
def droppableDays (c : RetentionSettings) (table : PartitionedTable) (covered : List Day)
    (today : Day) : List Day :=
  match retentionDaysFor c table with
  | none => []
  | some retention => expiredDays covered today retention

/-! ## §3. Holds. -/

/-- An open row of `log_regroup_pending`. -/
structure StitchWindow where
  rangeStart : Instant
  rangeEnd : Instant
  deriving DecidableEq, Repr

/-- `_overlaps`. -/
def StitchWindow.overlaps (w : StitchWindow) (d : Day) : Bool :=
  decide (w.rangeStart < dayStart (d + 1) ∧ dayStart d ≤ w.rangeEnd)

/-- A row of `consumer_cursors`. -/
structure Cursor where
  position : Instant
  updatedAt : Instant

/-- `is_live`. -/
def Cursor.isLive (c : RetentionSettings) (now : Instant) (x : Cursor) : Bool :=
  decide (now - x.updatedAt ≤ c.consumerCursorStaleAfter)

/-- `min_live_position`. -/
def minLivePosition (c : RetentionSettings) (now : Instant) (cursors : List Cursor) : Option Instant :=
  ((cursors.filter (Cursor.isLive c now)).map Cursor.position).min?

/-- `blocks_until`. -/
def blocksUntil (stop : Instant) (minPosition : Option Instant) : Bool :=
  match minPosition with
  | none => false
  | some p => decide (p < stop)

/-- What the health gate reads of one tenant. -/
structure TenantHealth where
  abandonedTicket : Bool
  lastCycleFailed : Bool
  lastCycleAt : Option Instant

/-- A tenant that holds retention: broken, and not for longer than the cap. -/
def TenantHealth.holds (c : RetentionSettings) (now : Instant) (t : TenantHealth) : Bool :=
  (t.abandonedTicket || t.lastCycleFailed) &&
    match t.lastCycleAt with
    | none => true
    | some at_ => decide (now - at_ ≤ c.analyticsRetentionHoldMaxDays * dayLength)

/-- What a tick reads besides the partitions; `health` is `none` when it could not be read. -/
structure TickInput where
  today : Day
  now : Instant
  pending : List StitchWindow
  cursors : List Cursor
  health : Option (List TenantHealth)

/-- `periods_blocked_by_analytics`, for the source tables: fails closed. -/
def heldByAnalytics (c : RetentionSettings) (i : TickInput) : Bool :=
  c.analyticsRetentionGateEnabled &&
    match i.health with
    | none => true
    | some rows => rows.any (TenantHealth.holds c i.now)

/-- `periods_blocked`, for a day of a source table. -/
def blocked (c : RetentionSettings) (i : TickInput) (d : Day) : Bool :=
  (i.pending.any fun w => w.overlaps d) ||
    blocksUntil (dayStart (d + 1)) (minLivePosition c i.now i.cursors) || heldByAnalytics c i

/-- `_drop_expired`: the days of one table that a tick drops. -/
def droppedDays (c : RetentionSettings) (i : TickInput) (table : PartitionedTable)
    (covered : List Day) : List Day :=
  (droppableDays c table covered i.today).filter fun d => !blocked c i d

/-! ## §4. What is dropped. -/

theorem mem_expiredDays {covered : List Day} {today : Day} {retention : Int} {d : Day} :
    d ∈ expiredDays covered today retention ↔ d ∈ covered ∧ d < today - retention := by
  simp [expiredDays]

/-- **The facts are never dropped**, whatever the settings. -/
theorem droppedDays_analyticsFacts (c : RetentionSettings) (i : TickInput) (covered : List Day) :
    droppedDays c i .analyticsFacts covered = [] := rfl

/-- A day of a log table that is dropped: covered, past retention, and held by nothing. -/
theorem mem_droppedDays {c : RetentionSettings} {i : TickInput} {table : PartitionedTable}
    {covered : List Day} {d : Day} (ht : keepForever table = false) :
    d ∈ droppedDays c i table covered ↔
      d ∈ covered ∧ d < i.today - (c.logPartitionRetentionDays + if lagsOneDay table then 1 else 0) ∧
        blocked c i d = false := by
  simp [droppedDays, droppableDays, retentionDaysFor, ht, mem_expiredDays, and_assoc]

/-- What holds no day holds nothing before it either, but for the stitch windows. -/
theorem blocked_of_le {c : RetentionSettings} {i : TickInput} {d d' : Day} (h : d ≤ d')
    (hd' : blocked c i d' = false) :
    blocked c i d = (i.pending.any fun w => w.overlaps d) := by
  simp only [blocked, Bool.or_eq_false_iff] at hd'
  obtain ⟨⟨-, hcursor⟩, hhealth⟩ := hd'
  have hle : dayStart (d + 1) ≤ dayStart (d' + 1) := dayStart_le (Int.add_le_add_right h 1)
  have hcursor' : blocksUntil (dayStart (d + 1)) (minLivePosition c i.now i.cursors) = false := by
    cases hm : minLivePosition c i.now i.cursors with
    | none => rfl
    | some p =>
        simp only [blocksUntil, hm, decide_eq_false_iff_not] at hcursor ⊢
        intro hp
        exact hcursor (lt_of_lt_of_le hp hle)
  rw [blocked, hcursor', hhealth, Bool.or_false, Bool.or_false]

/-- The consumers hold a day exactly when a live one has not passed its end. -/
theorem blocksUntil_iff {c : RetentionSettings} {now : Instant} {cursors : List Cursor} {stop : Instant} :
    blocksUntil stop (minLivePosition c now cursors) = true ↔
      ∃ x ∈ cursors, x.isLive c now = true ∧ x.position < stop := by
  cases hm : minLivePosition c now cursors with
  | none =>
      have hnil := List.min?_eq_none_iff.mp hm
      simp only [blocksUntil, Bool.false_eq_true, false_iff, not_exists, not_and]
      intro x hx hlive
      have hmem : x.position ∈ (cursors.filter (Cursor.isLive c now)).map Cursor.position :=
        List.mem_map.mpr ⟨x, List.mem_filter.mpr ⟨hx, hlive⟩, rfl⟩
      rw [hnil] at hmem
      exact absurd hmem (by simp)
  | some p =>
      obtain ⟨hmem, hle⟩ := List.min?_eq_some_iff.mp hm
      simp only [blocksUntil, decide_eq_true_eq]
      constructor
      · intro hp
        obtain ⟨x, hx, rfl⟩ := List.mem_map.mp hmem
        obtain ⟨hxmem, hlive⟩ := List.mem_filter.mp hx
        exact ⟨x, hxmem, hlive, hp⟩
      · rintro ⟨x, hx, hlive, hpos⟩
        have hxle := hle x.position (List.mem_map.mpr ⟨x, List.mem_filter.mpr ⟨hx, hlive⟩, rfl⟩)
        exact lt_of_le_of_lt hxle hpos

/-- A live consumer that has not passed the end of a day holds it. -/
theorem blocked_of_cursor {c : RetentionSettings} {i : TickInput} {d : Day} {x : Cursor}
    (hx : x ∈ i.cursors) (hlive : x.isLive c i.now = true) (hp : x.position < dayStart (d + 1)) :
    blocked c i d = true := by
  have hheld := blocksUntil_iff.mpr ⟨x, hx, hlive, hp⟩
  simp [blocked, hheld]

/-- Another consumer releases nothing. -/
theorem blocked_append {c : RetentionSettings} {i : TickInput} {d : Day} (xs : List Cursor)
    (h : blocked c i d = true) : blocked c { i with cursors := xs ++ i.cursors } d = true := by
  simp only [blocked, Bool.or_eq_true, blocksUntil_iff] at h ⊢
  rcases h with (hp | ⟨x, hx, hrest⟩) | hh
  · exact Or.inl (Or.inl hp)
  · exact Or.inl (Or.inr ⟨x, List.mem_append.mpr (Or.inr hx), hrest⟩)
  · exact Or.inr hh

end RagPipeline.Retention
