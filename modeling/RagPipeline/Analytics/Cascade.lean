/-
  RagPipeline.Analytics.Cascade — the writer of the rollup tables.

    * `foldGrains` — `_fold_grains`: hours from facts, days from facts or from the hours, months from the
                     days, each level replaced before the next one reads it;
    * `recompute`  — one definition, with a read of its own;
    * `foldAll`    — every definition, from one read for each source.

  `foldAll_eq`: the shared read is wider than a definition's own one, by hours and dates that the fold of
  the definition then leaves out; so `foldAll` is `recompute` for one definition after the other.

  A dict of dicts by key and then by measure name is one dict by both.  The rows of a table, and the
  members of a set, are lists; a `select` returns the rows in the order of the table.
-/
import RagPipeline.Analytics.TwoTier
import RagPipeline.Analytics.Reconcile

namespace RagPipeline.Analytics

open RagPipeline.Stage2 RagPipeline.Lib

/-! ## §1. Definitions and tables. -/

/-- A row of `registry.active_definitions`. -/
structure RegisteredMetric where
  id : ℕ
  /-- `source == "record"` -/
  ofRecords : Bool := false
  definition : MetricDefinition
  dimensions : List FieldName := []
  grains : List Grain
  rollupsFrom : Option Instant := none

/-- The rollup rows of one definition. -/
abbrev Rollups := Grain → List (RowKey × RollupRow)

/-- The rollup rows of all, by the id of the definition. -/
abbrev RollupStore := ℕ → Rollups

/-- What is read of dates: the instant a local date starts, `month_of` and `_month_end`. -/
structure DateArithmetic where
  midnight : Day → Instant
  monthOf : Day → Day
  monthEnd : Day → Day

variable (w : PythonTexts) (c : DateArithmetic)

/-! ## §2. `group_fold` and `_rows_for`. -/

/-- `_dim_key`. -/
def RegisteredMetric.dimKey (q : RegisteredMetric) (f : DatedFact) : List (Option String) :=
  let values := (q.dimensions.take dimensionSlots).map (f.dimension w)
  values ++ List.replicate (dimensionSlots - values.length) none

/-- The measures of one group that are not empty: `_rows_for`, before the columns. -/
def RegisteredMetric.rowsOf (q : RegisteredMetric) (g : (Bucket × List (Option String)) × Buckets) :
    List (RowKey × Roles) :=
  (q.definition.measures.map Measure.name).eraseDups.filterMap fun name =>
    (g.2 name).bind fun roles =>
      if roles.isEmpty then none else some ((g.1.1, name, g.1.2), roles)

/-- `group_fold`, by the buckets of `place`, and the rows of its groups. -/
def RegisteredMetric.rowsBy (q : RegisteredMetric) (place : DatedFact → Option Bucket) (facts : List DatedFact) :
    Option (List (RowKey × Roles)) :=
  (groupFold w q.definition (fun f => (place f).map fun b => (b, q.dimKey w f)) facts).map
    fun folded => folded.flatMap q.rowsOf

/-! ## §3. `_replace`. -/

/-- `_replace`: every row of the buckets goes, whatever was recomputed. -/
def replaceRows (buckets : List Bucket) (rows : List (RowKey × Roles)) (table : List (RowKey × RollupRow)) :
    Option (List (RowKey × RollupRow)) :=
  if buckets = [] then some table
  else
    (rows.mapM fun p => (insert (rowFor p.2)).map (Prod.mk p.1)).map fun written =>
      (table.filter fun r => decide (r.1.1 ∉ buckets)) ++ written

/-- A grain of a definition with other rows. -/
def Rollups.put (t : Rollups) (grain : Grain) (rows : Option (List (RowKey × RollupRow))) : Option Rollups :=
  rows.map (Function.update t grain)

/-! ## §4. The levels that read the level below. -/

/-- One turn of the loops of `_fold_daily_from_hourly` and `_fold_monthly`. -/
def mergeRow (place : Bucket → Option Bucket) (folded : OrderedDict RowKey Roles) (r : RowKey × RollupRow) :
    Option (OrderedDict RowKey Roles) :=
  match place r.1.1 with
  | none => some folded
  | some b =>
    (addRoles ((folded.get? (b, r.1.2)).getD {}) (cascadeRoles r.2)).map (folded.set (b, r.1.2))

/-- The rows of one level, merged into those of the next one. -/
def mergeRows (place : Bucket → Option Bucket) (rows : List (RowKey × RollupRow)) : Option (List (RowKey × Roles)) :=
  (rows.foldlM (mergeRow place) OrderedDict.empty).map fun folded =>
    folded.items.filter fun p => !p.2.isEmpty

/-- `local_day_span`. -/
def localDaySpan (day : Day) : Option (Instant × Instant) :=
  let lo := c.midnight day
  let hi := c.midnight (day + 1)
  if lo ≠ hourOf lo ∨ hi ≠ hourOf hi then none else some (lo, hi)

/-- `HOURLY_RETENTION_DAYS - DERIVE_MARGIN_DAYS`. -/
def derivableDays : ℤ := 90 - 2

/-- `daily_derivable`. -/
def dailyDerivable (today day : Day) : Bool :=
  if day < today - derivableDays then false else (localDaySpan c day).isSome

/-- The first of the days whose span holds an hour; an hour between two spans is in none. -/
def daySpanOf (days : List Day) : Bucket → Option Bucket
  | .hour start => (days.find? fun day =>
      (localDaySpan c day).any fun s => decide (s.1 ≤ start ∧ start < s.2)).map .day
  | .day _ => none

/-- `_fold_daily_from_hourly`. -/
def foldDailyFromHourly (days : List Day) (t : Rollups) : Option Rollups :=
  if days = [] then some t
  else t.put .daily ((mergeRows (daySpanOf c days) (t .hourly)).bind fun rows =>
    replaceRows (days.map .day) rows (t .daily))

/-- The month of a day that is asked for. -/
def monthIn (months : List Day) : Bucket → Option Bucket
  | .day day => if c.monthOf day ∈ months then some (.day (c.monthOf day)) else none
  | .hour _ => none

/-- The range that `_fold_monthly` reads. -/
def inMonths (months : List Day) : Bucket → Bool
  | .day day => months.min?.any (fun first => decide (first ≤ day)) &&
      months.max?.any fun last => decide (day ≤ c.monthEnd last)
  | .hour _ => false

/-- `_fold_monthly`. -/
def foldMonthly (months : List Day) (t : Rollups) : Option Rollups :=
  if months = [] then some t
  else t.put .monthly
    ((mergeRows (monthIn c months) ((t .daily).filter fun r => inMonths c months r.1.1)).bind fun rows =>
      replaceRows (months.map .day) rows (t .monthly))

/-! ## §5. `_fold_grains`. -/

/-- The hour of a fact, when it is one of the dirty ones. -/
def hourPlace (hours : List Instant) (f : DatedFact) : Option Bucket :=
  f.row.eventTime.bind fun t => if hourOf t ∈ hours then some (.hour (hourOf t)) else none

/-- The business date of a fact, when it is one of these. -/
def datePlace (dates : List Day) (f : DatedFact) : Option Bucket :=
  f.businessDate.bind fun d => if d ∈ dates then some (.day d) else none

/-- The hourly level. -/
def foldHourly (q : RegisteredMetric) (facts : List DatedFact) (hours : List Instant) (t : Rollups) :
    Option Rollups :=
  if .hourly ∈ q.grains then
    t.put .hourly ((q.rowsBy w (hourPlace hours) facts).bind fun rows =>
      replaceRows (hours.map .hour) rows (t .hourly))
  else some t

/-- The daily level: the days by fact, then those from the hours. -/
def foldDaily (q : RegisteredMetric) (facts : List DatedFact) (byFact derivable : List Day) (t : Rollups) :
    Option Rollups :=
  if .daily ∈ q.grains then
    (if byFact = [] then some t
      else t.put .daily ((q.rowsBy w (datePlace byFact) facts).bind fun rows =>
        replaceRows (byFact.map .day) rows (t .daily))).bind
      (foldDailyFromHourly c derivable)
  else some t

/-- **`_fold_grains`.** -/
def foldGrains (q : RegisteredMetric) (facts : List DatedFact) (hours : List Instant) (dates derivable : List Day)
    (t : Rollups) : Option Rollups := do
  let byFact := dates.filter fun d => decide (d ∉ derivable)
  let t ← foldHourly w q facts hours t
  let t ← foldDaily w c q facts byFact derivable t
  if .monthly ∈ q.grains then foldMonthly c (dates.map c.monthOf) t else some t

/-! ## §6. `recompute` and `fold_all`. -/

/-- `_route_dates`: the days merged from hours, and the days by fact. -/
def routeDates (q : RegisteredMetric) (dates : List Day) (today : Day) : List Day × List Day :=
  if .hourly ∉ q.grains then ([], dates)
  else
    let derivable := dates.filter (dailyDerivable c today)
    (derivable, dates.filter fun d => decide (d ∉ derivable))

/-- `min(hours) <= event_time < max(hours) + 1 hour`. -/
def inHourRange (hours : List Instant) (f : DatedFact) : Bool :=
  f.row.eventTime.any fun t => hours.min?.any (fun lo => decide (lo ≤ t)) &&
    hours.max?.any fun hi => decide (t < hi + oneHour)

/-- `min(dates) <= business_date <= max(dates)`. -/
def inDateRange (dates : List Day) (f : DatedFact) : Bool :=
  f.businessDate.any fun d => dates.min?.any (fun lo => decide (lo ≤ d)) &&
    dates.max?.any fun hi => decide (d ≤ hi)

/-- `_read_dirty_facts`, `_read_dirty_record_facts`: without hours and dates no condition holds. -/
def readDirtyFacts (hours : List Instant) (dates : List Day) (hidden : List String) (since : Option Instant)
    (facts : List DatedFact) : List DatedFact :=
  facts.filter fun f =>
    (inHourRange hours f || inDateRange dates f) && f.visible hidden && f.since since

/-- **`recompute`**, `recompute_records`. -/
def recompute (today : Day) (hidden : List String) (hours : List Instant) (dates : List Day)
    (facts : List DatedFact) (q : RegisteredMetric) (t : Rollups) : Option Rollups :=
  if hours = [] ∧ dates = [] then some t
  else
    let routed := routeDates c q dates today
    foldGrains w c q (readDirtyFacts hours routed.2 hidden q.rollupsFrom facts) hours dates routed.1 t

/-- What a fold does to the rows of one definition, in the store of all. -/
def RollupStore.run (store : RollupStore) (q : RegisteredMetric) (write : Rollups → Option Rollups) :
    Option RollupStore :=
  (write (store q.id)).map (Function.update store q.id)

/-- `_one_source` of `fold_all`. -/
def foldSource (today : Day) (hidden : List String) (hours : List Instant) (dates : List Day)
    (facts : List DatedFact) (metrics : List RegisteredMetric) (store : RollupStore) : Option RollupStore :=
  if metrics = [] ∨ (hours = [] ∧ dates = []) then some store
  else
    let byFactAll := metrics.flatMap fun q => (routeDates c q dates today).2
    let read := readDirtyFacts hours byFactAll hidden none facts
    metrics.foldlM (fun store q => store.run q
      (foldGrains w c q (read.filter fun f => f.since q.rollupsFrom) hours dates
        (routeDates c q dates today).1)) store

/-- `Changed`: what the writing outcomes of a run touched. -/
structure Changed where
  methods : List (Option String)
  names : List (Option String)

/-- `filter and not set(filter) & values`, the other way round. -/
def meets (filter : List String) (values : List (Option String)) : Bool :=
  filter.isEmpty || filter.any fun value => decide (some value ∈ values)

/-- **`concerns`.** -/
def concerns (d : MetricDefinition) (changed : Changed) : Bool :=
  meets d.methodFilter changed.methods && meets d.transactionFilter changed.names

/-- The definitions over transactions that are not skipped; a refold, without `changed`, skips none. -/
def transactionDefs (metrics : List RegisteredMetric) (changed : Option Changed) : List RegisteredMetric :=
  metrics.filter fun q => !q.ofRecords && changed.all (concerns q.definition)

/-- The definitions over records. -/
def recordDefs (metrics : List RegisteredMetric) : List RegisteredMetric := metrics.filter RegisteredMetric.ofRecords

/-- The dirty buckets of a source. -/
structure Dirty where
  hours : List Instant
  dates : List Day

/-- **`fold_all`.** -/
def foldAll (today : Day) (hidden : List String) (dirty recDirty : Dirty) (facts recordFacts : List DatedFact)
    (metrics : List RegisteredMetric) (changed : Option Changed) (store : RollupStore) : Option RollupStore :=
  (foldSource w c today hidden dirty.hours dirty.dates facts (transactionDefs metrics changed) store).bind
    (foldSource w c today hidden recDirty.hours recDirty.dates recordFacts (recordDefs metrics))

/-! ## §7. The shared read. -/

section SharedRead

variable {w c}

/-- **What a fold does not place, it may or may not read.** -/
theorem groupFold_filter_congr {κ : Type} [DecidableEq κ] {d : MetricDefinition} {keyOf : DatedFact → Option κ}
    {facts : List DatedFact} {p r : DatedFact → Bool} (h : ∀ f, keyOf f ≠ none → p f = r f) :
    groupFold w d keyOf (facts.filter p) = groupFold w d keyOf (facts.filter r) := by
  have hkeys : (facts.filter p).filterMap keyOf = (facts.filter r).filterMap keyOf := by
    rw [List.filterMap_filter, List.filterMap_filter]
    refine List.filterMap_congr fun f _ => ?_
    cases hf : keyOf f with
    | none => simp
    | some k => rw [h f (by simp [hf])]
  have hrows : ∀ k, groupRows keyOf (facts.filter p) k = groupRows keyOf (facts.filter r) k := by
    intro k
    unfold groupRows
    rw [List.filter_filter, List.filter_filter]
    congr 1
    refine List.filter_congr fun f _ => ?_
    by_cases hf : keyOf f = some k
    · rw [h f (by simp [hf])]
    · simp [hf]
  unfold groupFold
  rw [hkeys]
  refine congrArg (fun g => List.mapM g _) (funext fun k => ?_)
  rw [hrows k]

theorem rowsBy_filter_congr {q : RegisteredMetric} {place : DatedFact → Option Bucket} {facts : List DatedFact}
    {p r : DatedFact → Bool} (h : ∀ f, place f ≠ none → p f = r f) :
    q.rowsBy w place (facts.filter p) = q.rowsBy w place (facts.filter r) := by
  unfold RegisteredMetric.rowsBy
  rw [groupFold_filter_congr (r := r)]
  intro f hf
  refine h f fun hnone => hf ?_
  rw [hnone]
  rfl

/-- The least and the greatest member are around every other one. -/
theorem between_min?_max? {xs : List ℤ} {x : ℤ} (h : x ∈ xs) :
    ∃ lo hi, xs.min? = some lo ∧ xs.max? = some hi ∧ lo ≤ x ∧ x ≤ hi := by
  have hne : xs ≠ [] := List.ne_nil_of_mem h
  obtain ⟨lo, hlo⟩ := Option.isSome_iff_exists.mp (List.isSome_min?_of_mem h)
  obtain ⟨hi, hhi⟩ := Option.isSome_iff_exists.mp (List.isSome_max?_of_mem h)
  refine ⟨lo, hi, hlo, hhi, ?_, ?_⟩
  · exact (List.min?_eq_some_iff.mp hlo).2 x h
  · exact (List.max?_eq_some_iff.mp hhi).2 x h

/-- A fact of a dirty hour is in the range of the hours. -/
theorem inHourRange_of_place {hours : List Instant} {f : DatedFact} (h : hourPlace hours f ≠ none) :
    inHourRange hours f = true := by
  unfold hourPlace at h
  unfold inHourRange
  cases ht : f.row.eventTime with
  | none => simp [ht] at h
  | some t =>
    have hmem : hourOf t ∈ hours := by
      by_contra hno
      simp [ht, hno] at h
    obtain ⟨lo, hi, hlo, hhi, hle, hge⟩ := between_min?_max? hmem
    have hfirst := hourOf_le t
    have hlast := lt_hourOf_add t
    simp only [Option.any_some, hlo, hhi, Bool.and_eq_true, decide_eq_true_eq]
    constructor
    · exact le_trans hle hfirst
    · exact lt_of_lt_of_le hlast (by simpa using hge)

/-- A fact of one of some dates is in the range of the dates, and of any more. -/
theorem inDateRange_of_place {dates more : List Day} {f : DatedFact} (hsub : dates ⊆ more)
    (h : datePlace dates f ≠ none) : inDateRange more f = true := by
  unfold datePlace at h
  unfold inDateRange
  cases hd : f.businessDate with
  | none => simp [hd] at h
  | some d =>
    have hmem : d ∈ dates := by
      by_contra hno
      simp [hd, hno] at h
    obtain ⟨lo, hi, hlo, hhi, hle, hge⟩ := between_min?_max? (hsub hmem)
    simp [hlo, hhi, hle, hge]

/-- The days by fact are the dirty ones that are not merged from hours. -/
theorem routeDates_byFact (q : RegisteredMetric) (dates : List Day) (today : Day) :
    (dates.filter fun d => decide (d ∉ (routeDates c q dates today).1)) = (routeDates c q dates today).2 := by
  unfold routeDates
  split
  · simp
  · rfl

/-- **The fold of a definition does not see which read it gets**: reads that agree on the dirty hours and
    on the days by fact. -/
theorem foldGrains_filter_congr {q : RegisteredMetric} {facts : List DatedFact} {p r : DatedFact → Bool}
    {hours : List Instant} {dates derivable : List Day} {t : Rollups}
    (hhours : ∀ f, hourPlace hours f ≠ none → p f = r f)
    (hdates : ∀ f, datePlace (dates.filter fun d => decide (d ∉ derivable)) f ≠ none → p f = r f) :
    foldGrains w c q (facts.filter p) hours dates derivable t =
      foldGrains w c q (facts.filter r) hours dates derivable t := by
  unfold foldGrains foldHourly foldDaily
  rw [rowsBy_filter_congr hhours]
  simp only [rowsBy_filter_congr hdates]

/-- **One definition gets from the shared read what it gets from its own.** -/
theorem foldGrains_shared {today : Day} {hidden : List String} {hours : List Instant} {dates byFactAll : List Day}
    {facts : List DatedFact} {q : RegisteredMetric} {t : Rollups}
    (hall : (routeDates c q dates today).2 ⊆ byFactAll) :
    foldGrains w c q ((readDirtyFacts hours byFactAll hidden none facts).filter fun f => f.since q.rollupsFrom)
        hours dates (routeDates c q dates today).1 t =
      foldGrains w c q (readDirtyFacts hours (routeDates c q dates today).2 hidden q.rollupsFrom facts)
        hours dates (routeDates c q dates today).1 t := by
  unfold readDirtyFacts
  rw [List.filter_filter]
  apply foldGrains_filter_congr
  · intro f hf
    rw [inHourRange_of_place hf]
    simp [DatedFact.since, Bool.and_comm]
  · intro f hf
    rw [routeDates_byFact] at hf
    rw [inDateRange_of_place hall hf, inDateRange_of_place (List.Subset.refl _) hf]
    simp [DatedFact.since, Bool.and_comm]

end SharedRead

/-! ## §8. Every definition alone. -/

/-- `recompute` for one definition after the other. -/
def recomputeEach (today : Day) (hidden : List String) (dirty : Dirty) (facts : List DatedFact)
    (metrics : List RegisteredMetric) (store : RollupStore) : Option RollupStore :=
  metrics.foldlM (fun store q => store.run q (recompute w c today hidden dirty.hours dirty.dates facts q)) store

theorem run_some (store : RollupStore) (q : RegisteredMetric) : store.run q some = some store := by
  unfold RollupStore.run
  rw [Option.map_some, Function.update_eq_self]

/-- Nothing dirty, nothing recomputed. -/
theorem recomputeEach_clean (today : Day) (hidden : List String) (facts : List DatedFact)
    (metrics : List RegisteredMetric) (store : RollupStore) :
    recomputeEach w c today hidden ⟨[], []⟩ facts metrics store = some store := by
  unfold recomputeEach
  induction metrics with
  | nil => rfl
  | cons q metrics ih =>
    rw [List.foldlM_cons]
    have hq : recompute w c today hidden [] [] facts q = some := by
      funext t
      simp [recompute]
    simp only [hq, run_some] at ih ⊢
    exact ih

/-- **One source.** -/
theorem foldSource_eq (today : Day) (hidden : List String) (dirty : Dirty) (facts : List DatedFact)
    (metrics : List RegisteredMetric) (store : RollupStore) :
    foldSource w c today hidden dirty.hours dirty.dates facts metrics store =
      recomputeEach w c today hidden dirty facts metrics store := by
  unfold foldSource
  by_cases hnone : metrics = [] ∨ (dirty.hours = [] ∧ dirty.dates = [])
  · rw [if_pos hnone]
    cases hnone with
    | inl hmetrics => rw [hmetrics]; rfl
    | inr hclean =>
      have hdirty : dirty = ⟨[], []⟩ := by
        cases dirty
        simp_all
      rw [hdirty, recomputeEach_clean]
  · rw [if_neg hnone]
    have hdirty : ¬(dirty.hours = [] ∧ dirty.dates = []) := fun h => hnone (Or.inr h)
    unfold recomputeEach
    apply foldlM_congr_mem
    intro q hq s
    -- the shared dates hold those of every definition of the list
    have hall : (routeDates c q dirty.dates today).2 ⊆
        metrics.flatMap fun q => (routeDates c q dirty.dates today).2 := fun d hd =>
      List.mem_flatMap.mpr ⟨q, hq, hd⟩
    unfold RollupStore.run recompute
    rw [if_neg hdirty, foldGrains_shared hall]

/-- `fold_all` is `recompute` for one definition after the other, failures included. -/
theorem foldAll_eq (today : Day) (hidden : List String) (dirty recDirty : Dirty)
    (facts recordFacts : List DatedFact) (metrics : List RegisteredMetric) (changed : Option Changed)
    (store : RollupStore) :
    foldAll w c today hidden dirty recDirty facts recordFacts metrics changed store =
      (recomputeEach w c today hidden dirty facts (transactionDefs metrics changed) store).bind
        (recomputeEach w c today hidden recDirty recordFacts (recordDefs metrics)) := by
  unfold foldAll
  rw [foldSource_eq]
  exact congrArg _ (funext fun s => foldSource_eq w c today hidden recDirty recordFacts _ s)

/-- The definitions that `fold_all` folds. -/
def foldedDefs (metrics : List RegisteredMetric) (changed : Option Changed) : List RegisteredMetric :=
  transactionDefs metrics changed ++ recordDefs metrics

/-- `recompute` or `recompute_records`, whichever a definition takes. -/
def recomputeAlone (today : Day) (hidden : List String) (dirty recDirty : Dirty)
    (facts recordFacts : List DatedFact) (q : RegisteredMetric) : Rollups → Option Rollups :=
  if q.ofRecords then recompute w c today hidden recDirty.hours recDirty.dates recordFacts q
  else recompute w c today hidden dirty.hours dirty.dates facts q

/-- One definition after the other is every one on its own: none writes the rows of another. -/
theorem runs_iff {write : RegisteredMetric → Rollups → Option Rollups} {metrics : List RegisteredMetric}
    (hids : (metrics.map RegisteredMetric.id).Nodup) (store store' : RollupStore) :
    metrics.foldlM (fun store q => store.run q (write q)) store = some store' ↔
      (∀ q ∈ metrics, write q (store q.id) = some (store' q.id)) ∧
        ∀ i, i ∉ metrics.map RegisteredMetric.id → store' i = store i := by
  induction metrics generalizing store with
  | nil =>
    constructor
    · intro h
      obtain rfl := Option.some.inj h
      simp
    · intro h
      have heq : store' = store := funext fun i => h.2 i List.not_mem_nil
      rw [heq]
      rfl
  | cons q metrics ih =>
    rw [List.map_cons, List.nodup_cons] at hids
    -- no later metric writes over the first
    have hother : ∀ x ∈ metrics, x.id ≠ q.id := fun x hx he => hids.1 (he ▸ List.mem_map_of_mem hx)
    rw [List.foldlM_cons]
    cases hq : write q (store q.id) with
    | none =>
      constructor
      · intro h
        rw [RollupStore.run, hq] at h
        cases h
      · intro h
        have := h.1 q List.mem_cons_self
        rw [hq] at this
        cases this
    | some t =>
      have hrun : store.run q (write q) = some (Function.update store q.id t) := by
        rw [RollupStore.run, hq]
        rfl
      rw [hrun]
      show metrics.foldlM _ (Function.update store q.id t) = some store' ↔ _
      rw [ih hids.2]
      constructor
      · intro ⟨heach, hrest⟩
        have hself : store' q.id = t := by
          rw [hrest q.id hids.1, Function.update_self]
        constructor
        · intro x hx
          cases List.mem_cons.mp hx with
          | inl he => rw [he, hq, hself]
          | inr hx => rw [← heach x hx, Function.update_of_ne (hother x hx)]
        · intro i hi
          rw [List.map_cons, List.mem_cons, not_or] at hi
          rw [hrest i hi.2, Function.update_of_ne hi.1]
      · intro ⟨heach, hrest⟩
        have hself : store' q.id = t := by
          have := heach q List.mem_cons_self
          rw [hq] at this
          exact (Option.some.inj this).symm
        constructor
        · intro x hx
          rw [Function.update_of_ne (hother x hx)]
          exact heach x (List.mem_cons_of_mem _ hx)
        · intro i hi
          by_cases he : i = q.id
          · rw [he, hself, Function.update_self]
          · rw [Function.update_of_ne he]
            refine hrest i ?_
            rw [List.map_cons, List.mem_cons, not_or]
            exact ⟨he, hi⟩

theorem foldedDefs_nodup {metrics : List RegisteredMetric} {changed : Option Changed}
    (hids : (metrics.map RegisteredMetric.id).Nodup) :
    ((foldedDefs metrics changed).map RegisteredMetric.id).Nodup := by
  unfold foldedDefs
  rw [List.map_append, List.nodup_append]
  refine ⟨hids.sublist (List.filter_sublist.map _), hids.sublist (List.filter_sublist.map _), ?_⟩
  intro i hi j hj he
  obtain ⟨x, hx, rfl⟩ := List.mem_map.mp hi
  obtain ⟨y, hy, rfl⟩ := List.mem_map.mp hj
  obtain ⟨hxm, hxt⟩ := List.mem_filter.mp hx
  obtain ⟨hym, hyr⟩ := List.mem_filter.mp hy
  have hxy : x = y := List.inj_on_of_nodup_map hids hxm hym he
  rw [hxy, hyr] at hxt
  cases hxt

/-- **`fold_all` writes for each definition what `recompute` writes for it alone**, and nothing else. -/
theorem foldAll_iff {today : Day} {hidden : List String} {dirty recDirty : Dirty}
    {facts recordFacts : List DatedFact} {metrics : List RegisteredMetric} {changed : Option Changed}
    {store store' : RollupStore} (hids : (metrics.map RegisteredMetric.id).Nodup) :
    foldAll w c today hidden dirty recDirty facts recordFacts metrics changed store = some store' ↔
      (∀ q ∈ foldedDefs metrics changed,
        recomputeAlone w c today hidden dirty recDirty facts recordFacts q (store q.id) = some (store' q.id)) ∧
      ∀ i, i ∉ (foldedDefs metrics changed).map RegisteredMetric.id → store' i = store i := by
  rw [← runs_iff (foldedDefs_nodup hids), foldAll_eq]
  have htransactions : ∀ s : RollupStore, recomputeEach w c today hidden dirty facts (transactionDefs metrics changed) s =
      (transactionDefs metrics changed).foldlM (fun store q => store.run q
        (recomputeAlone w c today hidden dirty recDirty facts recordFacts q)) s := by
    refine foldlM_congr_mem fun q hq s => ?_
    have hsource : q.ofRecords = false := by
      have := (List.mem_filter.mp hq).2
      simp only [Bool.and_eq_true, Bool.not_eq_true'] at this
      exact this.1
    unfold recomputeAlone
    rw [hsource]
    rfl
  have hrecords : ∀ s : RollupStore, recomputeEach w c today hidden recDirty recordFacts (recordDefs metrics) s =
      (recordDefs metrics).foldlM (fun store q => store.run q
        (recomputeAlone w c today hidden dirty recDirty facts recordFacts q)) s := by
    refine foldlM_congr_mem fun q hq s => ?_
    unfold recomputeAlone
    rw [(List.mem_filter.mp hq).2]
    rfl
  unfold foldedDefs
  rw [List.foldlM_append, htransactions]
  rw [funext hrecords]
  rfl

end RagPipeline.Analytics
