/-
  RagPipeline.Analytics.Reads — `series`: one measure over a window, from the rollups below the
  watermark and from the facts elsewhere.

    * `planRead`     — which whole buckets come from the rollups, and which spans are read live;
    * `foldPoints`   — facts into one point for each bucket and group, as the live tier makes them;
    * `rollupPoints` — stored rows into points;
    * `series`       — both, merged with `add_roles`; `none` is an exception;
    * `directPoints` — the metric over the visible facts of the window, for comparison.

  The request is one that `resolve` serves from the rollups; the translation of lookups afterwards is
  left out.
-/
import RagPipeline.Analytics.Tally
import RagPipeline.Stage2.Compute

namespace RagPipeline.Analytics

open RagPipeline.Stage2 RagPipeline.Lib

/-! ## §1. Facts, metrics and requests. -/

/-- A fact row with its business date. -/
structure DatedFact where
  row : FactRow
  businessDate : Option Day := none

/-- `Grain`. -/
inductive Grain where
  | hourly | daily | monthly
  deriving DecidableEq, Repr

/-- A bucket of the hourly table, or of the daily one. -/
inductive Bucket where
  | hour (start : Instant)
  | day (date : Day)
  deriving DecidableEq, Repr

/-- `DIMENSION_SLOTS`. -/
abbrev dimensionSlots : ℕ := 6

/-- A measure of a metric, and the fields to group it by: each is a dimension in one of the slots. -/
structure Request where
  definition : MetricDefinition
  names : (definition.measures.map Measure.name).Nodup
  dimensions : List FieldName
  rollupsFrom : Option Instant := none
  measure : Measure
  declared : measure ∈ definition.measures
  groupBy : List FieldName
  slotted : ∀ g ∈ groupBy, g ∈ dimensions.take dimensionSlots

/-- `str(raw)`. -/
def Raw.text : Raw → Option String
  | .none => Option.none
  | .bool value => some (if value then "True" else "False")
  | .int value => some (toString value)
  | .float shown => some shown
  | .decimal _ shown => some shown
  | .str value => some value
  | .other shown => some shown

/-- `dimension_value`. -/
def dimensionValue (w : PythonTexts) (raw : Raw) : Option String :=
  raw.text.bind fun text => if w.strip text = "" then none else some (w.strip text)

/-- One dimension of a fact. -/
def DatedFact.dimension (w : PythonTexts) (f : DatedFact) (name : FieldName) : Option String :=
  dimensionValue w (f.row.resolveField name)

/-- One hour. -/
def oneHour : Duration := 3600 * second

/-- `hour_of`, `_floor_hour`. -/
def hourOf (t : Instant) : Instant := t - t % oneHour

/-- `_ceil_hour`. -/
def ceilHour (t : Instant) : Instant := if hourOf t = t then t else hourOf t + oneHour

/-- The bucket the live tier puts a fact in: every grain but the hourly one goes by business date. -/
def bucketOf (grain : Grain) (f : DatedFact) : Option Bucket :=
  match grain with
  | .hourly => f.row.eventTime.map fun t => .hour (hourOf t)
  | _ => f.businessDate.map .day

/-- The local calendar of a tenant: the date of an instant, and the instant a date starts; `utcDate` is
what a date column compares an instant by. -/
structure Calendar where
  utcDate : Instant → Day
  dateOf : Instant → Day
  midnight : Day → Instant
  midnight_le_iff : ∀ t d, midnight d ≤ t ↔ d ≤ dateOf t

/-! ## §2. `plan_read`. -/

/-- `ReadPlan`: the whole buckets, as a range of instants or of dates, and the live spans. -/
structure ReadPlan where
  hours : Option (Instant × Instant) := none
  dates : Option (Day × Day) := none
  live : List (Instant × Instant)

/-- `_edges`. -/
def edges (start stop lo hi : Instant) : List (Instant × Instant) :=
  (if start < lo then [(start, lo)] else []) ++ (if hi < stop then [(hi, stop)] else [])

/-- **`plan_read`** on a bounded window: only the daily grain is planned by dates. -/
def planRead (cal : Calendar) (grain : Grain) (start stop : Instant) (watermark : Option Instant) :
    ReadPlan :=
  match watermark with
  | none => { live := [(start, stop)] }
  | some watermark =>
    let settled := min stop watermark
    match grain with
    | .daily =>
      let startDate := cal.dateOf start
      let first := if start ≤ cal.midnight startDate then startDate else startDate + 1
      let endDate := cal.dateOf settled
      let last := if cal.midnight (endDate + 1) ≤ settled then endDate else endDate - 1
      if last < first then { live := [(start, stop)] }
      else
        { dates := some (first, last)
          live := edges start stop (cal.midnight first) (cal.midnight (last + 1)) }
    | _ =>
      let lo := ceilHour start
      let hi := hourOf settled
      if hi ≤ lo then { live := [(start, stop)] }
      else { hours := some (lo, hi), live := edges start stop lo hi }

/-- The stored buckets a plan reads. -/
def ReadPlan.serves (cal : Calendar) (plan : ReadPlan) : Bucket → Bool
  | .hour start => plan.hours.any fun r => decide (r.1 ≤ start ∧ start < r.2)
  | .day date =>
    match plan.dates with
    | some r => decide (r.1 ≤ date ∧ date ≤ r.2)
    -- a monthly request: the daily table between two instants
    | none => plan.hours.any fun r => decide (cal.utcDate r.1 ≤ date ∧ date < cal.utcDate r.2)

/-! ## §3. Points. -/

/-- A bucket and the values of the requested fields. -/
abbrev Key := Bucket × List (Option String)

/-- An answer. -/
abbrev Points := Key → Option Roles

variable (w : PythonTexts)

/-- The facts of a group. -/
def groupRows {κ : Type} [DecidableEq κ] (keyOf : DatedFact → Option κ) (facts : List DatedFact) (k : κ) :
    List FactRow :=
  (facts.filter fun f => decide (keyOf f = some k)).map DatedFact.row

/-- `group_fold`: a fact without a key is in no group. -/
def groupFold {κ : Type} [DecidableEq κ] (d : MetricDefinition) (keyOf : DatedFact → Option κ)
    (facts : List DatedFact) : Option (List (κ × Buckets)) :=
  (facts.filterMap keyOf).dedup.mapM fun k =>
    (foldRows w d (groupRows keyOf facts k)).map (Prod.mk k)

/-- The key of a fact: the padded key of `_dim_key`, trimmed to the requested fields again, is the list
    of their values. -/
def Request.keyOf (q : Request) (grain : Grain) (f : DatedFact) : Option Key :=
  (bucketOf grain f).map fun b => (b, q.groupBy.map (f.dimension w))

/-- A group that contributed nothing to the measure is no data; the others are added to nothing, since
    no two groups have one key. -/
def Request.pointOf (q : Request) (p : Key × Buckets) : Option (Option (Key × Roles)) :=
  match p.2 q.measure.name with
  | none => some none
  | some roles =>
    if roles.isEmpty then some none else (addRoles {} roles).map fun r => some (p.1, r)

/-- `_live_points`, once the facts are read. -/
def foldPoints (q : Request) (grain : Grain) (facts : List DatedFact) : Option (List (Key × Roles)) :=
  (groupFold w q.definition (q.keyOf w grain) facts).bind fun folded =>
    (folded.mapM q.pointOf).map List.reduceOption

/-- `points[key] = add_roles(points.get(key, {}), roles)`. -/
def addPoint (points : Points) (p : Key × Roles) : Option Points :=
  (addRoles ((points p.1).getD {}) p.2).map fun r => Function.update points p.1 (some r)

/-- A row of a rollup table, of the definition and the measure that are read. -/
structure StoredRow where
  bucket : Bucket
  dims : List (Option String)
  row : RollupRow

/-- The requested slots of a stored row. -/
def Request.slots (q : Request) (dims : List (Option String)) : List (Option String) :=
  q.groupBy.map fun g => dims.getD (q.dimensions.idxOf g) none

/-- One row of `_rollup_points`. -/
def Request.readRow (q : Request) (r : StoredRow) : Option (Key × Roles) :=
  (readerRoles r.row).map fun roles => ((r.bucket, q.slots r.dims), roles)

/-- `_rollup_points`. -/
def rollupPoints (cal : Calendar) (q : Request) (plan : ReadPlan) (table : List StoredRow) : Option Points :=
  (table.filter fun r => plan.serves cal r.bucket).foldlM
    (fun points r => (q.readRow r).bind (addPoint points)) fun _ => none

/-! ## §4. `series`. -/

/-- `AD_HOC_MAX_ROWS`. -/
def adHocMaxRows : ℕ := 200000

/-- `lo ≤ event_time < hi`; a missing instant is in no span. -/
def DatedFact.inSpan (f : DatedFact) (lo hi : Instant) : Bool :=
  match f.row.eventTime with
  | none => false
  | some t => decide (lo ≤ t ∧ t < hi)

/-- The facts of the live spans. -/
def ReadPlan.liveFacts (plan : ReadPlan) (facts : List DatedFact) : List DatedFact :=
  facts.filter fun f => plan.live.any fun s => f.inSpan s.1 s.2

/-- The window from `rollups_from` on. -/
def Request.clamp (q : Request) (start : Instant) : Instant :=
  match q.rollupsFrom with
  | none => start
  | some bound => max start bound

/-- The plan of a request. -/
def Request.plan (q : Request) (cal : Calendar) (grain : Grain) (start stop : Instant)
    (watermark : Option Instant) : ReadPlan :=
  planRead cal grain (q.clamp start) stop watermark

/-- **`series`**: a window that ends at `rollups_from` or before has no history. -/
def series (cal : Calendar) (q : Request) (grain : Grain) (start stop : Instant)
    (watermark : Option Instant) (table : List StoredRow) (facts : List DatedFact) : Option Points :=
  if q.rollupsFrom.any fun bound => decide (start < bound ∧ stop ≤ bound) then some fun _ => none
  else do
    let plan := q.plan cal grain start stop watermark
    let points ← rollupPoints cal q plan table
    let live ← foldPoints w q grain ((plan.liveFacts facts).take adHocMaxRows)
    live.foldlM addPoint points

/-! ## §5. The metric itself. -/

/-- `_read_dirty_facts`: hidden names are left out, and no name is never hidden. -/
def DatedFact.visible (hidden : List String) (f : DatedFact) : Bool :=
  match f.row.transactionName with
  | none => true
  | some name => decide (name ∉ hidden)

/-- `_since`. -/
def DatedFact.since (bound : Option Instant) (f : DatedFact) : Bool :=
  match bound with
  | none => true
  | some bound =>
    match f.row.eventTime with
    | none => false
    | some t => decide (bound ≤ t)

/-- The answer a list of points is. -/
def pointsOf (items : List (Key × Roles)) : Points := fun k =>
  (items.find? fun p => decide (p.1 = k)).map Prod.snd

/-- The metric, computed from the visible facts of the window. -/
def directPoints (q : Request) (grain : Grain) (start stop : Instant) (hidden : List String)
    (facts : List DatedFact) : Option Points :=
  (foldPoints w q grain (facts.filter fun f =>
    f.visible hidden && f.inSpan (q.clamp start) stop)).map pointsOf

/-- The values of a fact in the slots of its rollup row. -/
def Request.dimsOf (q : Request) (f : DatedFact) : List (Option String) :=
  (q.dimensions.take dimensionSlots).map (f.dimension w)

/-- The facts that a stored bucket summarises. -/
def Request.bucketFacts (q : Request) (grain : Grain) (hidden : List String) (facts : List DatedFact)
    (b : Bucket) : List DatedFact :=
  facts.filter fun f => f.visible hidden && f.since q.rollupsFrom &&
    decide (bucketOf grain f = some b)

/-- Which table a bucket is of: a grain is read from the hourly table or from the daily one. -/
def Bucket.InTableOf (grain : Grain) : Bucket → Prop
  | .hour _ => grain = .hourly
  | .day _ => grain ≠ .hourly

/-- Where a bucket ends. -/
def Bucket.stop (cal : Calendar) : Bucket → Instant
  | .hour start => hourOf start + oneHour
  | .day date => cal.midnight (date + 1)

/-- A fact is filed under the local date of its instant. -/
def DatedFact.Dated (cal : Calendar) (f : DatedFact) : Prop :=
  f.businessDate = f.row.eventTime.map cal.dateOf

/-- The rows of a bucket are those that the fold of its facts writes, as the columns store them. -/
def Request.FreshBucket (q : Request) (grain : Grain) (hidden : List String) (facts : List DatedFact)
    (table : List StoredRow) (b : Bucket) : Prop :=
  ∃ folded rows, groupFold w q.definition (fun f => some (q.dimsOf w f)) (q.bucketFacts grain hidden facts b) =
      some folded ∧
    ((folded.filterMap fun p => (p.2 q.measure.name).bind fun roles =>
      if roles.isEmpty then none else some (p.1, roles)).mapM fun p =>
        (insert (rowFor p.2)).map (Prod.mk p.1)) = some rows ∧
    ((table.filter fun r => decide (r.bucket = b)).map fun r => (r.dims, r.row)).Perm rows

/-- The columns hold what the facts of a bucket fold to, to the last digit. -/
def Request.Unrounded (q : Request) (grain : Grain) (hidden : List String) (facts : List DatedFact) (b : Bucket) :
    Prop :=
  ∀ folded, groupFold w q.definition (fun f => some (q.dimsOf w f)) (q.bucketFacts grain hidden facts b) =
    some folded → ∀ p ∈ folded, ∀ roles, p.2 q.measure.name = some roles → Storable roles

end RagPipeline.Analytics
