/-
  RagPipeline.Forecast.Plan — the rows a nightly run writes, and when they can be written.

  A run has a row for each series, grain and bucket, and for the days of the heatmap one for each of the hours of
  the wall clock.  They are sent a thousand at a time, and a statement must not have two rows of one key.

    * `points_nodup`   — buckets of different series, grains or steps have different keys;
    * `same_key_iff`   — the hours of a day have one key when they are one instant, as when the clock goes forward;
    * `write_none_iff` — when a run is not written: two such rows are in one chunk.
-/
import Mathlib.Data.List.Dedup
import RagPipeline.Forecast.Targets
import RagPipeline.Lib.Upserts

namespace RagPipeline.Forecast

open RagPipeline.Lib CivilDate

/-! ## §1. What a run reads. -/

inductive Metric
  | lines
  | units
  | pickers
  deriving DecidableEq, Repr

inductive SubjectKind
  | total
  | warehouse
  | transactionName
  | itemNumber
  deriving DecidableEq, Repr

/-- One value per calendar day, dense from the start. -/
structure DailySeries (V : Type) where
  start : CivilDate
  values : List V

/-- The tail from the day onwards. -/
def DailySeries.since {V : Type} (s : DailySeries V) (day : CivilDate) : DailySeries V where
  start := if s.start < day then day else s.start
  values := s.values.drop (day.ordinal - s.start.ordinal)

structure DailyRow (V : Type) where
  day : CivilDate
  warehouse : Option String
  transactionName : Option String
  lines : ℕ
  units : V

structure ItemDayRow (V : Type) where
  day : CivilDate
  itemNumber : String
  units : V

/-- One hour of the wall clock. -/
structure HourRow where
  day : CivilDate
  hour : ℕ
  lines : ℕ
  pickers : ℕ

structure HistoryBundle (V : Type) where
  start : CivilDate
  daily : List (DailyRow V)
  items : List (ItemDayRow V)
  hourly : List HourRow

/-- The settings that decide which rows there are, and which are scored. -/
structure ForecastConfig where
  minHistoryDays : ℕ
  itemDailyMinActiveDays : ℕ
  maxItems : ℕ
  horizonDays : ℕ
  horizonWeeks : ℕ
  horizonMonths : ℕ
  heatmapDays : ℕ
  historyStart : Option CivilDate
  accuracyWindowDays : ℕ
  scoreLagHours : ℕ

/-- A median with its tenth and ninetieth percentile, in millionths. -/
structure Amount where
  value : ℤ
  p10 : ℤ
  p90 : ℤ
  deriving DecidableEq

/-- The arithmetic on floats: the models, their races and what they predict. -/
structure Arithmetic (V F : Type) where
  zero : V
  add : V → V → V
  positive : V → Bool
  ofCount : ℕ → V
  dec : V → ℤ
  steadyStart : DailySeries V → CivilDate
  fit : List V → Option F
  point : F → DailySeries V → CivilDate → Target → Amount
  hour : List HourRow → Amount → ℕ → ℕ → Amount × Amount

variable {V F : Type}

/-- A value is added to that of its day, if the day is between the two. -/
def addDay (ar : Arithmetic V F) (start stop : CivilDate) (values : List V) (row : CivilDate × V) : List V :=
  if start ≤ row.1 ∧ row.1 ≤ stop then values.modify (row.1.ordinal - start.ordinal) (ar.add · row.2) else values

def denseDaily (ar : Arithmetic V F) (rows : List (CivilDate × V)) (start stop : CivilDate) : DailySeries V where
  start := start
  values := rows.foldl (addDay ar start stop) (List.replicate (stop.ordinal + 1 - start.ordinal) ar.zero)

/-! ## §2. What is forecast. -/

structure Spec (V : Type) where
  metric : Metric
  subjectKind : SubjectKind
  subject : String
  daily : DailySeries V
  grains : List Grain

def Spec.id (s : Spec V) : Metric × SubjectKind × String := (s.metric, s.subjectKind, s.subject)

def allGrains : List Grain := [.day, .week, .month]

/-- `sorted({… if …})`. -/
def subjectsOf (names : List String) : List String :=
  (names.filter fun s => decide (s ≠ "")).dedup.mergeSort fun a b => decide (a ≤ b)

/-- The total, each warehouse and each transaction name. -/
def headlineSpecs (ar : Arithmetic V F) (bundle : HistoryBundle V) (asOf : CivilDate) (metric : Metric)
    (pick : DailyRow V → V) : List (Spec V) :=
  let dense (rows : List (DailyRow V)) := denseDaily ar (rows.map fun r => (r.day, pick r)) bundle.start asOf
  let kindSpecs (kind : SubjectKind) (attr : DailyRow V → Option String) :=
    (subjectsOf (bundle.daily.filterMap attr)).map fun subject =>
      (⟨metric, kind, subject, dense (bundle.daily.filter fun r => decide (attr r = some subject)), allGrains⟩ : Spec V)
  ⟨metric, .total, "total", dense bundle.daily, allGrains⟩ ::
    (kindSpecs .warehouse DailyRow.warehouse ++ kindSpecs .transactionName DailyRow.transactionName)

def recentDays : ℕ := 28

/-- The values of the last 28 days. -/
def recent (s : DailySeries V) : List V := s.values.drop (s.values.length - recentDays)

def activeDays (ar : Arithmetic V F) (s : DailySeries V) : ℕ := (recent s).countP ar.positive

/-- An item that moves seldom is forecast by week and month only. -/
def itemSpec (ar : Arithmetic V F) (bundle : HistoryBundle V) (asOf : CivilDate) (cfg : ForecastConfig)
    (item : String) : Spec V :=
  let rows := bundle.items.filter fun r => decide (r.itemNumber = item)
  let daily := denseDaily ar (rows.map fun r => (r.day, r.units)) bundle.start asOf
  ⟨.units, .itemNumber, item, daily,
    if cfg.itemDailyMinActiveDays ≤ activeDays ar daily then allGrains else [.week, .month]⟩

def buildSpecs (ar : Arithmetic V F) (bundle : HistoryBundle V) (asOf : CivilDate) (cfg : ForecastConfig) :
    List (Spec V) :=
  headlineSpecs ar bundle asOf .lines (fun r => ar.ofCount r.lines) ++ headlineSpecs ar bundle asOf .units DailyRow.units ++
    ((subjectsOf (bundle.items.map ItemDayRow.itemNumber)).take cfg.maxItems).map (itemSpec ar bundle asOf cfg)

/-! ## §3. The rows of a run. -/

/-- `uq_analytics_predictions_key`, of one tenant. -/
structure PredictionKey where
  metric : Metric
  grain : Grain
  subjectKind : SubjectKind
  subject : String
  horizon : HorizonLabel
  modelVersion : String
  targetAt : ℤ
  deriving DecidableEq

structure PredictionRow where
  key : PredictionKey
  predictedAt : ℤ
  amount : Amount
  runId : ℕ
  deriving DecidableEq

/-- `uq_analytics_forecast_series_key`: the grain is that of a day. -/
structure SeriesRow (F : Type) where
  id : Metric × SubjectKind × String
  fitted : Option F
  historyDays : ℕ
  activeDays28d : ℕ
  lastRunId : ℕ

structure RunOutput (F : Type) where
  predictions : List PredictionRow
  series : List (SeriesRow F)

/-- What ends a run: too little history, or an error. -/
inductive Stop
  | insufficientHistory (days : ℕ)
  | raised
  deriving DecidableEq, Repr

/-- What every row of a run has. -/
structure Run where
  modelVersion : String
  runId : ℕ
  predictedAt : ℤ

def pointRow (ar : Arithmetic V F) (run : Run) (asOf : CivilDate) (spec : Spec V) (fitted : F) (grain : Grain)
    (t : Target) : PredictionRow :=
  ⟨⟨spec.metric, grain, spec.subjectKind, spec.subject, t.label, run.modelVersion, t.targetAt⟩, run.predictedAt,
    ar.point fitted spec.daily asOf t, run.runId⟩

/-- The rows of one series: none without a model. -/
def specRows (ar : Arithmetic V F) (run : Run) (asOf : CivilDate) (targets : Grain → List Target) (steady : CivilDate)
    (spec : Spec V) : List PredictionRow :=
  match ar.fit (spec.daily.since steady).values with
  | none => []
  | some fitted => spec.grains.flatMap fun grain => (targets grain).map (pointRow ar run asOf spec fitted grain)

def hourKey (c : Clock) (run : Run) (asOf day : CivilDate) (hour : ℕ) (metric : Metric) : PredictionKey :=
  ⟨metric, .hour, .total, "total", ⟨(day.ordinal : ℤ) - asOf.ordinal, 'd'⟩, run.modelVersion, c.utc day hour⟩

/-- The lines and the pickers of one hour. -/
def hourRows (ar : Arithmetic V F) (c : Clock) (run : Run) (asOf : CivilDate) (hours : List HourRow)
    (day : CivilDate × Amount) (hour : ℕ) : List PredictionRow :=
  let amounts := ar.hour hours day.2 (weekday day.1) hour
  [⟨hourKey c run asOf day.1 hour .lines, run.predictedAt, amounts.1, run.runId⟩,
    ⟨hourKey c run asOf day.1 hour .pickers, run.predictedAt, amounts.2, run.runId⟩]

/-- The days of the heatmap, as the daily rows of the total have them. -/
def heatmapDays (c : Clock) (cfg : ForecastConfig) (total : List PredictionRow) : List (CivilDate × Amount) :=
  ((total.filter fun r => decide (r.key.grain = .day)).map fun r => (c.localDate r.key.targetAt, r.amount)).take
    cfg.heatmapDays

def hourlyRows (ar : Arithmetic V F) (c : Clock) (run : Run) (asOf : CivilDate) (hours : List HourRow)
    (days : List (CivilDate × Amount)) : List PredictionRow :=
  days.flatMap fun day => (List.range 24).flatMap (hourRows ar c run asOf hours day)

/-- The targets of each grain. -/
def planTargets (c : Clock) (asOf : CivilDate) (cfg : ForecastConfig) : Option (Grain → List Target) := do
  let day ← c.targets asOf cfg.horizonDays .day
  let week ← c.targets asOf cfg.horizonWeeks .week
  let month ← c.targets asOf cfg.horizonMonths .month
  return fun grain => match grain with
    | .hour => []
    | .day => day
    | .week => week
    | .month => month

/-- The first day that has any data. -/
def dataStart (ar : Arithmetic V F) (bundle : HistoryBundle V) (total : DailySeries V) : CivilDate :=
  ((total.values.findIdx? ar.positive).bind fun i => total.start.addDays i).getD bundle.start

/-- From where on history is learned from. -/
def steadyFrom (ar : Arithmetic V F) (bundle : HistoryBundle V) (cfg : ForecastConfig) (total : DailySeries V) :
    CivilDate :=
  let start := dataStart ar bundle total
  let steady := cfg.historyStart.getD (ar.steadyStart (total.since start))
  if steady < start then start else steady

def seriesRow (ar : Arithmetic V F) (run : Run) (steady : CivilDate) (spec : Spec V) : SeriesRow F :=
  let values := (spec.daily.since steady).values
  ⟨spec.id, ar.fit values, values.length, activeDays ar spec.daily, run.runId⟩

def isTotal (spec : Spec V) : Bool := decide (spec.metric = .lines ∧ spec.subjectKind = .total)

def runAll (ar : Arithmetic V F) (c : Clock) (bundle : HistoryBundle V) (asOf : CivilDate) (cfg : ForecastConfig)
    (run : Run) : Except Stop (RunOutput F) :=
  let specs := buildSpecs ar bundle asOf cfg
  match specs.find? isTotal with
  | none => .error .raised
  | some total =>
    let steady := steadyFrom ar bundle cfg total.daily
    let days := (total.daily.since steady).values.length
    if days < cfg.minHistoryDays then .error (.insufficientHistory days)
    else match planTargets c asOf cfg with
      | none => .error .raised
      | some targets =>
        -- The steps ahead are counted up to the end of the last month.
        if targets .month = [] then .error .raised
        else
          let points := specs.flatMap (specRows ar run asOf targets steady)
          let headline := (specs.filter isTotal).flatMap (specRows ar run asOf targets steady)
          let hours := bundle.hourly.filter fun r => decide (steady ≤ r.day)
          .ok ⟨points ++ hourlyRows ar c run asOf hours (heatmapDays c cfg headline), specs.map (seriesRow ar run steady)⟩

/-! ## §4. The keys of the buckets. -/

section Points

variable {ar : Arithmetic V F} {c : Clock} {bundle : HistoryBundle V} {asOf : CivilDate} {cfg : ForecastConfig} {run : Run}
  {targets : Grain → List Target} {steady : CivilDate} {spec : Spec V}

theorem subjectsOf_nodup (names : List String) : (subjectsOf names).Nodup :=
  (List.mergeSort_perm _ _).nodup_iff.mpr (List.nodup_dedup _)

theorem headlineSpecs_ids (ar : Arithmetic V F) (bundle : HistoryBundle V) (asOf : CivilDate) (metric : Metric)
    (pick : DailyRow V → V) : ∃ ws ns : List String, ws.Nodup ∧ ns.Nodup ∧
    (headlineSpecs ar bundle asOf metric pick).map Spec.id =
      (metric, .total, "total") :: (ws.map (fun s => (metric, .warehouse, s)) ++
        ns.map fun s => (metric, .transactionName, s)) := by
  refine ⟨_, _, subjectsOf_nodup (bundle.daily.filterMap DailyRow.warehouse),
    subjectsOf_nodup (bundle.daily.filterMap DailyRow.transactionName), ?_⟩
  unfold headlineSpecs
  simp only [List.map_cons, List.map_append, List.map_map]
  rfl

/-- No two series are of one metric and one subject. -/
theorem buildSpecs_nodup : ((buildSpecs ar bundle asOf cfg).map Spec.id).Nodup := by
  obtain ⟨ws, ns, hws, hns, hlines⟩ := headlineSpecs_ids ar bundle asOf .lines
    fun r => ar.ofCount r.lines
  obtain ⟨ws', ns', hws', hns', hunits⟩ := headlineSpecs_ids ar bundle asOf .units
    DailyRow.units
  have hitems := (subjectsOf_nodup (bundle.items.map ItemDayRow.itemNumber)).sublist
    (List.take_sublist cfg.maxItems _)
  unfold buildSpecs
  rw [List.map_append, List.map_append, hlines, hunits, List.map_map]
  have hid : (Spec.id ∘ itemSpec ar bundle asOf cfg) = fun item => (Metric.units, SubjectKind.itemNumber, item) := rfl
  have hinj : ∀ (m : Metric) (k : SubjectKind), Function.Injective fun s : String => (m, k, s) := by
    intro m k s s' h
    simpa using h
  rw [hid]
  have hnodup := fun (m : Metric) (k : SubjectKind) {l : List String} (hl : l.Nodup) => hl.map (hinj m k)
  simp only [List.nodup_append, List.nodup_cons, List.mem_append, List.mem_cons, List.mem_map]
  have h1 := hnodup .lines .warehouse hws
  have h2 := hnodup .lines .transactionName hns
  have h3 := hnodup .units .warehouse hws'
  have h4 := hnodup .units .transactionName hns'
  have h5 := hnodup .units .itemNumber hitems
  refine ⟨⟨⟨?_, h1, h2, ?_⟩, ⟨?_, h3, h4, ?_⟩, ?_⟩, h5, ?_⟩
  all_goals grind

theorem grains_nodup (h : spec ∈ buildSpecs ar bundle asOf cfg) : spec.grains.Nodup ∧ .hour ∉ spec.grains := by
  have hheadline : ∀ metric pick, spec ∈ headlineSpecs ar bundle asOf metric pick → spec.grains = allGrains := by
    intro metric pick hmem
    unfold headlineSpecs at hmem
    simp only [List.mem_cons, List.mem_append, List.mem_map] at hmem
    rcases hmem with rfl | ⟨_, _, rfl⟩ | ⟨_, _, rfl⟩
    all_goals rfl
  unfold buildSpecs at h
  rw [List.mem_append, List.mem_append] at h
  rcases h with (h | h) | h
  · rw [hheadline _ _ h]
    decide
  · rw [hheadline _ _ h]
    decide
  · obtain ⟨item, -, rfl⟩ := List.mem_map.mp h
    unfold itemSpec
    dsimp only
    split
    · decide
    · decide

/-- One label, one step. -/
theorem Laid.labels_nodup {grain : Grain} {ts : List Target} (hl : Laid c asOf grain ts) :
    (ts.map Target.label).Nodup := by
  rw [List.nodup_iff_getElem?_ne_getElem?]
  intro i j hij hj heq
  rw [List.length_map] at hj
  have hi := hl.label i (by omega)
  have hj' := hl.label j hj
  rw [List.getElem?_map, List.getElem?_map, List.getElem?_eq_getElem hj, List.getElem?_eq_getElem (by omega),
    Option.map_some, Option.map_some, Option.some.injEq] at heq
  rw [heq, ← hj'] at hi
  cases grain with
  | hour => cases hj'
  | day =>
    have hsteps := congrArg HorizonLabel.steps (Option.some.inj hi)
    simp at hsteps
    omega
  | week =>
    have hsteps := congrArg HorizonLabel.steps (Option.some.inj hi)
    simp at hsteps
    omega
  | month =>
    have hsteps := congrArg HorizonLabel.steps (Option.some.inj hi)
    simp at hsteps
    omega

theorem mem_specRows {r : PredictionRow} (h : r ∈ specRows ar run asOf targets steady spec) :
    ∃ grain ∈ spec.grains, r.key.grain = grain ∧ (r.key.metric, r.key.subjectKind, r.key.subject) = spec.id := by
  unfold specRows at h
  split at h
  · cases h
  · obtain ⟨grain, hgrain, h⟩ := List.mem_flatMap.mp h
    obtain ⟨t, -, rfl⟩ := List.mem_map.mp h
    exact ⟨grain, hgrain, rfl, rfl⟩

theorem specRows_nodup (hlaid : ∀ grain ≠ .hour, Laid c asOf grain (targets grain))
    (hgrains : spec.grains.Nodup ∧ .hour ∉ spec.grains) :
    ((specRows ar run asOf targets steady spec).map PredictionRow.key).Nodup := by
  unfold specRows
  split
  · exact List.nodup_nil
  · next fitted _ =>
    rw [List.map_flatMap, List.nodup_flatMap]
    constructor
    · intro grain hgrain
      have hlabels := (hlaid grain fun heq => hgrains.2 (heq ▸ hgrain)).labels_nodup
      rw [List.map_map]
      refine List.Nodup.of_map PredictionKey.horizon ?_
      rw [List.map_map]
      exact hlabels
    · refine hgrains.1.imp fun {g g'} hne => ?_
      refine List.disjoint_left.mpr fun k hk hk' => ?_
      dsimp only at hk hk'
      rw [List.map_map] at hk hk'
      obtain ⟨t, -, rfl⟩ := List.mem_map.mp hk
      obtain ⟨t', -, heq⟩ := List.mem_map.mp hk'
      exact hne (congrArg PredictionKey.grain heq).symm

/-- **Buckets of different series, grains or steps have different keys.** -/
theorem points_nodup (ar : Arithmetic V F) (bundle : HistoryBundle V) (cfg : ForecastConfig) (run : Run)
    (steady : CivilDate) (hlaid : ∀ grain ≠ .hour, Laid c asOf grain (targets grain)) :
    (((buildSpecs ar bundle asOf cfg).flatMap (specRows ar run asOf targets steady)).map PredictionRow.key).Nodup := by
  rw [List.map_flatMap, List.nodup_flatMap]
  refine ⟨fun spec hspec => specRows_nodup hlaid (grains_nodup hspec), ?_⟩
  refine (List.pairwise_map.mp buildSpecs_nodup).imp fun {s s'} hne => ?_
  refine List.disjoint_left.mpr fun k hk hk' => ?_
  obtain ⟨r, hr, rfl⟩ := List.mem_map.mp hk
  obtain ⟨r', hr', heq⟩ := List.mem_map.mp hk'
  obtain ⟨_, _, _, hid⟩ := mem_specRows hr
  obtain ⟨_, _, _, hid'⟩ := mem_specRows hr'
  rw [heq] at hid'
  exact hne (hid.symm.trans hid')

end Points

/-! ## §5. The keys of the hours. -/

section Hours

variable {ar : Arithmetic V F} {c : Clock} {bundle : HistoryBundle V} {asOf : CivilDate} {cfg : ForecastConfig} {run : Run}
  {targets : Grain → List Target} {steady : CivilDate} {hours : List HourRow} {days : List (CivilDate × Amount)}

theorem planTargets_laid (h : planTargets c asOf cfg = some targets) : ∀ grain ≠ .hour, Laid c asOf grain (targets grain) := by
  obtain ⟨day, hday, h⟩ := Option.bind_eq_some_iff.mp h
  obtain ⟨week, hweek, h⟩ := Option.bind_eq_some_iff.mp h
  obtain ⟨month, hmonth, h⟩ := Option.bind_eq_some_iff.mp h
  cases h
  intro grain hgrain
  cases grain with
  | hour => exact absurd rfl hgrain
  | day => exact laid hday
  | week => exact laid hweek
  | month => exact laid hmonth

/-- The days are counted from the last one learned from. -/
theorem Laid.day_start {ts : List Target} (hl : Laid c asOf .day ts) (k : ℕ) (hk : k < ts.length) :
    ts[k].start.ordinal = asOf.ordinal + k + 1 := by
  have hone : ∀ t ∈ ts, t.stop = t.start := by
    intro t ht
    exact ((Prod.mk.inj (Option.some.inj (hl.bucket t ht))).2).symm
  induction k with
  | zero =>
    have hhead : ts[0] ∈ ts.head? := by rw [List.head?_eq_getElem?, List.getElem?_eq_getElem hk]; rfl
    have hfirst := hl.first ts[0] hhead
    rw [hone ts[0] (List.getElem_mem hk)] at hfirst
    omega
  | succ k ih =>
    have hnext := hl.next k hk
    rw [hone ts[k] (List.getElem_mem (by omega)), ih (by omega)] at hnext
    omega

def metricOf (m : ℕ) : Metric := if m = 0 then .lines else .pickers

/-- The place of an hour among the rows of the heatmap. -/
theorem hourlyRows_get (ar : Arithmetic V F) (c : Clock) (run : Run) (asOf : CivilDate) (hours : List HourRow)
    (days : List (CivilDate × Amount)) (q : ℕ) {a m : ℕ} (ha : a < 24) (hm : m < 2) :
    ((hourlyRows ar c run asOf hours days)[48 * q + (2 * a + m)]?).map PredictionRow.key =
      days[q]?.map fun day => hourKey c run asOf day.1 a (metricOf m) := by
  have hpair : ∀ (day : CivilDate × Amount), ∀ hour ∈ List.range 24, (hourRows ar c run asOf hours day hour).length = 2 :=
    fun _ _ _ => rfl
  have hblock : ∀ day ∈ days, ((List.range 24).flatMap (hourRows ar c run asOf hours day)).length = 48 := by
    intro day _
    rw [length_flatMap_blocks (hpair day), List.length_range]
  unfold hourlyRows
  rw [getElem?_flatMap_blocks hblock q (by omega)]
  cases days[q]? with
  | none => rfl
  | some day =>
    rw [Option.bind_some, getElem?_flatMap_blocks (hpair day) a hm, List.getElem?_range ha, Option.bind_some,
      Option.map_some]
    rcases Nat.lt_succ_iff_lt_or_eq.mp hm with h | h
    · obtain rfl : m = 0 := by omega
      rfl
    · subst h
      rfl

theorem length_hourlyRows : (hourlyRows ar c run asOf hours days).length = 48 * days.length := by
  have hblock : ∀ day ∈ days, ((List.range 24).flatMap (hourRows ar c run asOf hours day)).length = 48 := by
    intro day _
    rw [length_flatMap_blocks (b := 2) fun _ _ => rfl, List.length_range]
  exact length_flatMap_blocks hblock

/-- **The hours of a day have one key when they are one instant.** -/
theorem hourKey_eq_iff {d d' : CivilDate} {a a' : ℕ} {metric metric' : Metric} :
    hourKey c run asOf d a metric = hourKey c run asOf d' a' metric' ↔
      metric = metric' ∧ d = d' ∧ c.utc d a = c.utc d' a' := by
  unfold hourKey
  simp only [PredictionKey.mk.injEq, HorizonLabel.mk.injEq, true_and, and_true]
  constructor
  · rintro ⟨hmetric, hday, hat⟩
    exact ⟨hmetric, ordinal_injective (by omega), hat⟩
  · rintro ⟨hmetric, rfl, hat⟩
    exact ⟨hmetric, rfl, hat⟩

/-- The days of the heatmap are those after the last one learned from. -/
theorem heatmapDays_get (hc : ∀ d, c.localDate (c.localMidnight d) = d)
    (hlaid : ∀ grain ≠ .hour, Laid c asOf grain (targets grain)) {total : Spec V} (hgrains : total.grains = allGrains)
    {q : ℕ} {day : CivilDate × Amount}
    (h : (heatmapDays c cfg (specRows ar run asOf targets steady total))[q]? = some day) :
    day.1.ordinal = asOf.ordinal + q + 1 := by
  unfold heatmapDays specRows at h
  rw [hgrains] at h
  cases hfit : ar.fit (total.daily.since steady).values with
  | none =>
    rw [hfit] at h
    simp at h
  | some fitted =>
    rw [hfit] at h
    -- of all grains the heat map reads the daily rows, one for each day after the present one
    have hkeep : ((allGrains.flatMap fun grain => (targets grain).map (pointRow ar run asOf total fitted grain)).filter
        fun r => decide (r.key.grain = .day)) = (targets .day).map (pointRow ar run asOf total fitted .day) := by
      unfold allGrains
      simp only [List.flatMap_cons, List.flatMap_nil, List.append_nil, List.filter_append]
      have hother : ∀ grain ≠ .day, ((targets grain).map (pointRow ar run asOf total fitted grain)).filter
          (fun r => decide (r.key.grain = .day)) = [] := by
        intro grain hne
        rw [List.filter_eq_nil_iff]
        intro r hr
        obtain ⟨t, -, rfl⟩ := List.mem_map.mp hr
        exact fun heq => hne (of_decide_eq_true heq)
      rw [hother .week (by decide), hother .month (by decide), List.append_nil, List.append_nil, List.filter_eq_self]
      intro r hr
      obtain ⟨t, -, rfl⟩ := List.mem_map.mp hr
      rfl
    dsimp only at h
    rw [hkeep, List.map_map, List.getElem?_take] at h
    split at h
    · rw [List.getElem?_map] at h
      obtain ⟨t, ht, rfl⟩ := Option.map_eq_some_iff.mp h
      obtain ⟨hq, rfl⟩ := List.getElem?_eq_some_iff.mp ht
      have hl := hlaid .day (by decide)
      have hstart := hl.day_start q hq
      have hat := hl.instant _ (List.getElem_mem hq)
      simp only [Function.comp_apply, pointRow, hat, hc]
      exact hstart
    · cases h

end Hours

/-! ## §6. When a run is written. -/

def batch : ℕ := 1000

section Write

variable {ar : Arithmetic V F} {c : Clock} {bundle : HistoryBundle V} {asOf : CivilDate} {cfg : ForecastConfig} {run : Run}
  {out : RunOutput F}

/-- There is one total. -/
theorem filter_isTotal (ar : Arithmetic V F) (bundle : HistoryBundle V) (asOf : CivilDate) (cfg : ForecastConfig) :
    ∃ total : Spec V, total.grains = allGrains ∧ (buildSpecs ar bundle asOf cfg).filter isTotal = [total] := by
  refine ⟨⟨.lines, .total, "total", denseDaily ar (bundle.daily.map fun r => (r.day, ar.ofCount r.lines)) bundle.start asOf,
    allGrains⟩, rfl, ?_⟩
  have hwithout : ∀ {l : List (Spec V)}, (∀ s ∈ l, isTotal s = false) → l.filter isTotal = [] := by
    intro l hl
    refine List.filter_eq_nil_iff.mpr fun s hs => ?_
    rw [hl s hs]
    exact Bool.false_ne_true
  unfold buildSpecs headlineSpecs
  dsimp only
  rw [List.filter_append, List.filter_append, List.filter_cons_of_pos rfl, hwithout, hwithout, hwithout]
  · rfl
  · intro s hs
    obtain ⟨item, -, rfl⟩ := List.mem_map.mp hs
    rfl
  · intro s hs
    simp only [List.mem_cons, List.mem_append, List.mem_map] at hs
    rcases hs with rfl | ⟨_, -, rfl⟩ | ⟨_, -, rfl⟩
    all_goals rfl
  · intro s hs
    simp only [List.mem_append, List.mem_map] at hs
    rcases hs with ⟨_, -, rfl⟩ | ⟨_, -, rfl⟩
    all_goals rfl

/-- The rows of a run: those of the buckets, and then those of the hours. -/
theorem runAll_ok (h : runAll ar c bundle asOf cfg run = .ok out) : ∃ total targets steady hours,
    total.grains = allGrains ∧ planTargets c asOf cfg = some targets ∧
      out.predictions = (buildSpecs ar bundle asOf cfg).flatMap (specRows ar run asOf targets steady) ++
        hourlyRows ar c run asOf hours (heatmapDays c cfg (specRows ar run asOf targets steady total)) ∧
      out.series = (buildSpecs ar bundle asOf cfg).map (seriesRow ar run steady) := by
  obtain ⟨total, hgrains, htotal⟩ := filter_isTotal ar bundle asOf cfg
  have hfind : (buildSpecs ar bundle asOf cfg).find? isTotal = some total := by
    rw [← List.head?_filter, htotal]
    rfl
  unfold runAll at h
  dsimp only at h
  rw [hfind] at h
  dsimp only at h
  split at h
  · cases h
  · split at h
    · cases h
    · next targets htargets =>
      split at h
      · cases h
      · cases h
        refine ⟨total, targets, steadyFrom ar bundle cfg total.daily,
          bundle.hourly.filter fun r => decide (steadyFrom ar bundle cfg total.daily ≤ r.day), hgrains, htargets, ?_, rfl⟩
        rw [htotal, List.flatMap_cons, List.flatMap_nil, List.append_nil]

/-- How many of the rows are of buckets. -/
def bucketRows (rows : List PredictionRow) : ℕ := rows.countP fun r => decide (r.key.grain ≠ .hour)

/-- Two hours of a day of the heatmap are one instant, and their rows are in one chunk. -/
def Collides (c : Clock) (asOf : CivilDate) (rows : List PredictionRow) : Prop :=
  ∃ (q : ℕ) (d : CivilDate) (a b m : ℕ), asOf.addDays (q + 1) = some d ∧ bucketRows rows + 48 * (q + 1) ≤ rows.length ∧
    m < 2 ∧ a < b ∧ b < 24 ∧ c.utc d a = c.utc d b ∧
    (bucketRows rows + (48 * q + (2 * a + m))) / batch = (bucketRows rows + (48 * q + (2 * b + m))) / batch

variable {hours : List HourRow} {days : List (CivilDate × Amount)} {points : List PredictionRow}

theorem bucketRows_append (ar : Arithmetic V F) (c : Clock) (run : Run) (asOf : CivilDate) (hours : List HourRow)
    (days : List (CivilDate × Amount)) (hpoints : ∀ r ∈ points, r.key.grain ≠ .hour) :
    bucketRows (points ++ hourlyRows ar c run asOf hours days) = points.length := by
  unfold bucketRows
  rw [List.countP_append, List.countP_eq_length.mpr fun r hr => decide_eq_true (hpoints r hr), List.countP_eq_zero.mpr ?_,
    Nat.add_zero]
  intro r hr
  obtain ⟨day, -, hr⟩ := List.mem_flatMap.mp hr
  obtain ⟨hour, -, hr⟩ := List.mem_flatMap.mp hr
  unfold hourRows at hr
  simp only [List.mem_cons, List.not_mem_nil, or_false] at hr
  rcases hr with rfl | rfl
  all_goals simp [hourKey]

/-- The key at a place of the heatmap. -/
theorem hourlyRows_key {x : ℕ} {r : PredictionRow} (h : (hourlyRows ar c run asOf hours days)[x]? = some r) :
    ∃ q a m day, x = 48 * q + (2 * a + m) ∧ a < 24 ∧ m < 2 ∧ days[q]? = some day ∧
      r.key = hourKey c run asOf day.1 a (metricOf m) := by
  have hx : x = 48 * (x / 48) + (2 * (x % 48 / 2) + x % 48 % 2) := by omega
  have hget := hourlyRows_get ar c run asOf hours days (x / 48) (show x % 48 / 2 < 24 by omega)
    (show x % 48 % 2 < 2 by omega)
  rw [← hx, h, Option.map_some] at hget
  obtain ⟨day, hday, hkey⟩ := Option.map_eq_some_iff.mp hget.symm
  exact ⟨x / 48, x % 48 / 2, x % 48 % 2, day, hx, by omega, by omega, hday, hkey.symm⟩

theorem metricOf_injective {m m' : ℕ} (hm : m < 2) (hm' : m' < 2) (h : metricOf m = metricOf m') : m = m' := by
  unfold metricOf at h
  grind

/-- Two rows of a chunk have one key exactly if two hours of a day of the heatmap are one instant in it. -/
theorem apart_iff (hc : ∀ d, c.localDate (c.localMidnight d) = d) (h : runAll ar c bundle asOf cfg run = .ok out) :
    (∀ i j (_ : i < j) (_ : j < out.predictions.length), i / batch = j / batch →
      out.predictions[i].key ≠ out.predictions[j].key) ↔ ¬Collides c asOf out.predictions := by
  refine iff_not_comm.mp ?_
  symm
  obtain ⟨total, targets, steady, hours, hgrains, htargets, hrows, -⟩ := runAll_ok h
  have hlaid := planTargets_laid htargets
  have hpoints := points_nodup ar bundle cfg run steady hlaid
  have hhour : ∀ r ∈ (buildSpecs ar bundle asOf cfg).flatMap (specRows ar run asOf targets steady), r.key.grain ≠ .hour := by
    intro r hr
    obtain ⟨spec, hspec, hr⟩ := List.mem_flatMap.mp hr
    obtain ⟨grain, hgrain, hkey, -⟩ := mem_specRows hr
    rw [hkey]
    exact fun heq => (grains_nodup hspec).2 (heq ▸ hgrain)
  have hday : ∀ q day, (heatmapDays c cfg (specRows ar run asOf targets steady total))[q]? = some day →
      day.1.ordinal = asOf.ordinal + q + 1 := fun q day hget => heatmapDays_get hc hlaid hgrains hget
  generalize (buildSpecs ar bundle asOf cfg).flatMap (specRows ar run asOf targets steady) = points at hrows hpoints hhour
  generalize heatmapDays c cfg (specRows ar run asOf targets steady total) = days at hrows hday
  -- the bucket rows come first and have keys of their own; after them 48 rows for each day, two for each hour
  have hcount := bucketRows_append ar c run asOf hours days hhour
  rw [← hrows] at hcount
  have hlength : out.predictions.length = points.length + 48 * days.length := by
    rw [hrows, List.length_append, length_hourlyRows]
  unfold Collides
  rw [hcount]
  constructor
  · intro hnot
    refine Classical.byContradiction fun hno => hnot ?_
    intro i j hij hj hsame heq
    have hi : i < out.predictions.length := by omega
    have hx : out.predictions[i]? = some out.predictions[i] := List.getElem?_eq_getElem hi
    have hy : out.predictions[j]? = some out.predictions[j] := List.getElem?_eq_getElem hj
    generalize out.predictions[i] = x at hx heq
    generalize out.predictions[j] = y at hy heq
    rw [hrows] at hx hy
    by_cases hjp : j < points.length
    · -- two bucket rows
      have hne := List.nodup_iff_getElem?_ne_getElem?.mp hpoints i j hij (by rwa [List.length_map])
      rw [List.getElem?_append_left (by omega)] at hx hy
      rw [List.getElem?_map, List.getElem?_map, hx, hy, Option.map_some, Option.map_some, heq] at hne
      exact hne rfl
    · rw [List.getElem?_append_right (by omega)] at hy
      obtain ⟨q', b, m', day', hjx, hb, hm', hday', hkey'⟩ := hourlyRows_key hy
      by_cases hip : i < points.length
      · rw [List.getElem?_append_left hip] at hx
        -- a bucket row and an hourly one are of different grains
        have hgrain := hhour x (List.mem_of_getElem? hx)
        rw [heq, hkey'] at hgrain
        exact hgrain rfl
      · rw [List.getElem?_append_right (by omega)] at hx
        obtain ⟨q, a, m, day, hix, ha, hm, hday₁, hkey⟩ := hourlyRows_key hx
        -- two hourly rows of one instant: one metric, one day, two hours of the clock
        rw [hkey, hkey', hourKey_eq_iff] at heq
        obtain ⟨hmetric, hdays, hutc⟩ := heq
        obtain rfl := metricOf_injective hm hm' hmetric
        have hord := hday q day hday₁
        have hord' := hday q' day' hday'
        obtain rfl : q = q' := by
          rw [hdays] at hord
          omega
        have hq : q < days.length := (List.getElem?_eq_some_iff.mp hday₁).1
        refine hno ⟨q, day.1, a, b, m, addDays_eq_some.mpr (by omega), by omega, hm, by omega, hb, ?_, ?_⟩
        · rw [hutc, hdays]
        · have hi' : points.length + (48 * q + (2 * a + m)) = i := by omega
          have hj' : points.length + (48 * q + (2 * b + m)) = j := by omega
          rw [hi', hj']
          exact hsame
  · rintro ⟨q, d, a, b, m, hd, hlen, hm, hab, hb, hutc, hchunk⟩ hall
    have hq : q < days.length := by omega
    have hget : days[q]? = some days[q] := List.getElem?_eq_getElem hq
    have hd' : days[q].1 = d := by
      have hord := hday q _ hget
      have hord' := addDays_eq_some.mp hd
      exact ordinal_injective (by omega)
    -- where the rows of a day lie is known, so the two rows of a repeated hour can be pointed at
    have hrow : ∀ a < 24, ∀ hi : points.length + (48 * q + (2 * a + m)) < out.predictions.length,
        out.predictions[points.length + (48 * q + (2 * a + m))].key = hourKey c run asOf d a (metricOf m) := by
      intro a ha hi
      have hkey := hourlyRows_get ar c run asOf hours days q ha hm
      have hplace : out.predictions[points.length + (48 * q + (2 * a + m))]? =
          (hourlyRows ar c run asOf hours days)[48 * q + (2 * a + m)]? := by
        rw [hrows, List.getElem?_append_right (by omega), Nat.add_sub_cancel_left]
      rw [hget, Option.map_some, hd', ← hplace, List.getElem?_eq_getElem hi, Option.map_some] at hkey
      exact Option.some.inj hkey
    have hib : points.length + (48 * q + (2 * b + m)) < out.predictions.length := by omega
    refine hall _ _ ?_ hib hchunk ?_
    · omega
    · rw [hrow a (by omega) (by omega), hrow b hb hib, hourKey_eq_iff]
      exact ⟨rfl, rfl, hutc⟩

end Write

/-- Whole numbers, and a model that predicts one of everything. -/
def countArithmetic : Arithmetic ℕ Unit where
  zero := 0
  add := (· + ·)
  positive v := decide (0 < v)
  ofCount := id
  dec v := v * 1000000
  steadyStart s := s.start
  fit _ := some ()
  point _ _ _ _ := ⟨1000000, 0, 2000000⟩
  hour _ day _ _ := (day, day)

/-- A zone whose clock goes from two to three in the morning of New Year's Day. -/
def springClock : Clock where
  utc d h := (d.ordinal * 24 + h - if newYear < d ∨ d = newYear ∧ 3 ≤ h then 1 else 0) * 3600000000
  localDate t :=
    let hours := t / 3600000000
    (ofOrdinal ((hours + if (newYear.ordinal : ℤ) * 24 + 2 ≤ hours then 1 else 0) / 24)).getD newYear
  localHour t :=
    let hours := t / 3600000000
    ((hours + if (newYear.ordinal : ℤ) * 24 + 2 ≤ hours then 1 else 0) % 24).toNat

theorem springClock_day (d : CivilDate) : springClock.localDate (springClock.localMidnight d) = d := by
  have hday : (ofOrdinal d.ordinal).getD newYear = d := by
    rw [ofOrdinal_eq_some.mpr rfl]
    rfl
  unfold springClock Clock.localMidnight
  dsimp only
  rw [Int.mul_ediv_cancel _ (by decide)]
  by_cases hafter : newYear < d
  · rw [if_pos (.inl hafter)]
    rw [CivilDate.lt_iff] at hafter
    rw [if_pos (by omega)]
    have hord : ((d.ordinal : ℤ) * 24 + (0 : ℕ) - 1 + 1) / 24 = d.ordinal := by omega
    rw [hord, hday]
  · have hnot : ¬(newYear < d ∨ d = newYear ∧ 3 ≤ 0) := by
      rintro (h | h)
      · exact hafter h
      · exact absurd h.2 (by decide)
    rw [if_neg hnot]
    rw [CivilDate.lt_iff] at hafter
    rw [if_neg (by omega)]
    have hord : ((d.ordinal : ℤ) * 24 + (0 : ℕ) - 0 + 0) / 24 = d.ordinal := by omega
    rw [hord, hday]

def newYearsEve : CivilDate := (newYear.addDays (-1)).getD newYear

/-- A history of one day, in one warehouse. -/
def oneDay : HistoryBundle ℕ where
  start := newYearsEve
  daily := [⟨newYearsEve, some "A", none, 3, 5⟩]
  items := []
  hourly := []

/-- One bucket of each grain, and one day of the heatmap. -/
def smallConfig : ForecastConfig := ⟨1, 1, 10, 1, 1, 1, 1, none, 28, 2⟩

def firstRun : Run := ⟨"v1", 1, 0⟩

end RagPipeline.Forecast
