/-
  RagPipeline.Forecast.Nights — the predictions that are stored, and the scores they get.

  A run writes its rows in one transaction and scores what has come true in another.  Runs of the night and runs
  by hand may overlap: the transactions of one come between those of another.

    * `runTenant_eq`      — one run is its two transactions;
    * `Sound`             — the row of a key is of the last run that wrote it, and its score is true of that row;
    * `predictions_sound` — so it is, in whatever order the transactions are committed.
-/
import Mathlib.Data.List.Induction
import RagPipeline.Forecast.Plan

namespace RagPipeline.Forecast

open RagPipeline.Lib CivilDate

variable {V F : Type}

/-! ## §1. Tables. -/

/-- What came true, and by how much the prediction missed it. -/
structure Score where
  actual : ℤ
  absError : ℕ
  scoredAt : ℤ
  deriving DecidableEq

structure Stored where
  predictedAt : ℤ
  amount : Amount
  runId : ℕ
  score : Option Score
  deriving DecidableEq

/-- A re-run is a new prediction: whatever it was scored against no longer applies. -/
def storedOf (_old : Option Stored) (r : PredictionRow) : Stored := ⟨r.predictedAt, r.amount, r.runId, none⟩

structure Tables (F : Type) where
  predictions : PredictionKey → Option Stored
  series : Metric × SubjectKind × String → Option (SeriesRow F)

def noTables : Tables F := ⟨fun _ => none, fun _ => none⟩

/-- `_write`. -/
def writeRun (t : Tables F) (out : RunOutput F) : Option (Tables F) := do
  let predictions ← sendAll PredictionRow.key storedOf batch t.predictions out.predictions
  let series ← sendAll SeriesRow.id (fun _ r => r) batch t.series out.series
  return ⟨predictions, series⟩

/-! ## §2. Actuals. -/

def hourLength : ℤ := 3600000000

/-- The instant the bucket of a prediction is over. -/
def bucketClose (c : Clock) (k : PredictionKey) : Option ℤ :=
  if k.grain = .hour then some (k.targetAt + hourLength)
  else do
    let bounds ← bucketBounds (c.localDate k.targetAt) k.grain
    let next ← bounds.2.addDays 1
    return c.localMidnight next

/-- The order of the hours of the wall clock. -/
def hourBefore (day day' : CivilDate) (hour hour' : ℕ) : Bool := decide (day < day' ∨ day = day' ∧ hour < hour')

/-- An hour, in millionths: the row of the hour, if the history goes back that far. -/
def hourValue (ar : Arithmetic V F) (bundle : HistoryBundle V) (asOf day : CivilDate) (hour : ℕ) (metric : Metric) :
    Option ℤ :=
  if bundle.hourly.all (fun r => hourBefore day r.day hour r.hour) = true ∨ asOf < day then none
  else
    let row := bundle.hourly.reverse.find? fun r => decide (r.day = day ∧ r.hour = hour)
    some (if metric = .pickers then 1000000 * ((row.map HourRow.pickers).getD 0 : ℤ)
      else ar.dec (ar.ofCount ((row.map HourRow.lines).getD 0)))

/-- A bucket of days: the sum over it, if all of it is in the history. -/
def bucketValue (ar : Arithmetic V F) (bundle : HistoryBundle V) (asOf : CivilDate) (daily : DailySeries V)
    (bounds : CivilDate × CivilDate) : Option ℤ :=
  if bounds.1 < bundle.start ∨ asOf < bounds.2 then none
  else
    let first := bounds.1.ordinal - daily.start.ordinal
    let values := (daily.values.take (bounds.2.ordinal + 1 - daily.start.ordinal)).drop first
    some (ar.dec (values.foldl ar.add ar.zero))

/-- `Actuals.value`: outside, an error; inside, what the history does not have. -/
def actualValue (ar : Arithmetic V F) (c : Clock) (bundle : HistoryBundle V) (asOf : CivilDate) (cfg : ForecastConfig)
    (k : PredictionKey) : Option (Option ℤ) :=
  if k.grain = .hour then
    some (hourValue ar bundle asOf (c.localDate k.targetAt) (c.localHour k.targetAt) k.metric)
  else
    match (buildSpecs ar bundle asOf cfg).find? fun s => decide (s.id = (k.metric, k.subjectKind, k.subject)) with
    | none => some none
    | some spec => (bucketBounds (c.localDate k.targetAt) k.grain).map (bucketValue ar bundle asOf spec.daily)

/-! ## §3. Runs. -/

/-- What a run reads, and what it writes with its rows. -/
structure Night (V : Type) where
  asOf : CivilDate
  bundle : Option (HistoryBundle V)
  run : Run

def Night.output (n : Night V) (ar : Arithmetic V F) (c : Clock) (cfg : ForecastConfig) : Except Stop (RunOutput F) :=
  match n.bundle with
  | none => .error .raised
  | some bundle => runAll ar c bundle n.asOf cfg n.run

def Night.cutoff (n : Night V) (cfg : ForecastConfig) : ℤ := n.run.predictedAt - cfg.scoreLagHours * hourLength

/-- The scores of the predictions that were read: of the window, with a bucket that has closed, and an actual. -/
def scoresOf (ar : Arithmetic V F) (c : Clock) (cfg : ForecastConfig) (n : Night V) (t : Tables F)
    (loaded : List PredictionKey) : Option (List (PredictionKey × ℤ)) := do
  let bundle ← n.bundle
  let windowStart ← n.asOf.addDays (-cfg.accuracyWindowDays)
  let rows := loaded.filter fun k => (t.predictions k).isSome &&
    decide (c.localMidnight windowStart ≤ k.targetAt ∧ k.targetAt < n.cutoff cfg)
  let closed ← rows.mapM fun k => (bucketClose c k).map fun close => (k, decide (close ≤ n.cutoff cfg))
  let actuals ← ((closed.filter Prod.snd).map Prod.fst).mapM fun k =>
    (actualValue ar c bundle n.asOf cfg k).map fun actual => (k, actual)
  return actuals.filterMap fun p => p.2.map fun actual => (p.1, actual)

/-- `UPDATE … SET actual, abs_error = abs(value - actual), scored_at`. -/
def writeScore (now : ℤ) (predictions : PredictionKey → Option Stored) (s : PredictionKey × ℤ) :
    PredictionKey → Option Stored :=
  Function.update predictions s.1 ((predictions s.1).map fun row =>
    { row with score := some ⟨s.2, (row.amount.value - s.2).natAbs, now⟩ })

def scoreRun (ar : Arithmetic V F) (c : Clock) (cfg : ForecastConfig) (n : Night V) (loaded : List PredictionKey)
    (t : Tables F) : Option (Tables F) := do
  let scores ← scoresOf ar c cfg n t loaded
  return { t with predictions := scores.foldl (writeScore n.run.predictedAt) t.predictions }

inductive RunStatus
  | completed
  | skipped
  | failed
  deriving DecidableEq, Repr

/-- `run_tenant`, when nothing comes between.  Of the scorable predictions, those are read that come within the limit. -/
def runTenant (ar : Arithmetic V F) (c : Clock) (cfg : ForecastConfig) (t : Tables F) (n : Night V)
    (loaded : List PredictionKey) : Tables F × RunStatus :=
  match n.output ar c cfg with
  | .error (.insufficientHistory _) => (t, .skipped)
  | .error .raised => (t, .failed)
  | .ok out =>
    match writeRun t out with
    | none => (t, .failed)
    | some written =>
      match scoreRun ar c cfg n loaded written with
      | none => (written, .failed)
      | some scored => (scored, .completed)

/-- A transaction of a run that is committed, or rolled back when it fails. -/
inductive Event (V : Type)
  | write (n : Night V)
  | score (n : Night V) (loaded : List PredictionKey)

def Event.apply (ar : Arithmetic V F) (c : Clock) (cfg : ForecastConfig) (t : Tables F) : Event V → Tables F
  | .write n =>
    match n.output ar c cfg with
    | .error _ => t
    | .ok out => (writeRun t out).getD t
  | .score n loaded => (scoreRun ar c cfg n loaded t).getD t

def runEvents (ar : Arithmetic V F) (c : Clock) (cfg : ForecastConfig) (t : Tables F) (events : List (Event V)) :
    Tables F :=
  events.foldl (Event.apply ar c cfg) t

/-- One run is its transactions, with nothing between them. -/
theorem runTenant_eq (ar : Arithmetic V F) (c : Clock) (cfg : ForecastConfig) (t : Tables F) (n : Night V)
    (loaded : List PredictionKey) : (runTenant ar c cfg t n loaded).1 = runEvents ar c cfg t
      (.write n :: if (runTenant ar c cfg t n loaded).2 = .completed then [.score n loaded] else []) := by
  unfold runTenant runEvents
  cases hout : n.output ar c cfg with
  | error stop => cases stop <;> simp [Event.apply, hout]
  | ok out =>
    cases hwritten : writeRun t out with
    | none => simp [Event.apply, hout, hwritten]
    | some written =>
      cases hscored : scoreRun ar c cfg n loaded written with
      | none => simp [Event.apply, hout, hwritten, hscored]
      | some scored => simp [Event.apply, hout, hwritten, hscored]

/-! ## §4. What is stored. -/

section Sound

variable {ar : Arithmetic V F} {c : Clock} {cfg : ForecastConfig} {n : Night V} {t t' : Tables F} {out : RunOutput F}

/-- The rows of the series are always written. -/
theorem series_written {bundle : HistoryBundle V} {asOf : CivilDate} {run : Run}
    (h : runAll ar c bundle asOf cfg run = .ok out) (table : Metric × SubjectKind × String → Option (SeriesRow F)) :
    (sendAll SeriesRow.id (fun _ r => r) batch table out.series).isSome := by
  obtain ⟨-, -, steady, -, -, -, -, hseries⟩ := runAll_ok h
  refine sendAll_isSome_of_nodup (by decide) ?_
  rw [hseries, List.map_map]
  exact buildSpecs_nodup

/-- What a run writes: its predictions, unless two of a chunk have one key. -/
theorem writeRun_eq (hc : ∀ d, c.localDate (c.localMidnight d) = d) (h : n.output ar c cfg = .ok out) :
    (writeRun t out = none ∧ Collides c n.asOf out.predictions) ∨
      ∃ t', writeRun t out = some t' ∧ ¬Collides c n.asOf out.predictions ∧
        t'.predictions = out.predictions.foldl (upsertRow PredictionRow.key storedOf) t.predictions := by
  unfold Night.output at h
  cases hbundle : n.bundle with
  | none =>
    rw [hbundle] at h
    cases h
  | some bundle =>
    rw [hbundle] at h
    have hsome : (sendAll PredictionRow.key storedOf batch t.predictions out.predictions).isSome ↔
        ¬Collides c n.asOf out.predictions := (sendAll_isSome (by decide)).trans (apart_iff hc h)
    obtain ⟨series, hseries⟩ := Option.isSome_iff_exists.mp (series_written h t.series)
    unfold writeRun
    cases hsent : sendAll PredictionRow.key storedOf batch t.predictions out.predictions with
    | none =>
      rw [hsent] at hsome
      exact .inl ⟨rfl, not_not.mp fun hno => absurd (hsome.mpr hno) (by simp)⟩
    | some predictions =>
      refine .inr ⟨⟨predictions, series⟩, ?_, hsome.mp (hsent ▸ rfl), ?_⟩
      · rw [hseries]
        rfl
      · rw [sendAll_eq (by decide)] at hsent
        split at hsent
        · exact (Option.some.inj hsent).symm
        · cases hsent

/-- The run writes the row. -/
def Writes (ar : Arithmetic V F) (c : Clock) (cfg : ForecastConfig) (n : Night V) (r : PredictionRow) : Prop :=
  ∃ out, n.output ar c cfg = .ok out ∧ ¬Collides c n.asOf out.predictions ∧ r ∈ out.predictions

/-- The score is that of a run: its history has the actual, and the bucket had closed. -/
def TrueOf (ar : Arithmetic V F) (c : Clock) (cfg : ForecastConfig) (n : Night V) (k : PredictionKey) (s : Score) : Prop :=
  s.scoredAt = n.run.predictedAt ∧ (∃ close, bucketClose c k = some close ∧ close ≤ n.cutoff cfg) ∧
    ∃ bundle, n.bundle = some bundle ∧ actualValue ar c bundle n.asOf cfg k = some (some s.actual)

/-- The row is of the last run that wrote its key, and the score it may have is of a run that scored since. -/
def Sound (ar : Arithmetic V F) (c : Clock) (cfg : ForecastConfig) (events : List (Event V)) (k : PredictionKey)
    (row : Stored) : Prop :=
  ∃ before n after r, events = before ++ .write n :: after ∧ Writes ar c cfg n r ∧ r.key = k ∧
    row.predictedAt = r.predictedAt ∧ row.amount = r.amount ∧ row.runId = r.runId ∧
    (∀ n', .write n' ∈ after → ∀ r', Writes ar c cfg n' r' → r'.key ≠ k) ∧
    ∀ s, row.score = some s → s.absError = (row.amount.value - s.actual).natAbs ∧
      ∃ n' loaded, .score n' loaded ∈ after ∧ TrueOf ar c cfg n' k s

/-- What leaves a row as it is, but for its score. -/
theorem Sound.snoc {events : List (Event V)} {k : PredictionKey} {row row' : Stored} (h : Sound ar c cfg events k row)
    (e : Event V) (hwrite : ∀ n', e = .write n' → ∀ r', Writes ar c cfg n' r' → r'.key ≠ k)
    (hsame : row'.predictedAt = row.predictedAt ∧ row'.amount = row.amount ∧ row'.runId = row.runId)
    (hscore : ∀ s, row'.score = some s → row.score = some s ∨ s.absError = (row'.amount.value - s.actual).natAbs ∧
      ∃ n' loaded, e = .score n' loaded ∧ TrueOf ar c cfg n' k s) : Sound ar c cfg (events ++ [e]) k row' := by
  obtain ⟨before, n, after, r, rfl, hr, hkey, hat, hamount, hrun, hlater, hscored⟩ := h
  refine ⟨before, n, after ++ [e], r, by simp, hr, hkey, hsame.1.trans hat, hsame.2.1.trans hamount,
    hsame.2.2.trans hrun, ?_, ?_⟩
  · intro n' hn'
    rw [List.mem_append, List.mem_singleton] at hn'
    cases hn' with
    | inl hmem => exact hlater n' hmem
    | inr heq => exact hwrite n' heq.symm
  · intro s hs
    cases hscore s hs with
    | inl hold =>
      obtain ⟨herror, n', loaded, hmem, htrue⟩ := hscored s hold
      rw [hsame.2.1]
      exact ⟨herror, n', loaded, List.mem_append_left _ hmem, htrue⟩
    | inr hnew =>
      obtain ⟨herror, n', loaded, heq, htrue⟩ := hnew
      exact ⟨herror, n', loaded, List.mem_append_right _ (List.mem_singleton.mpr heq.symm), htrue⟩

/-- Of a list of scores, the last of a key is written. -/
theorem foldl_writeScore {now : ℤ} {scores : List (PredictionKey × ℤ)} {predictions : PredictionKey → Option Stored}
    {k : PredictionKey} {row' : Stored} (h : scores.foldl (writeScore now) predictions k = some row') :
    ∃ row, predictions k = some row ∧ row'.predictedAt = row.predictedAt ∧ row'.amount = row.amount ∧
      row'.runId = row.runId ∧ ∀ s, row'.score = some s → row.score = some s ∨
        (k, s.actual) ∈ scores ∧ s.absError = (row'.amount.value - s.actual).natAbs ∧ s.scoredAt = now := by
  induction scores generalizing predictions with
  | nil => exact ⟨row', h, rfl, rfl, rfl, fun s hs => .inl hs⟩
  | cons p scores ih =>
    obtain ⟨row₁, hrow₁, hat, hamount, hrun, hscore⟩ := ih h
    unfold writeScore at hrow₁
    by_cases hk : k = p.1
    · subst hk
      rw [Function.update_self] at hrow₁
      obtain ⟨row, hrow, rfl⟩ := Option.map_eq_some_iff.mp hrow₁
      refine ⟨row, hrow, hat, hamount, hrun, fun s hs => ?_⟩
      cases hscore s hs with
      | inl hold =>
        have heq : s = ⟨p.2, (row.amount.value - p.2).natAbs, now⟩ := (Option.some.inj hold).symm
        subst heq
        rw [hamount]
        exact .inr ⟨List.mem_cons_self, rfl, rfl⟩
      | inr hnew => exact .inr ⟨List.mem_cons_of_mem _ hnew.1, hnew.2⟩
    · rw [Function.update_of_ne hk] at hrow₁
      refine ⟨row₁, hrow₁, hat, hamount, hrun, fun s hs => ?_⟩
      cases hscore s hs with
      | inl hold => exact .inl hold
      | inr hnew => exact .inr ⟨List.mem_cons_of_mem _ hnew.1, hnew.2⟩

/-- What a run scores is in its history, and over. -/
theorem scoresOf_mem {loaded : List PredictionKey} {scores : List (PredictionKey × ℤ)}
    (h : scoresOf ar c cfg n t loaded = some scores) {k : PredictionKey} {actual : ℤ} (hmem : (k, actual) ∈ scores) :
    (∃ close, bucketClose c k = some close ∧ close ≤ n.cutoff cfg) ∧
      ∃ bundle, n.bundle = some bundle ∧ actualValue ar c bundle n.asOf cfg k = some (some actual) := by
  unfold scoresOf at h
  obtain ⟨bundle, hbundle, h⟩ := Option.bind_eq_some_iff.mp h
  obtain ⟨windowStart, -, h⟩ := Option.bind_eq_some_iff.mp h
  obtain ⟨closed, hclosed, h⟩ := Option.bind_eq_some_iff.mp h
  obtain ⟨actuals, hactuals, h⟩ := Option.bind_eq_some_iff.mp h
  cases h
  obtain ⟨p, hp, hpair⟩ := List.mem_filterMap.mp hmem
  obtain ⟨value, hvalue, heq⟩ := Option.map_eq_some_iff.mp hpair
  cases heq
  obtain ⟨k', hk', hactual⟩ := (mem_mapM hactuals p).mp hp
  obtain ⟨found, hfound, rfl⟩ := Option.map_eq_some_iff.mp hactual
  dsimp only at hvalue ⊢
  subst hvalue
  obtain ⟨q, hq, rfl⟩ := List.mem_map.mp hk'
  obtain ⟨hq, hin⟩ := List.mem_filter.mp hq
  obtain ⟨k'', -, hclose⟩ := (mem_mapM hclosed q).mp hq
  obtain ⟨close, hbucket, rfl⟩ := Option.map_eq_some_iff.mp hclose
  exact ⟨⟨close, hbucket, of_decide_eq_true hin⟩, bundle, hbundle, hfound⟩

/-- **In whatever order the transactions of the runs are committed, the row of a key is that of the last run that wrote
it, and the score it has is that row's error against the history of a run that scored since, of a bucket that had
closed.** -/
theorem predictions_sound (hc : ∀ d, c.localDate (c.localMidnight d) = d) (events : List (Event V)) (k : PredictionKey)
    (row : Stored) (h : (runEvents ar c cfg noTables events).predictions k = some row) : Sound ar c cfg events k row := by
  induction events using List.reverseRecOn generalizing row with
  | nil => cases h
  | append_singleton events e ih =>
    unfold runEvents at h ih
    rw [List.foldl_append, List.foldl_cons, List.foldl_nil] at h
    generalize events.foldl (Event.apply ar c cfg) noTables = t at h ih
    -- an event that writes no row of the key keeps what is known of it
    have hkeep : (∀ n', e = .write n' → ∀ r', Writes ar c cfg n' r' → r'.key ≠ k) → t.predictions k = some row →
        Sound ar c cfg (events ++ [e]) k row :=
      fun hwrite hrow => (ih row hrow).snoc e hwrite ⟨rfl, rfl, rfl⟩ fun s hs => .inl hs
    cases e with
    | write n =>
      unfold Event.apply at h
      dsimp only at h
      cases hout : n.output ar c cfg with
      | error stop =>
        rw [hout] at h
        refine hkeep ?_ h
        rintro n' heq r' ⟨out, hout', -⟩
        cases heq
        rw [hout] at hout'
        cases hout'
      | ok out =>
        rw [hout] at h
        dsimp only at h
        rcases writeRun_eq (t := t) hc hout with ⟨hnone, hcollides⟩ | ⟨t', ht', hfree, hrows⟩
        · rw [hnone, Option.getD_none] at h
          refine hkeep ?_ h
          rintro n' heq r' ⟨out', hout', hfree, -⟩
          cases heq
          rw [hout] at hout'
          cases hout'
          exact absurd hcollides hfree
        · rw [ht', Option.getD_some, hrows] at h
          by_cases hk : ∃ r ∈ out.predictions, r.key = k
          · -- of several rows of one key in a run the last one stays
            obtain ⟨before, r, after, hsplit, rfl, hafter⟩ := exists_last hk
            obtain ⟨old, hold⟩ := foldl_upsertRow_last storedOf before hafter t.predictions
            rw [← hsplit, h] at hold
            cases Option.some.inj hold
            have hmem : r ∈ out.predictions := hsplit ▸ List.mem_append_right _ List.mem_cons_self
            refine ⟨events, n, [], r, rfl, ⟨out, hout, hfree, hmem⟩, rfl, rfl, rfl, rfl, ?_, ?_⟩
            · intro n' hn'
              cases hn'
            · intro s hs
              cases hs
          · have hother : ∀ r ∈ out.predictions, r.key ≠ k := fun r hr hkey => hk ⟨r, hr, hkey⟩
            rw [foldl_upsertRow_other hother] at h
            refine hkeep ?_ h
            rintro n' heq r' ⟨out', hout', -, hr'⟩
            cases heq
            rw [hout] at hout'
            cases hout'
            exact hother r' hr'
    | score n loaded =>
      unfold Event.apply at h
      dsimp only at h
      cases hscores : scoresOf ar c cfg n t loaded with
      | none =>
        have hnone : scoreRun ar c cfg n loaded t = none := by
          unfold scoreRun
          rw [hscores]
          rfl
        rw [hnone, Option.getD_none] at h
        exact hkeep (fun n' heq => nomatch heq) h
      | some scores =>
        have hsome : scoreRun ar c cfg n loaded t =
            some { t with predictions := scores.foldl (writeScore n.run.predictedAt) t.predictions } := by
          unfold scoreRun
          rw [hscores]
          rfl
        rw [hsome, Option.getD_some] at h
        obtain ⟨row₀, hrow₀, hat, hamount, hrun, hscore⟩ := foldl_writeScore h
        refine (ih row₀ hrow₀).snoc _ (fun n' heq => nomatch heq) ⟨hat, hamount, hrun⟩ ?_
        intro s hs
        cases hscore s hs with
        | inl hold => exact .inl hold
        | inr hnew =>
          obtain ⟨hclose, hactual⟩ := scoresOf_mem hscores hnew.1
          exact .inr ⟨hnew.2.1, n, loaded, rfl, hnew.2.2, hclose, hactual⟩

end Sound

/-- The history of the day after, too. -/
def twoDays : HistoryBundle ℕ := { oneDay with daily := oneDay.daily ++ [⟨newYear, some "A", none, 4, 7⟩] }

/-- The lines of New Year's Day, a day ahead. -/
def newYearKey : PredictionKey := ⟨.lines, .day, .total, "total", ⟨1, 'd'⟩, "v1", plainClock.localMidnight newYear⟩

/-- What is predicted for a day, and the score it gets when the day is over. -/
def predictedThenScored : List (Event ℕ) :=
  [.write ⟨newYearsEve, some oneDay, firstRun⟩,
    .score ⟨newYear, some twoDays, ⟨"v1", 2, (newYear.ordinal * 24 + 30) * hourLength⟩⟩ [newYearKey]]

theorem plainClock_day (d : CivilDate) : plainClock.localDate (plainClock.localMidnight d) = d := by
  have hday : (ofOrdinal d.ordinal).getD newYear = d := by
    rw [ofOrdinal_eq_some.mpr rfl]
    rfl
  unfold plainClock Clock.localMidnight
  dsimp only
  have hord : ((d.ordinal : ℤ) * 24 + (0 : ℕ)) * 3600000000 / 86400000000 = d.ordinal := by omega
  rw [hord, hday]

theorem predictions_sound_scored : ∃ row,
    (runEvents countArithmetic plainClock { smallConfig with heatmapDays := 0 } noTables predictedThenScored).predictions
        newYearKey = some row ∧
      row.score.map Score.absError = some 3000000 ∧
      Sound countArithmetic plainClock { smallConfig with heatmapDays := 0 } predictedThenScored newYearKey row := by
  have hall : ((runEvents countArithmetic plainClock { smallConfig with heatmapDays := 0 } noTables
      predictedThenScored).predictions newYearKey).any
        (fun row => decide (row.score.map Score.absError = some 3000000)) = true := by
    decide +kernel
  obtain ⟨row, hrow, hscore⟩ := (Option.any_eq_true _ _).mp hall
  exact ⟨row, hrow, of_decide_eq_true hscore, predictions_sound plainClock_day _ _ _ hrow⟩

end RagPipeline.Forecast
