/-
  RagPipeline.Analytics.Concerns — which definitions and which buckets a run's diff can have touched.

    * `changedOf`, `dirtyBuckets` — what both sides of every writing outcome touched;
    * `rowsBy_scope`              — a fold only sees the facts that pass the two filters of its definition;
    * `untouched_sound`           — a skipped definition has the same buckets before and after, every other
                                    bucket that differs is among the dirty ones, and `fold_all` writes what
                                    `recompute` writes for each definition alone.

  The outcomes are those of the diff; they are carried out on the fact table in the same transaction.
-/
import RagPipeline.Analytics.Cascade
import RagPipeline.Lib.OrderFree
import RagPipeline.Lib.RangeDiff

namespace RagPipeline.Analytics

open RagPipeline.Stage2 RagPipeline.Lib

/-! ## §1. Outcomes. -/

/-- A fact of the source side of the diff. -/
structure SourceFact where
  id : String
  fingerprint : Option String := none
  fact : DatedFact

/-- `key_of`. -/
def SourceFact.key (f : SourceFact) : String × Option Instant := (f.id, f.fact.row.eventTime)

/-- A row of `analytics_facts`. -/
structure StoredFact extends SourceFact where
  revision : ℕ

/-- The rows that `_apply` writes. -/
def factFolding : Folding (fun f : StoredFact => f.toSourceFact.key) SourceFact.key where
  same o f := decide (o.fingerprint = f.fingerprint)
  fresh f := ⟨f, 1⟩
  revise o f := ⟨f, o.revision + 1⟩
  key_fresh _ := rfl
  key_revise _ _ := rfl

/-- `Outcome`. -/
abbrev FactOutcome := Outcome (String × Option Instant) StoredFact SourceFact

/-- The fact table. -/
abbrev FactTable := Table (fun f : StoredFact => f.toSourceFact.key)

/-- The facts of a table, as the rollups read them. -/
def factsOf (t : FactTable) : List DatedFact := t.rows.map fun f => f.fact

/-- `diff.diff`. -/
def factDiff (stored : List StoredFact) (source : List SourceFact) : List FactOutcome :=
  diff factFolding (byKey (fun f : StoredFact => f.toSourceFact.key) stored) (byKey SourceFact.key source)

/-- The sides of an outcome that writes. -/
def sides : FactOutcome → List DatedFact
  | .insert _ new => [new.fact]
  | .update _ old new => [old.fact, new.fact]
  | .unchanged _ _ => []
  | .reverse _ old => [old.fact]

/-- **`changed_of`.** -/
def changedOf (outcomes : List FactOutcome) : Changed where
  methods := (outcomes.flatMap sides).map fun f => f.row.method
  names := (outcomes.flatMap sides).map fun f => f.row.transactionName

/-- **`dirty_buckets`.** -/
def dirtyBuckets (outcomes : List FactOutcome) : Dirty where
  hours := (outcomes.flatMap sides).filterMap fun f => f.row.eventTime.map hourOf
  dates := (outcomes.flatMap sides).filterMap DatedFact.businessDate

variable (w : PythonTexts) (c : DateArithmetic)

/-- The buckets of a grain that `_fold_grains` replaces. -/
def Dirty.buckets (dirty : Dirty) : Grain → List Bucket
  | .hourly => dirty.hours.map .hour
  | .daily => dirty.dates.map .day
  | .monthly => (dirty.dates.map c.monthOf).map .day

/-! ## §2. What a bucket of a definition is. -/

/-- The bucket of a fact; it has none where it has no instant or no date. -/
def placeIn (grain : Grain) (f : DatedFact) : Option Bucket :=
  match grain with
  | .hourly => f.row.eventTime.map fun t => .hour (hourOf t)
  | .daily => f.businessDate.map .day
  | .monthly => f.businessDate.map fun d => .day (c.monthOf d)

/-- The rows of one bucket, folded from the facts. -/
def RegisteredMetric.bucketRows (q : RegisteredMetric) (hidden : List String) (facts : List DatedFact)
    (grain : Grain) (b : Bucket) : Option (List (RowKey × Roles)) :=
  q.rowsBy w (fun f => if placeIn c grain f = some b then some b else none)
    (facts.filter fun f => f.visible hidden && f.since q.rollupsFrom)

/-! ## §3. Facts outside the filters. -/

/-- The two filters that do not depend on the measure. -/
def MetricDefinition.scope (d : MetricDefinition) (f : DatedFact) : Bool :=
  passes d.methodFilter f.row.method && passes d.transactionFilter f.row.transactionName

theorem meets_of_passes {filter : List String} {value : Option String} {values : List (Option String)}
    (hv : value ∈ values) (h : passes filter value = true) : meets filter values = true := by
  unfold meets
  cases value with
  | none =>
    have hempty : filter.isEmpty = true := h
    rw [hempty]
    rfl
  | some v =>
    rw [Bool.or_eq_true]
    cases Bool.or_eq_true _ _ ▸ (show (filter.isEmpty || decide (v ∈ filter)) = true from h) with
    | inl hempty => exact Or.inl hempty
    | inr hmem => exact Or.inr (List.any_eq_true.mpr ⟨v, of_decide_eq_true hmem, by simpa using hv⟩)

/-- **A changed fact that passes the filters concerns the definition.** -/
theorem scope_of_not_concerns {d : MetricDefinition} {outcomes : List FactOutcome}
    (h : concerns d (changedOf outcomes) = false) {f : DatedFact} (hf : f ∈ outcomes.flatMap sides) :
    d.scope f = false := by
  by_contra hscope
  obtain ⟨hmethod, hname⟩ := Bool.and_eq_true_iff.mp (Bool.not_eq_false _ ▸ hscope)
  have hmethods : meets d.methodFilter (changedOf outcomes).methods = true :=
    meets_of_passes (List.mem_map_of_mem (f := fun f => f.row.method) hf) hmethod
  have hnames : meets d.transactionFilter (changedOf outcomes).names = true :=
    meets_of_passes (List.mem_map_of_mem (f := fun f => f.row.transactionName) hf) hname
  unfold concerns at h
  rw [hmethods, hnames] at h
  cases h

/-- A row outside the filters contributes to no measure. -/
theorem contributes_of_not_scope {d : MetricDefinition} {f : DatedFact} (h : d.scope f = false) (m : Measure) :
    contributes f.row d m = false := by
  unfold contributes
  rw [show (passes d.methodFilter f.row.method && passes d.transactionFilter f.row.transactionName) = false from h]
  rfl

/-- Its turn of the loop does nothing. -/
theorem foldMeasures_of_not_scope {d : MetricDefinition} {f : DatedFact} (h : d.scope f = false)
    (ms : List Measure) (out : Buckets) : ms.foldlM (foldMeasure w d f.row) out = some out := by
  induction ms with
  | nil => rfl
  | cons m ms ih =>
    rw [List.foldlM_cons]
    have hskip : foldMeasure w d f.row out m = some out := by
      unfold foldMeasure
      rw [contributes_of_not_scope h m]
      rfl
    rw [hskip]
    exact ih

/-- **The fold only sees the rows inside the filters.** -/
theorem foldRows_scope (d : MetricDefinition) (facts : List DatedFact) :
    foldRows w d (facts.map DatedFact.row) = foldRows w d ((facts.filter d.scope).map DatedFact.row) := by
  unfold foldRows
  generalize d.empty = out
  induction facts generalizing out with
  | nil => rfl
  | cons f facts ih =>
    cases hf : d.scope f with
    | false =>
      rw [List.filter_cons_of_neg (by simp [hf]), List.map_cons, List.foldlM_cons,
        foldMeasures_of_not_scope w hf d.measures out]
      exact ih out
    | true =>
      rw [List.filter_cons_of_pos hf, List.map_cons, List.map_cons, List.foldlM_cons, List.foldlM_cons]
      exact congrArg _ (funext ih)

/-- Nothing observed, no row. -/
theorem rowsOf_empty (q : RegisteredMetric) (k : Bucket × List (Option String)) :
    q.rowsOf (k, q.definition.empty) = [] := by
  unfold RegisteredMetric.rowsOf
  rw [List.filterMap_eq_nil_iff]
  intro name _
  cases hroles : q.definition.empty name with
  | none => simp [hroles]
  | some roles =>
    obtain ⟨m, -, rfl⟩ := Option.map_eq_some_iff.mp hroles
    have hempty : m.aggregation.emptyRoles.isEmpty = true := by
      cases m.aggregation
      all_goals rfl
    simp [hroles, hempty]

/-! ## §4. A fold, group by group. -/

/-- The rows of one group. -/
def RegisteredMetric.groupOf (q : RegisteredMetric) (place : DatedFact → Option Bucket) (facts : List DatedFact)
    (k : Bucket × List (Option String)) : Option (List (RowKey × Roles)) :=
  (foldRows w q.definition (groupRows (fun f => (place f).map fun b => (b, q.dimKey w f)) facts k)).map
    fun out => q.rowsOf (k, out)

theorem rowsBy_eq (q : RegisteredMetric) (place : DatedFact → Option Bucket) (facts : List DatedFact) :
    q.rowsBy w place facts =
      (((facts.filterMap fun f => (place f).map fun b => (b, q.dimKey w f)).dedup).mapM
        (q.groupOf w place facts)).map List.flatten := mapM_flatMap _ _ _

/-- The rows of a group are those of its facts inside the filters. -/
theorem groupRows_scope {κ : Type} [DecidableEq κ] (d : MetricDefinition) (keyOf : DatedFact → Option κ)
    (facts : List DatedFact) (k : κ) :
    foldRows w d (groupRows keyOf facts k) = foldRows w d (groupRows keyOf (facts.filter d.scope) k) := by
  unfold groupRows
  rw [foldRows_scope, List.filter_filter, List.filter_filter]
  congr 3
  exact funext fun f => Bool.and_comm _ _

/-- **A fold by buckets only sees the facts inside the filters.** -/
theorem rowsBy_scope (q : RegisteredMetric) (place : DatedFact → Option Bucket) (facts : List DatedFact) :
    SameRows (q.rowsBy w place facts) (q.rowsBy w place (facts.filter q.definition.scope)) := by
  rw [rowsBy_eq, rowsBy_eq]
  set keyOf := fun f : DatedFact => (place f).map fun b => (b, q.dimKey w f) with hkeyOf
  have hgroup : q.groupOf w place (facts.filter q.definition.scope) = q.groupOf w place facts := by
    funext k
    unfold RegisteredMetric.groupOf
    rw [← groupRows_scope]
  rw [hgroup, mapM_flatten_filter
    (p := fun k => decide (k ∈ ((facts.filter q.definition.scope).filterMap keyOf).dedup))]
  · apply mapM_flatten_perm
    rw [List.perm_ext_iff_of_nodup ((List.nodup_dedup _).filter _) (List.nodup_dedup _)]
    intro k
    rw [List.mem_filter, decide_eq_true_eq]
    constructor
    · exact fun h => h.2
    · intro h
      refine ⟨?_, h⟩
      obtain ⟨f, hf, hk⟩ := mem_keys.mp h
      exact mem_keys.mpr ⟨f, (List.mem_filter.mp hf).1, hk⟩
  · -- a group without a fact inside the filters folds to nothing
    intro k _ hk
    have hrows : groupRows keyOf (facts.filter q.definition.scope) k = [] :=
      groupRows_of_not_mem (by simpa using hk)
    unfold RegisteredMetric.groupOf
    rw [groupRows_scope, hrows]
    show some (q.rowsOf (k, q.definition.empty)) = some []
    rw [rowsOf_empty]

/-! ## §5. Before and after a run. -/

section Run

variable {t t' : FactTable} {stored : List StoredFact} {source : List SourceFact}

/-- **The facts of a kind that no side of a writing outcome is of**: the same before and after. -/
theorem factsOf_filter {p : DatedFact → Bool} (hstored : ∀ f ∈ stored, f ∈ t.rows)
    (h : applyAll factFolding t (factDiff stored source) = some t')
    (hp : ∀ f ∈ (factDiff stored source).flatMap sides, p f = false) :
    (factsOf t').filter p = (factsOf t).filter p := by
  have hin : Within (byKey (fun f : StoredFact => f.toSourceFact.key) stored) t := by
    intro k o ho
    obtain ⟨hmem, hk⟩ := byKey_sound ho
    exact Table.find_eq_some.mpr ⟨hstored o hmem, hk⟩
  have hkeyed : ∀ o ∈ factDiff stored source, o.Keyed SourceFact.key :=
    diff_keyed fun k f hf => (byKey_sound hf).2
  have hfits : ∀ o ∈ factDiff stored source, o.Fits t := by
    refine diff_fits hin fun k hk hh => ?_
    by_contra hthere
    -- a key added by the source but already in the table would have failed the fold
    have hfail := (applyAll_diff_eq_none (F := factFolding) hin fun k f hf => (byKey_sound hf).2).mpr
      ⟨k, hk, hh, hthere⟩
    rw [show applyAll factFolding t (diff factFolding _ _) = some t' from h] at hfail
    cases hfail
  have hside : ∀ o ∈ factDiff stored source, ∀ f ∈ sides o, p f = false := fun o ho f hf =>
    hp f (List.mem_flatMap.mpr ⟨o, ho, hf⟩)
  have hrows : t'.rows.filter (fun f => p f.fact) = t.rows.filter fun f => p f.fact := by
    apply filter_applyAll diff_nodup hkeyed hfits _ _ h
    · intro o ho v hv
      have hs := hside o ho
      cases o with
      | insert k new => cases hv
      | update k old new => cases hv; exact hs _ List.mem_cons_self
      | unchanged k old => cases hv
      | reverse k old => cases hv; exact hs _ List.mem_cons_self
    · intro o ho v hv
      have hs := hside o ho
      cases o with
      | insert k new => cases hv; exact hs _ List.mem_cons_self
      | update k old new => cases hv; exact hs _ (List.mem_cons_of_mem _ List.mem_cons_self)
      | unchanged k old => cases hv
      | reverse k old => cases hv
  unfold factsOf
  rw [List.filter_map, List.filter_map]
  exact congrArg _ hrows

/-- **A definition that the run does not concern** has the same rows in every bucket. -/
theorem bucketRows_of_not_concerns (hstored : ∀ f ∈ stored, f ∈ t.rows)
    (h : applyAll factFolding t (factDiff stored source) = some t') {q : RegisteredMetric}
    (hq : concerns q.definition (changedOf (factDiff stored source)) = false) (hidden : List String)
    (grain : Grain) (b : Bucket) :
    SameRows (q.bucketRows w c hidden (factsOf t) grain b) (q.bucketRows w c hidden (factsOf t') grain b) := by
  have hscope : (factsOf t').filter q.definition.scope = (factsOf t).filter q.definition.scope :=
    factsOf_filter hstored h fun f hf => scope_of_not_concerns hq hf
  have hgate : ∀ facts : List DatedFact, q.bucketRows w c hidden facts grain b = q.rowsBy w
      (fun f => if placeIn c grain f = some b then some b else none)
      (facts.filter fun f => f.visible hidden && f.since q.rollupsFrom) := fun _ => rfl
  have hcomm : ∀ facts : List DatedFact,
      (facts.filter fun f => f.visible hidden && f.since q.rollupsFrom).filter q.definition.scope =
        (facts.filter q.definition.scope).filter fun f => f.visible hidden && f.since q.rollupsFrom := by
    intro facts
    rw [List.filter_filter, List.filter_filter]
    exact List.filter_congr fun f _ => Bool.and_comm _ _
  rw [hgate, hgate]
  refine (rowsBy_scope w q _ _).trans ?_
  rw [hcomm, ← hscope, ← hcomm]
  exact (rowsBy_scope w q _ _).symm

/-- A side in a bucket makes it dirty. -/
theorem mem_buckets_of_side {outcomes : List FactOutcome} {f : DatedFact} (hf : f ∈ outcomes.flatMap sides)
    {grain : Grain} {b : Bucket} (hb : placeIn c grain f = some b) :
    b ∈ (dirtyBuckets outcomes).buckets c grain := by
  cases grain with
  | hourly =>
    obtain ⟨t, ht, rfl⟩ := Option.map_eq_some_iff.mp hb
    refine List.mem_map_of_mem (List.mem_filterMap.mpr ⟨f, hf, ?_⟩)
    rw [ht]
    rfl
  | daily =>
    obtain ⟨d, hd, rfl⟩ := Option.map_eq_some_iff.mp hb
    exact List.mem_map_of_mem (List.mem_filterMap.mpr ⟨f, hf, hd⟩)
  | monthly =>
    obtain ⟨d, hd, rfl⟩ := Option.map_eq_some_iff.mp hb
    exact List.mem_map_of_mem (List.mem_map_of_mem (List.mem_filterMap.mpr ⟨f, hf, hd⟩))

/-- **A bucket that is not dirty** has the same rows. -/
theorem bucketRows_of_not_dirty (hstored : ∀ f ∈ stored, f ∈ t.rows)
    (h : applyAll factFolding t (factDiff stored source) = some t') (q : RegisteredMetric) (hidden : List String)
    {grain : Grain} {b : Bucket} (hb : b ∉ (dirtyBuckets (factDiff stored source)).buckets c grain) :
    q.bucketRows w c hidden (factsOf t) grain b = q.bucketRows w c hidden (factsOf t') grain b := by
  have hplace : (factsOf t').filter (fun f => decide (placeIn c grain f = some b)) =
      (factsOf t).filter fun f => decide (placeIn c grain f = some b) := by
    refine factsOf_filter hstored h fun f hf => ?_
    rw [decide_eq_false_iff_not]
    exact fun hp => hb (mem_buckets_of_side c hf hp)
  have honly : ∀ facts : List DatedFact, q.bucketRows w c hidden facts grain b =
      q.bucketRows w c hidden (facts.filter fun f => decide (placeIn c grain f = some b)) grain b := by
    intro facts
    unfold RegisteredMetric.bucketRows
    rw [List.filter_filter]
    apply rowsBy_filter_congr
    intro f hf
    have hin : placeIn c grain f = some b := by
      by_contra hno
      simp [hno] at hf
    simp [hin]
  rw [honly (factsOf t), honly (factsOf t'), hplace]

/-- **Skipping is sound.**  After a run, a definition that its outcomes do not concern has the rows it had, in
    every bucket; of every definition, each bucket whose rows differ is among the dirty ones, the old and the
    new one of a fact that moved; and the shared scan writes for each definition that is not skipped what
    `recompute` writes for it alone. -/
theorem untouched_sound (hstored : ∀ f ∈ stored, f ∈ t.rows)
    (h : applyAll factFolding t (factDiff stored source) = some t') :
    (∀ (q : RegisteredMetric) hidden grain b,
      concerns q.definition (changedOf (factDiff stored source)) = false →
        SameRows (q.bucketRows w c hidden (factsOf t) grain b) (q.bucketRows w c hidden (factsOf t') grain b)) ∧
    (∀ (q : RegisteredMetric) hidden grain b,
      ¬SameRows (q.bucketRows w c hidden (factsOf t) grain b) (q.bucketRows w c hidden (factsOf t') grain b) →
        b ∈ (dirtyBuckets (factDiff stored source)).buckets c grain) ∧
    ∀ today hidden dirty recDirty facts recordFacts (metrics : List RegisteredMetric) changed store store',
      (metrics.map RegisteredMetric.id).Nodup →
        (foldAll w c today hidden dirty recDirty facts recordFacts metrics changed store = some store' ↔
          (∀ q ∈ foldedDefs metrics changed, recomputeAlone w c today hidden dirty recDirty facts recordFacts q
            (store q.id) = some (store' q.id)) ∧
          ∀ i, i ∉ (foldedDefs metrics changed).map RegisteredMetric.id → store' i = store i) := by
  refine ⟨?_, ?_, ?_⟩
  · intro q hidden grain b hq
    exact bucketRows_of_not_concerns w c hstored h hq hidden grain b
  · intro q hidden grain b hdiffer
    by_contra hclean
    apply hdiffer
    rw [bucketRows_of_not_dirty w c hstored h q hidden hclean]
    exact SameRows.refl _
  · intro today hidden dirty recDirty facts recordFacts metrics changed store store' hids
    exact foldAll_iff w c hids

end Run

/-- A probe without a name, at the first instant. -/
def probe : SourceFact where
  id := "a1"
  fact := { row := { eventTime := some 0 }, businessDate := some 0 }

/-- Dates that are thirty to a month, in UTC. -/
def thirtyDays : DateArithmetic where
  midnight d := 24 * oneHour * d
  monthOf d := d - d % 30
  monthEnd d := d + 29

/-- The probe after a rebuild moved it by an hour. -/
def movedProbe : SourceFact where
  id := "a1"
  fact := { row := { eventTime := some oneHour }, businessDate := some 0 }

/-- The table with the probe in it. -/
def probed : FactTable := ⟨[⟨probe, 1⟩], List.nodup_singleton _⟩

/-- A fact that moves puts the hour it left and the one it came to among the dirty ones. -/
theorem untouched_sound_probe : ∃ t' : FactTable,
    applyAll factFolding probed (factDiff probed.rows [movedProbe]) = some t' ∧
      (∀ (q : RegisteredMetric) b,
        ¬SameRows (q.bucketRows plainTexts thirtyDays [] (factsOf probed) .hourly b)
            (q.bucketRows plainTexts thirtyDays [] (factsOf t') .hourly b) →
          b ∈ (dirtyBuckets (factDiff probed.rows [movedProbe])).buckets thirtyDays .hourly) ∧
      ∀ b ∈ [Bucket.hour 0, .hour oneHour],
        b ∈ (dirtyBuckets (factDiff probed.rows [movedProbe])).buckets thirtyDays .hourly := by
  have hstored : ∀ f ∈ probed.rows, f ∈ probed.rows := fun f hf => hf
  refine ⟨⟨[⟨movedProbe, 1⟩], List.nodup_singleton _⟩, rfl, fun q b => ?_, ?_⟩
  · exact (untouched_sound plainTexts thirtyDays hstored rfl).2.1 q [] .hourly b
  · decide +kernel

end RagPipeline.Analytics
