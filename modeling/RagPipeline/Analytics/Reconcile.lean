/-
  RagPipeline.Analytics.Reconcile — the audit of the rollup tables, and what it can see.

  The audit folds the facts of a window afresh with the writer's own fold, and compares the result, key by
  key, with the stored rows of the buckets that the window covers whole.  It reads the facts without the
  writer's two gates (hidden names, `rollups_from`), looks at no column but the sum, and lists the first
  hundred surplus rows only.

    * `rollupsVsFacts`   — the audit;
    * `freshRows`        — what the writer stores for an hour;
    * `compared`         — the loop that takes the stored rows out one by one, said at once;
    * `reports_iff`      — when an hour is reported;
    * `audit_exact_iff`  — and so when the audit is right about it.

  The row is found by its key: the table has one row for each.
-/
import RagPipeline.Analytics.TwoTier
import RagPipeline.Lib.OrderedDict

namespace RagPipeline.Analytics

open RagPipeline.Stage2 RagPipeline.Lib

/-! ## §1. Metrics, rows and findings. -/

/-- An active definition over transactions. -/
structure ActiveMetric where
  id : ℕ
  definition : MetricDefinition
  names : (definition.measures.map Measure.name).Nodup
  dimensions : List FieldName
  grains : List Grain
  rollupsFrom : Option Instant := none

/-- What a stored row is found by: bucket, measure name and dimensions. -/
abbrev RowKey := Bucket × String × List (Option String)

/-- The rows of one definition and one grain. -/
abbrev RollupTable := OrderedDict RowKey RollupRow

/-- What is wrong with a row. -/
inductive Drift where
  | missing | differs | orphaned
  deriving DecidableEq, Repr

/-- `Finding`, of a rollup. -/
structure DriftFinding where
  metric : ActiveMetric
  grain : Grain
  key : RowKey
  kind : Drift
  stored : Option Number
  recomputed : Option Number

variable (w : PythonTexts)

/-- `_dim_key`: padded with nothing to the number of slots. -/
def ActiveMetric.dimKey (q : ActiveMetric) (f : DatedFact) : List (Option String) :=
  let values := (q.dimensions.take dimensionSlots).map (f.dimension w)
  values ++ List.replicate (dimensionSlots - values.length) none

/-- The key `group_fold` puts a fact under. -/
def ActiveMetric.keyOf (q : ActiveMetric) (grain : Grain) (f : DatedFact) :
    Option (Bucket × List (Option String)) :=
  (bucketOf grain f).map fun b => (b, q.dimKey w f)

/-- The measures of a fold that are not empty, each under its key: what `_rows_for` and the audit go
    through. -/
def foldedItems (q : ActiveMetric) (grain : Grain) (facts : List DatedFact) : Option (List (RowKey × Roles)) :=
  (groupFold w q.definition (q.keyOf w grain) facts).map fun folded =>
    folded.flatMap fun g => q.definition.measures.filterMap fun m =>
      (g.2 m.name).bind fun roles =>
        if roles.isEmpty then none else some ((g.1.1, m.name, g.1.2), roles)

/-! ## §2. The writer. -/

/-- **What the writer stores for an hour**: `_read_dirty_facts`, `_since`, `group_fold`, `_rows_for` and the
    insert. -/
def freshRows (q : ActiveMetric) (hidden : List String) (facts : List DatedFact) (b : Bucket) :
    Option (List (RowKey × RollupRow)) :=
  (foldedItems w q .hourly (facts.filter fun f =>
      f.visible hidden && f.since q.rollupsFrom && decide (bucketOf .hourly f = some b))).bind fun items =>
    items.mapM fun p => (insert (rowFor p.2)).map (Prod.mk p.1)

/-! ## §3. The audit. -/

/-- `UtcWindow` of the audit: half open, and open at a side that is not given. -/
structure AuditWindow where
  start : Option Instant
  stop : Option Instant

namespace AuditWindow

/-- `covers`, of an instant; nothing is in no window. -/
def covers (window : AuditWindow) (t : Option Instant) : Bool :=
  t.any fun t => window.start.all (fun lo => decide (lo ≤ t)) && window.stop.all fun hi => decide (t < hi)

/-- The predicate of `_stored_rollups`. -/
def reads (window : AuditWindow) (cal : Calendar) : Bucket → Bool
  | .hour start => window.covers (some start)
  | .day date =>
    match window.start, window.stop with
    | some lo, some hi => decide (cal.utcDate lo ≤ date ∧ date ≤ cal.utcDate hi)
    | lo, hi => lo.all (fun lo => decide (cal.utcDate lo ≤ date)) && hi.all fun hi => decide (date < cal.utcDate hi)

/-- `_covered`: the bucket is in the window from end to end. -/
def whole (window : AuditWindow) (cal : Calendar) (b : Bucket) : Bool :=
  match window.start, window.stop, b with
  | some lo, some hi, .hour start => decide (lo ≤ start ∧ start + oneHour ≤ hi)
  | some lo, some hi, .day date => decide (lo ≤ cal.midnight date ∧ cal.midnight (date + 1) ≤ hi)
  | _, _, _ => true

end AuditWindow

/-- `_SAMPLE`. -/
def sample : ℕ := 100

/-- `_EPSILON`. -/
def epsilon : Number := .finite (1 / 1000000)

/-- `abs`, in the context. -/
def Number.abs (x : Number) : Number := if x.isNegative then x.negate else x

/-- `abs(Decimal(str(got or 0)) - want) > _EPSILON`. -/
def sumDiffers (got : Option Number) (want : Number) : Option Bool :=
  (Number.sub decimalContext (got.getD Number.zero) want).bind fun gap => Number.lt epsilon (Number.abs gap)

/-- What the audit says of one measure of the fresh fold and of its stored row. -/
def judge (q : ActiveMetric) (grain : Grain) (row : Option RollupRow) (item : RowKey × Roles) :
    Option (List DriftFinding) :=
  match row, item.2.sumValue with
  | none, want => some [⟨q, grain, item.1, .missing, none, want⟩]
  | some _, none => some []
  | some row, some want =>
    (sumDiffers row.sumValue want).map fun differs =>
      if differs then [⟨q, grain, item.1, .differs, row.sumValue, some want⟩] else []

/-- One turn of the loop: the row is taken out. -/
def compareItem (q : ActiveMetric) (grain : Grain) (s : RollupTable × List DriftFinding) (item : RowKey × Roles) :
    Option (RollupTable × List DriftFinding) :=
  (judge q grain (s.1.get? item.1) item).map fun found => (s.1.erase item.1, s.2 ++ found)

/-- The stored rows of the whole buckets. -/
def wholeRows (cal : Calendar) (window : AuditWindow) (table : RollupTable) : RollupTable :=
  table.filterKeys fun k => window.reads cal k.1 && window.whole cal k.1

/-- One definition and one grain of `_compare_rollups`. -/
def compareGrain (cal : Calendar) (window : AuditWindow) (facts : List DatedFact) (q : ActiveMetric) (grain : Grain)
    (table : RollupTable) : Option (List DriftFinding) :=
  if grain ∉ q.grains then some []
  else (foldedItems w q grain facts).bind fun items =>
    ((items.filter fun p => window.whole cal p.1.1).foldlM (compareItem q grain) (wholeRows cal window table, [])).map
      fun s => s.2 ++ (s.1.items.take sample).map fun p => ⟨q, grain, p.1, .orphaned, p.2.sumValue, none⟩

/-- **`rollups_vs_facts`.** -/
def rollupsVsFacts (cal : Calendar) (window : AuditWindow) (metrics : List ActiveMetric) (facts : List DatedFact)
    (table : ActiveMetric → Grain → RollupTable) : Option (List DriftFinding) :=
  let read := facts.filter fun f => window.covers f.row.eventTime
  (metrics.mapM fun q =>
    (compareGrain w cal window read q .hourly (table q .hourly)).bind fun hourly =>
      (compareGrain w cal window read q .daily (table q .daily)).map fun daily => hourly ++ daily).map List.flatten

/-! ## §4. The loop, said at once. -/

/-- A loop that ends has judged every item. -/
theorem judged_of_compared {q : ActiveMetric} {grain : Grain} {items : List (RowKey × Roles)}
    {s s' : RollupTable × List DriftFinding} (hkeys : (items.map Prod.fst).Nodup)
    (h : items.foldlM (compareItem q grain) s = some s') :
    ∀ p ∈ items, ∃ fs, judge q grain (s.1.get? p.1) p = some fs := by
  induction items generalizing s with
  | nil => exact fun p hp => absurd hp List.not_mem_nil
  | cons item items ih =>
    obtain ⟨hnew, hkeys⟩ := List.nodup_cons.mp hkeys
    rw [List.foldlM_cons] at h
    obtain ⟨s₁, hs, hrest⟩ := Option.bind_eq_some_iff.mp h
    obtain ⟨fs, hfs, rfl⟩ := Option.map_eq_some_iff.mp hs
    intro p hp
    rcases List.mem_cons.mp hp with rfl | hp
    · exact ⟨fs, hfs⟩
    · obtain ⟨fs', hfs'⟩ := ih hkeys hrest p hp
      have hother : p.1 ≠ item.1 := fun heq => hnew (heq ▸ List.mem_map_of_mem hp)
      rw [OrderedDict.get?_erase_ne _ hother] at hfs'
      exact ⟨fs', hfs'⟩

/-- Taking out rows under different keys. -/
theorem compared {q : ActiveMetric} {grain : Grain} {items : List (RowKey × Roles)} {table left : RollupTable}
    {acc found : List DriftFinding} (hkeys : (items.map Prod.fst).Nodup)
    (h : items.foldlM (compareItem q grain) (table, acc) = some (left, found)) :
    left.items = table.items.filter (fun p => decide (p.1 ∉ items.map Prod.fst)) ∧
      ∀ f, f ∈ found ↔ f ∈ acc ∨ ∃ p ∈ items, ∃ fs, judge q grain (table.get? p.1) p = some fs ∧ f ∈ fs := by
  induction items generalizing table acc with
  | nil =>
    obtain ⟨rfl, rfl⟩ := Prod.mk.inj (Option.some.inj h)
    simp
  | cons item items ih =>
    obtain ⟨hnew, hkeys⟩ := List.nodup_cons.mp hkeys
    rw [List.foldlM_cons] at h
    obtain ⟨s, hs, hrest⟩ := Option.bind_eq_some_iff.mp h
    obtain ⟨fs, hfs, rfl⟩ := Option.map_eq_some_iff.mp hs
    obtain ⟨hleft, hfound⟩ := ih hkeys hrest
    refine ⟨?_, fun f => ?_⟩
    · rw [hleft, OrderedDict.items_erase, List.filter_filter]
      refine List.filter_congr fun p _ => ?_
      simp only [List.map_cons, List.mem_cons, not_or, Bool.decide_and]
      rw [Bool.and_comm]
    · rw [hfound f, List.mem_append, or_assoc]
      refine or_congr_right ?_
      -- the other rows are still there
      have hothers : ∀ p ∈ items, (table.erase item.1).get? p.1 = table.get? p.1 := by
        intro p hp
        refine OrderedDict.get?_erase_ne _ fun heq => hnew ?_
        rw [← heq]
        exact List.mem_map_of_mem hp
      constructor
      · rintro (hf | ⟨p, hp, fs', hfs', hf⟩)
        · exact ⟨item, List.mem_cons_self, fs, hfs, hf⟩
        · rw [hothers p hp] at hfs'
          exact ⟨p, List.mem_cons_of_mem _ hp, fs', hfs', hf⟩
      · rintro ⟨p, hp, fs', hfs', hf⟩
        rcases List.mem_cons.mp hp with rfl | hp
        · have heq : fs' = fs := Option.some.inj (hfs'.symm.trans hfs)
          exact Or.inl (heq ▸ hf)
        · refine Or.inr ⟨p, hp, fs', ?_, hf⟩
          rw [hothers p hp]
          exact hfs'

/-! ## §5. One row for each key. -/

theorem filterMap_fst_sublist {α κ β : Type} {f : α → Option (κ × β)} {key : α → κ}
    (h : ∀ a p, f a = some p → p.1 = key a) (l : List α) : ((l.filterMap f).map Prod.fst).Sublist (l.map key) := by
  induction l with
  | nil => exact List.Sublist.refl []
  | cons a l ih =>
    cases ha : f a with
    | none =>
      rw [List.filterMap_cons_none ha]
      exact ih.cons _
    | some p =>
      rw [List.filterMap_cons_some ha, List.map_cons, List.map_cons, h a p ha]
      exact ih.cons_cons _

/-- No two measures of a fresh fold share a key. -/
theorem foldedItems_nodup {q : ActiveMetric} {grain : Grain} {facts : List DatedFact}
    {items : List (RowKey × Roles)} (h : foldedItems w q grain facts = some items) :
    (items.map Prod.fst).Nodup := by
  obtain ⟨folded, hfold, rfl⟩ := Option.map_eq_some_iff.mp h
  have hkeys : (folded.map Prod.fst).Nodup := by
    rw [((mapM_pair _ _).mp hfold).1]
    exact List.nodup_dedup _
  have hsub : ∀ g : (Bucket × List (Option String)) × Buckets,
      ((q.definition.measures.filterMap fun m => (g.2 m.name).bind fun roles =>
        if roles.isEmpty then none else some ((g.1.1, m.name, g.1.2), roles)).map Prod.fst).Sublist
        (q.definition.measures.map fun m => (g.1.1, m.name, g.1.2)) := by
    intro g
    refine filterMap_fst_sublist (fun m p hp => ?_) _
    obtain ⟨roles, -, hroles⟩ := Option.bind_eq_some_iff.mp hp
    split at hroles
    · cases hroles
    · rw [← Option.some.inj hroles]
  rw [List.map_flatMap, List.nodup_flatMap]
  constructor
  · intro g _
    refine (List.Nodup.sublist (hsub g)) ?_
    have hnames : (q.definition.measures.map fun m => ((g.1.1, m.name, g.1.2) : RowKey)) =
        (q.definition.measures.map Measure.name).map fun n => (g.1.1, n, g.1.2) := by
      rw [List.map_map]
      rfl
    rw [hnames]
    refine q.names.map fun a b hab => ?_
    exact (Prod.mk.inj (Prod.mk.inj hab).2).1
  · refine (List.pairwise_map.mp hkeys).imp fun {g g'} hne k hk hk' => hne ?_
    obtain ⟨m, -, hm⟩ := List.mem_map.mp ((hsub g).subset hk)
    obtain ⟨m', -, hm'⟩ := List.mem_map.mp ((hsub g').subset hk')
    obtain ⟨hbucket, hrest⟩ := Prod.mk.inj (hm.trans hm'.symm)
    exact Prod.ext hbucket (Prod.mk.inj hrest).2

/-! ## §6. What an hour shows. -/

/-- The fresh fold of the audit: of all facts of the window. -/
def expected (window : AuditWindow) (facts : List DatedFact) (q : ActiveMetric) : List (RowKey × Roles) :=
  (foldedItems w q .hourly (facts.filter fun f => window.covers f.row.eventTime)).getD []

/-- The stored rows that no fact of the window is behind. -/
def surplus (cal : Calendar) (window : AuditWindow) (facts : List DatedFact) (q : ActiveMetric)
    (table : RollupTable) : List (RowKey × RollupRow) :=
  (wholeRows cal window table).items.filter fun p => decide (p.1 ∉ (expected w window facts q).map Prod.fst)

/-- **What the audit sees of an hour**: a measure of the fresh fold whose row is not there, or has another
    sum; or a surplus row, of the first hundred. -/
def Shows (cal : Calendar) (window : AuditWindow) (facts : List DatedFact) (q : ActiveMetric) (table : RollupTable)
    (b : Bucket) : Prop :=
  (∃ p ∈ expected w window facts q, p.1.1 = b ∧ (table.get? p.1 = none ∨
    ∃ row want, table.get? p.1 = some row ∧ p.2.sumValue = some want ∧
      sumDiffers row.sumValue want = some true)) ∨
  ∃ p ∈ (surplus w cal window facts q table).take sample, p.1.1 = b

/-- An hour of a definition is in the report. -/
def Reports (findings : List DriftFinding) (q : ActiveMetric) (b : Bucket) : Prop :=
  ∃ f ∈ findings, f.metric = q ∧ f.grain = .hourly ∧ f.key.1 = b

theorem judge_cases {q : ActiveMetric} {grain : Grain} {row : Option RollupRow} {item : RowKey × Roles}
    {fs : List DriftFinding} (h : judge q grain row item = some fs) :
    (∀ f ∈ fs, f.metric = q ∧ f.grain = grain ∧ f.key = item.1) ∧
      (fs ≠ [] ↔ row = none ∨ ∃ r want, row = some r ∧ item.2.sumValue = some want ∧
        sumDiffers r.sumValue want = some true) := by
  unfold judge at h
  split at h
  · obtain rfl := Option.some.inj h
    simp
  · rename_i hnone
    obtain rfl := Option.some.inj h
    simp [hnone]
  · rename_i r want hwant
    obtain ⟨differs, hdiffers, rfl⟩ := Option.map_eq_some_iff.mp h
    cases differs with
    | true => simp [hwant, hdiffers]
    | false => simp [hwant, hdiffers]

/-- The hour lies in the window from end to end. -/
def AuditWindow.WholeHour (window : AuditWindow) (t : Instant) : Prop :=
  (∀ lo, window.start = some lo → lo ≤ t) ∧ ∀ hi, window.stop = some hi → t + oneHour ≤ hi

theorem whole_of_wholeHour {window : AuditWindow} (cal : Calendar) {t : Instant} (h : window.WholeHour t) :
    window.whole cal (.hour t) = true ∧ window.reads cal (.hour t) = true := by
  have hbefore : ∀ a b : ℤ, a + 3600 * 1000000 ≤ b → a < b := by
    intro a b
    omega
  obtain ⟨hlo, hhi⟩ := h
  constructor
  · unfold AuditWindow.whole
    split
    · rename_i lo hi start hs he hb
      cases hb
      exact decide_eq_true ⟨hlo lo hs, hhi hi he⟩
    · rename_i hb
      cases hb
    · rfl
  · show (window.start.all (fun lo => decide (lo ≤ t)) && window.stop.all fun hi => decide (t < hi)) = true
    rw [Bool.and_eq_true]
    constructor
    · cases hs : window.start with
      | none => rfl
      | some lo => exact decide_eq_true (hlo lo hs)
    · cases he : window.stop with
      | none => rfl
      | some hi => exact decide_eq_true (hbefore _ _ (hhi hi he))

section Run

variable {w : PythonTexts} {cal : Calendar} {window : AuditWindow} {facts : List DatedFact} {q : ActiveMetric}
  {grain : Grain} {table : RollupTable} {findings : List DriftFinding}

/-- One definition and one grain, once its facts are folded. -/
theorem compareGrain_mem {items : List (RowKey × Roles)} (hgrain : grain ∈ q.grains)
    (hitems : foldedItems w q grain facts = some items)
    (h : compareGrain w cal window facts q grain table = some findings) (f : DriftFinding) :
    f ∈ findings ↔
      (∃ p ∈ items, window.whole cal p.1.1 = true ∧ ∃ fs,
        judge q grain ((wholeRows cal window table).get? p.1) p = some fs ∧ f ∈ fs) ∨
      ∃ p ∈ ((wholeRows cal window table).items.filter fun p => decide (p.1 ∉ items.map Prod.fst)).take sample,
        f = ⟨q, grain, p.1, .orphaned, p.2.sumValue, none⟩ := by
  unfold compareGrain at h
  rw [if_neg (not_not.mpr hgrain), hitems, Option.bind_some] at h
  obtain ⟨⟨left, found⟩, hloop, rfl⟩ := Option.map_eq_some_iff.mp h
  have hkeys : ((items.filter fun p => window.whole cal p.1.1).map Prod.fst).Nodup :=
    (List.filter_sublist.map Prod.fst).nodup (foldedItems_nodup w hitems)
  obtain ⟨hleft, hfound⟩ := compared hkeys hloop
  -- a stored row of a whole bucket is taken out iff its key is folded
  have hsame : left.items = (wholeRows cal window table).items.filter fun p => decide (p.1 ∉ items.map Prod.fst) := by
    rw [hleft]
    refine List.filter_congr fun p hp => ?_
    have hwhole : window.whole cal p.1.1 = true := by
      have hp' : p ∈ table.items ∧ window.reads cal p.1.1 = true ∧ window.whole cal p.1.1 = true := by
        simpa [wholeRows] using hp
      exact hp'.2.2
    rw [decide_eq_decide, not_iff_not]
    constructor
    · intro hk
      exact (List.filter_sublist.map Prod.fst).subset hk
    · intro hk
      obtain ⟨p', hp', hkey⟩ := List.mem_map.mp hk
      refine List.mem_map.mpr ⟨p', List.mem_filter.mpr ⟨hp', ?_⟩, hkey⟩
      rw [hkey]
      exact hwhole
  rw [List.mem_append, hsame, hfound f]
  refine or_congr ?_ ?_
  · constructor
    · rintro (hf | ⟨p, hp, hjudge⟩)
      · cases hf
      · obtain ⟨hp, hwhole⟩ := List.mem_filter.mp hp
        exact ⟨p, hp, hwhole, hjudge⟩
    · rintro ⟨p, hp, hwhole, hjudge⟩
      exact Or.inr ⟨p, List.mem_filter.mpr ⟨hp, hwhole⟩, hjudge⟩
  · rw [List.mem_map]
    constructor
    · rintro ⟨p, hp, rfl⟩
      exact ⟨p, hp, rfl⟩
    · rintro ⟨p, hp, rfl⟩
      exact ⟨p, hp, rfl⟩

theorem judged_of_mem {items : List (RowKey × Roles)} (hgrain : grain ∈ q.grains)
    (hitems : foldedItems w q grain facts = some items)
    (h : compareGrain w cal window facts q grain table = some findings) {p : RowKey × Roles} (hp : p ∈ items)
    (hwhole : window.whole cal p.1.1 = true) :
    ∃ fs, judge q grain ((wholeRows cal window table).get? p.1) p = some fs := by
  unfold compareGrain at h
  rw [if_neg (not_not.mpr hgrain), hitems, Option.bind_some] at h
  obtain ⟨s, hloop, -⟩ := Option.map_eq_some_iff.mp h
  have hkeys : ((items.filter fun p => window.whole cal p.1.1).map Prod.fst).Nodup :=
    (List.filter_sublist.map Prod.fst).nodup (foldedItems_nodup w hitems)
  exact judged_of_compared hkeys hloop p (List.mem_filter.mpr ⟨hp, hwhole⟩)

/-- A grain that is compared was folded. -/
theorem foldedItems_of_compared (hgrain : grain ∈ q.grains)
    (h : compareGrain w cal window facts q grain table = some findings) :
    ∃ items, foldedItems w q grain facts = some items := by
  unfold compareGrain at h
  rw [if_neg (not_not.mpr hgrain)] at h
  obtain ⟨items, hitems, -⟩ := Option.bind_eq_some_iff.mp h
  exact ⟨items, hitems⟩

/-- The findings of a grain are about it. -/
theorem compareGrain_about (h : compareGrain w cal window facts q grain table = some findings)
    {f : DriftFinding} (hf : f ∈ findings) : f.metric = q ∧ f.grain = grain ∧ grain ∈ q.grains := by
  by_cases hgrain : grain ∈ q.grains
  · obtain ⟨items, hitems⟩ := foldedItems_of_compared hgrain h
    rcases (compareGrain_mem hgrain hitems h f).mp hf with ⟨p, -, -, fs, hjudge, hf⟩ | ⟨p, -, rfl⟩
    · obtain ⟨hmetric, hg, -⟩ := (judge_cases hjudge).1 f hf
      exact ⟨hmetric, hg, hgrain⟩
    · exact ⟨rfl, rfl, hgrain⟩
  · unfold compareGrain at h
    rw [if_pos hgrain] at h
    obtain rfl := Option.some.inj h
    cases hf

variable {metrics : List ActiveMetric} {tables : ActiveMetric → Grain → RollupTable} {t : Instant}

/-- What is reported of an hour is what the audit of the definition's own hours says. -/
theorem reports_hourly (hrun : rollupsVsFacts w cal window metrics facts tables = some findings) (hq : q ∈ metrics) :
    ∃ hourly, compareGrain w cal window (facts.filter fun f => window.covers f.row.eventTime) q .hourly
      (tables q .hourly) = some hourly ∧
        (Reports findings q (.hour t) ↔ ∃ f ∈ hourly, f.key.1 = .hour t) := by
  unfold rollupsVsFacts at hrun
  obtain ⟨outs, houts, rfl⟩ := Option.map_eq_some_iff.mp hrun
  obtain ⟨hourly, hhourly⟩ : ∃ hourly, compareGrain w cal window
      (facts.filter fun f => window.covers f.row.eventTime) q .hourly (tables q .hourly) = some hourly := by
    obtain ⟨out, -, hout⟩ := (mem_mapM_left houts) q hq
    obtain ⟨hourly, hhourly, -⟩ := Option.bind_eq_some_iff.mp hout
    exact ⟨hourly, hhourly⟩
  refine ⟨hourly, hhourly, ?_⟩
  constructor
  · rintro ⟨f, hf, hmetric, hg, hbucket⟩
    obtain ⟨out, hout, hf⟩ := List.mem_flatten.mp hf
    obtain ⟨q', -, hq'⟩ := (mem_mapM houts out).mp hout
    obtain ⟨hours, hhours, hrest⟩ := Option.bind_eq_some_iff.mp hq'
    obtain ⟨days, hdays, rfl⟩ := Option.map_eq_some_iff.mp hrest
    rcases List.mem_append.mp hf with hf | hf
    · have hqq : q' = q := ((compareGrain_about hhours hf).1).symm.trans hmetric
      subst hqq
      have heq : hours = hourly := Option.some.inj (hhours.symm.trans hhourly)
      exact ⟨f, heq ▸ hf, hbucket⟩
    · have hgg := (compareGrain_about hdays hf).2.1
      rw [hg] at hgg
      cases hgg
  · rintro ⟨f, hf, hbucket⟩
    obtain ⟨out, houtmem, hout⟩ := (mem_mapM_left houts) q hq
    obtain ⟨hours, hhours, hrest⟩ := Option.bind_eq_some_iff.mp hout
    obtain ⟨days, -, rfl⟩ := Option.map_eq_some_iff.mp hrest
    have heq : hours = hourly := Option.some.inj (hhours.symm.trans hhourly)
    obtain ⟨hmetric, hg, -⟩ := compareGrain_about hhourly hf
    exact ⟨f, List.mem_flatten.mpr ⟨_, houtmem, List.mem_append_left _ (heq ▸ hf)⟩, hmetric, hg, hbucket⟩

/-- **When an hour is reported.** -/
theorem reports_iff (hrun : rollupsVsFacts w cal window metrics facts tables = some findings)
    (hq : q ∈ metrics) (hgrain : .hourly ∈ q.grains) (hwhole : window.WholeHour t) :
    Reports findings q (.hour t) ↔ Shows w cal window facts q (tables q .hourly) (.hour t) := by
  obtain ⟨hcovered, hread⟩ := whole_of_wholeHour cal hwhole
  -- what the audit of this definition's hours says
  obtain ⟨hourly, hhourly, hreports⟩ := reports_hourly (t := t) hrun hq
  obtain ⟨items, hitems⟩ := foldedItems_of_compared hgrain hhourly
  have hexpected : expected w window facts q = items := by
    unfold expected
    rw [hitems]
    rfl
  have hmem := compareGrain_mem hgrain hitems hhourly
  -- the stored rows of the hour are all among those that are read
  have hrows : ∀ k : RowKey, k.1 = .hour t →
      (wholeRows cal window (tables q .hourly)).get? k = (tables q .hourly).get? k := by
    intro k hk
    refine OrderedDict.get?_filterKeys _ ?_
    rw [hk, hread, hcovered]
    rfl
  rw [hreports]
  unfold Shows surplus
  rw [hexpected]
  constructor
  · rintro ⟨f, hf, hbucket⟩
    rcases (hmem f).mp hf with ⟨p, hp, -, fs, hjudge, hf⟩ | ⟨p, hp, rfl⟩
    · obtain ⟨habout, hseen⟩ := judge_cases hjudge
      have hkey : p.1.1 = .hour t := by
        rw [← hbucket, (habout f hf).2.2]
      rw [hrows p.1 hkey] at hseen
      exact Or.inl ⟨p, hp, hkey, hseen.mp (List.ne_nil_of_mem hf)⟩
    · exact Or.inr ⟨p, hp, hbucket⟩
  · rintro (⟨p, hp, hkey, hseen⟩ | ⟨p, hp, hkey⟩)
    · have hwholep : window.whole cal p.1.1 = true := by
        rw [hkey]
        exact hcovered
      obtain ⟨fs, hjudge⟩ := judged_of_mem hgrain hitems hhourly hp hwholep
      obtain ⟨habout, hne⟩ := judge_cases hjudge
      rw [hrows p.1 hkey] at hne
      obtain ⟨f, hf⟩ := List.exists_mem_of_ne_nil fs (hne.mpr hseen)
      refine ⟨f, (hmem f).mpr (Or.inl ⟨p, hp, hwholep, fs, hjudge, hf⟩), ?_⟩
      rw [(habout f hf).2.2, hkey]
    · exact ⟨_, (hmem _).mpr (Or.inr ⟨p, hp, rfl⟩), hkey⟩

/-! ## §7. When the audit is right. -/

/-- The stored rows of an hour are those the writer would store. -/
def Fresh (w : PythonTexts) (hidden : List String) (facts : List DatedFact) (q : ActiveMetric)
    (table : RollupTable) (b : Bucket) : Prop :=
  ∃ rows, freshRows w q hidden facts b = some rows ∧
    ∀ (k : RowKey) (r : RollupRow), k.1 = b → (table.get? k = some r ↔ (k, r) ∈ rows)

/-- The facts that the writer leaves out (hidden names, facts before `rollups_from`) matter: with them an hour
    has a row that the writer does not store, or another sum, or lacks a row that it stores. -/
def GatesMatter (w : PythonTexts) (cal : Calendar) (window : AuditWindow) (hidden : List String)
    (facts : List DatedFact) (q : ActiveMetric) (table : RollupTable) (b : Bucket) : Prop :=
  ∃ rows, freshRows w q hidden facts b = some rows ∧
    ((∃ p ∈ expected w window facts q, p.1.1 = b ∧ ((∀ r, (p.1, r) ∉ rows) ∨
      ∃ row want, (p.1, row) ∈ rows ∧ p.2.sumValue = some want ∧ sumDiffers row.sumValue want = some true)) ∨
    ∃ p ∈ rows, p.1.1 = b ∧ p ∈ (surplus w cal window facts q table).take sample)

/-- An hour that is as the writer leaves it shows what the gated facts make of it. -/
theorem shows_of_fresh {hidden : List String} {b : Bucket} (h : Fresh w hidden facts q table b) :
    Shows w cal window facts q table b ↔ GatesMatter w cal window hidden facts q table b := by
  obtain ⟨rows, hrows, hfresh⟩ := h
  have hgates : GatesMatter w cal window hidden facts q table b ↔
      ((∃ p ∈ expected w window facts q, p.1.1 = b ∧ ((∀ r, (p.1, r) ∉ rows) ∨
        ∃ row want, (p.1, row) ∈ rows ∧ p.2.sumValue = some want ∧ sumDiffers row.sumValue want = some true)) ∨
      ∃ p ∈ rows, p.1.1 = b ∧ p ∈ (surplus w cal window facts q table).take sample) := by
    constructor
    · rintro ⟨rows', hrows', hmatter⟩
      have heq : rows' = rows := Option.some.inj (hrows'.symm.trans hrows)
      exact heq ▸ hmatter
    · exact fun hmatter => ⟨rows, hrows, hmatter⟩
  rw [hgates]
  unfold Shows
  refine or_congr ?_ ?_
  · refine exists_congr fun p => and_congr_right fun _ => and_congr_right fun hp => or_congr ?_ ?_
    · constructor
      · intro hnone r hr
        rw [(hfresh p.1 r hp).mpr hr] at hnone
        cases hnone
      · intro hno
        cases hget : table.get? p.1 with
        | none => rfl
        | some r => exact absurd ((hfresh p.1 r hp).mp hget) (hno r)
    · exact exists_congr fun row => exists_congr fun want => and_congr_left fun _ => hfresh p.1 row hp
  · constructor
    · rintro ⟨p, hp, hb⟩
      have hitem : p ∈ table.items := by
        have hp' := (List.mem_filter.mp (List.mem_of_mem_take hp)).1
        have hp'' : p ∈ table.items ∧ window.reads cal p.1.1 = true ∧ window.whole cal p.1.1 = true := by
          simpa [wholeRows] using hp'
        exact hp''.1
      exact ⟨p, (hfresh p.1 p.2 hb).mp (OrderedDict.get?_eq_some.mpr hitem), hb, hp⟩
    · rintro ⟨p, -, hb, hp⟩
      exact ⟨p, hp, hb⟩

/-- **An hour is reported exactly when it is stale iff**, where it is fresh, no gated fact matters, and where it
    is stale, this shows in a key or in a sum. -/
theorem audit_exact_iff (w : PythonTexts) (cal : Calendar) (window : AuditWindow) (metrics : List ActiveMetric)
    (facts : List DatedFact) (tables : ActiveMetric → Grain → RollupTable) (hidden : List String)
    {findings : List DriftFinding} (hrun : rollupsVsFacts w cal window metrics facts tables = some findings)
    {q : ActiveMetric} (hq : q ∈ metrics) (hgrain : .hourly ∈ q.grains) {t : Instant}
    (hwhole : window.WholeHour t) :
    (Reports findings q (.hour t) ↔ ¬ Fresh w hidden facts q (tables q .hourly) (.hour t)) ↔
      (Fresh w hidden facts q (tables q .hourly) (.hour t) →
        ¬ GatesMatter w cal window hidden facts q (tables q .hourly) (.hour t)) ∧
      (¬ Fresh w hidden facts q (tables q .hourly) (.hour t) →
        Shows w cal window facts q (tables q .hourly) (.hour t)) := by
  rw [reports_iff hrun hq hgrain hwhole]
  by_cases hfresh : Fresh w hidden facts q (tables q .hourly) (.hour t)
  · rw [← shows_of_fresh hfresh]
    constructor
    · intro h
      exact ⟨fun _ hshows => h.mp hshows hfresh, fun hstale => absurd hfresh hstale⟩
    · rintro ⟨hsilent, -⟩
      exact ⟨fun hshows => absurd hshows (hsilent hfresh), fun hstale => absurd hfresh hstale⟩
  · constructor
    · intro h
      exact ⟨fun hyes => absurd hyes hfresh, fun _ => h.mpr hfresh⟩
    · rintro ⟨-, hseen⟩
      exact ⟨fun _ => hfresh, hseen⟩

end Run

/-! ## §8. A count that drifted. -/

/-- How many transactions there were, by the hour. -/
def hourlyHits : ActiveMetric where
  id := 1
  definition := { measures := [{ name := "hits", aggregation := .count }] }
  names := countHits.names
  dimensions := []
  grains := [.hourly]

/-- The row of the first hour. -/
def firstHourRow (count : ℕ) : RowKey × RollupRow :=
  ((.hour 0, "hits", List.replicate dimensionSlots none), rowFor { countValue := some count })

/-- A table with that row. -/
def firstHourTable (count : ℕ) : RollupTable :=
  (OrderedDict.empty : RollupTable).set (firstHourRow count).1 (firstHourRow count).2

/-- The first hour, from end to end. -/
def firstHourWindow : AuditWindow := ⟨some 0, some oneHour⟩

theorem firstHour_whole : firstHourWindow.WholeHour 0 := by
  constructor
  · intro lo hlo
    rw [← Option.some.inj hlo]
  · intro hi hhi
    rw [← Option.some.inj hhi]
    decide

/-- The first hour as the writer leaves it. -/
theorem audit_exact_iff_firstHour :
    (Reports [] hourlyHits (.hour 0) ↔
        ¬ Fresh plainTexts ["PING"] [hit "PICK" 0] hourlyHits (firstHourTable 1) (.hour 0)) ↔
      (Fresh plainTexts ["PING"] [hit "PICK" 0] hourlyHits (firstHourTable 1) (.hour 0) →
        ¬ GatesMatter plainTexts utcCalendar firstHourWindow ["PING"] [hit "PICK" 0] hourlyHits (firstHourTable 1)
          (.hour 0)) ∧
      (¬ Fresh plainTexts ["PING"] [hit "PICK" 0] hourlyHits (firstHourTable 1) (.hour 0) →
        Shows plainTexts utcCalendar firstHourWindow [hit "PICK" 0] hourlyHits (firstHourTable 1) (.hour 0)) :=
  audit_exact_iff plainTexts utcCalendar firstHourWindow [hourlyHits] [hit "PICK" 0] (fun _ _ => firstHourTable 1)
    ["PING"] rfl (List.mem_singleton_self _) (by decide) firstHour_whole

/-- Every whole hour is reported exactly when it is stale. -/
def AuditExact : Prop :=
  ∀ (w : PythonTexts) (cal : Calendar) (window : AuditWindow) (metrics : List ActiveMetric)
    (facts : List DatedFact) (tables : ActiveMetric → Grain → RollupTable) (hidden : List String)
    (findings : List DriftFinding) (q : ActiveMetric) (t : Instant),
    rollupsVsFacts w cal window metrics facts tables = some findings → q ∈ metrics → .hourly ∈ q.grains →
    window.WholeHour t →
    (Reports findings q (.hour t) ↔ ¬ Fresh w hidden facts q (tables q .hourly) (.hour t))

/-- **A count that drifted is not seen**: five are stored, there was one. -/
theorem driftedCount_unseen : ¬ AuditExact := by
  intro h
  have hexact := h plainTexts utcCalendar firstHourWindow [hourlyHits] [hit "PICK" 0] (fun _ _ => firstHourTable 5)
    ["PING"] [] hourlyHits 0 rfl (List.mem_singleton_self _) (by decide) firstHour_whole
  have hstale : ¬ Fresh plainTexts ["PING"] [hit "PICK" 0] hourlyHits (firstHourTable 5) (.hour 0) := by
    rintro ⟨rows, hrows, hfresh⟩
    have hone : freshRows plainTexts hourlyHits ["PING"] [hit "PICK" 0] (.hour 0) = some [firstHourRow 1] := rfl
    obtain rfl : [firstHourRow 1] = rows := Option.some.inj (hone.symm.trans hrows)
    have hrow := (hfresh (firstHourRow 1).1 (firstHourRow 1).2 rfl).mpr (List.mem_singleton_self _)
    have hstored : (firstHourTable 5).get? (firstHourRow 1).1 = some (firstHourRow 5).2 := rfl
    rw [hstored] at hrow
    have hcount : some 5 = some 1 := congrArg RollupRow.countValue (Option.some.inj hrow)
    cases hcount
  obtain ⟨f, hf, -⟩ := hexact.mpr hstale
  cases hf

-- a hidden transaction, of which the writer stores nothing, is reported as a missing row
example :
    ∃ findings, rollupsVsFacts plainTexts utcCalendar firstHourWindow [hourlyHits] [hit "PING" 0]
        (fun _ _ => OrderedDict.empty) = some findings ∧ Reports findings hourlyHits (.hour 0) ∧
      freshRows plainTexts hourlyHits ["PING"] [hit "PING" 0] (.hour 0) = some [] :=
  ⟨_, rfl, ⟨_, List.mem_cons_self, rfl, rfl, rfl⟩, rfl⟩

end RagPipeline.Analytics
