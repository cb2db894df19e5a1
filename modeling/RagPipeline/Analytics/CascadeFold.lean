/-
  RagPipeline.Analytics.CascadeFold — what the writer of the rollups leaves in the tables, against the facts.

    * `Holds`          — the rows of a bucket are those of the fold of its facts;
    * `rowsBy_mem`     — a level that is folded from facts;
    * `mergeRows_mem`  — a level that is merged from the rows of the level below;
    * `recompute_holds` — every level of a run, and the same run again.
-/
import RagPipeline.Analytics.Cascade
import RagPipeline.Analytics.RowOrder

namespace RagPipeline.Analytics

open RagPipeline.Stage2 RagPipeline.Lib

variable (w : PythonTexts)

/-! ## §1. The rows of a bucket. -/

/-- The group of a fact: its bucket and its dimensions. -/
def RegisteredMetric.groupBy (q : RegisteredMetric) (place : DatedFact → Option Bucket) (f : DatedFact) :
    Option (Bucket × List (Option String)) :=
  (place f).map fun b => (b, q.dimKey w f)

/-- What a measure sees in one group. -/
def RegisteredMetric.groupSeen (q : RegisteredMetric) (place : DatedFact → Option Bucket) (facts : List DatedFact)
    (m : Measure) (k : Bucket × List (Option String)) : List Seen :=
  seenAll w q.definition m (groupRows (q.groupBy w place) facts k)

/-- **The rows of a bucket** are those of the fold of its facts. -/
def Holds (q : RegisteredMetric) (place : DatedFact → Option Bucket) (facts : List DatedFact)
    (table : List (RowKey × RollupRow)) (b : Bucket) : Prop :=
  ∀ m ∈ q.definition.measures, ∀ dims row, ((b, m.name, dims), row) ∈ table ↔
    ∃ roles, pointFrom w m.aggregation (q.groupSeen w place facts m (b, dims)) = some roles ∧ row = rowFor roles

/-- Nothing is lost on the way into the columns: the numbers can be told and added up exactly, and no part
of them needs rounding in a column. -/
structure Lossless (q : RegisteredMetric) (facts : List DatedFact) : Prop where
  names : (q.definition.measures.map Measure.name).Nodup
  merged : ∀ m ∈ q.definition.measures, m.aggregation ≠ .latest
  told : ∀ m ∈ q.definition.measures, Told w q.definition m (facts.map DatedFact.row)
  room : ∀ m ∈ q.definition.measures,
    HasRoom m.aggregation.emptyRoles (seenAll w q.definition m (facts.map DatedFact.row))
  stored : ∀ m ∈ q.definition.measures, ∀ rows, rows.Sublist (facts.map DatedFact.row) →
    Storable (tally w m.aggregation.emptyRoles (seenAll w q.definition m rows))

section Groups

variable {w} {q : RegisteredMetric} {facts facts' : List DatedFact} {place : DatedFact → Option Bucket}
  {m : Measure}

theorem Lossless.sublist (h : Lossless w q facts) (hsub : facts'.Sublist facts) : Lossless w q facts' where
  names := h.names
  merged := h.merged
  told := fun m hm row hrow => h.told m hm row ((hsub.map _).subset hrow)
  room := fun m hm => (h.room m hm).sublist ((hsub.map _).map _)
  stored := fun m hm rows hrows => h.stored m hm rows (hrows.trans (hsub.map _))

theorem groupRows_sublist (k : Bucket × List (Option String)) :
    (groupRows (q.groupBy w place) facts k).Sublist (facts.map DatedFact.row) := List.filter_sublist.map _

theorem Lossless.group_told (h : Lossless w q facts) (hm : m ∈ q.definition.measures)
    (k : Bucket × List (Option String)) : Told w q.definition m (groupRows (q.groupBy w place) facts k) :=
  fun row hrow => h.told m hm row ((groupRows_sublist k).subset hrow)

theorem Lossless.group_room (h : Lossless w q facts) (hm : m ∈ q.definition.measures)
    (k : Bucket × List (Option String)) : HasRoom m.aggregation.emptyRoles (q.groupSeen w place facts m k) :=
  (h.room m hm).sublist ((groupRows_sublist k).map _)

theorem Lossless.group_stored (h : Lossless w q facts) (hm : m ∈ q.definition.measures)
    (k : Bucket × List (Option String)) :
    Storable (tally w m.aggregation.emptyRoles (q.groupSeen w place facts m k)) :=
  h.stored m hm _ (groupRows_sublist k)

/-- A group without a fact has no point. -/
theorem pointFrom_groupSeen_nil (q : RegisteredMetric) (place : DatedFact → Option Bucket) (facts : List DatedFact)
    (ha : m.aggregation ≠ .latest) {k : Bucket × List (Option String)} (hk : ∀ f ∈ facts, q.groupBy w place f ≠ some k) :
    pointFrom w m.aggregation (q.groupSeen w place facts m k) = none := by
  have hnil : groupRows (q.groupBy w place) facts k = [] := by
    unfold groupRows
    rw [List.map_eq_nil_iff, List.filter_eq_nil_iff]
    exact fun f hf heq => hk f hf (of_decide_eq_true heq)
  unfold RegisteredMetric.groupSeen
  rw [hnil]
  exact pointFrom_nil w ha

theorem pointFrom_eq_some {a : Aggregation} {ss : List Seen} {roles : Roles} :
    pointFrom w a ss = some roles ↔ (tally w a.emptyRoles ss).isEmpty = false ∧ roles = tally w a.emptyRoles ss := by
  unfold pointFrom
  cases (tally w a.emptyRoles ss).isEmpty with
  | true => simp
  | false => simp [eq_comm]

/-- The bucket that some rows leave satisfies what every bucket of a fold does. -/
theorem folded_steps {d : MetricDefinition} {rows : List FactRow} {b b' : Roles} (hb : Folded b)
    (h : rows.foldlM (step w d m) b = some b') : Folded b' := by
  induction rows generalizing b with
  | nil => exact Option.some.inj h ▸ hb
  | cons row rows ih =>
    rw [List.foldlM_cons] at h
    obtain ⟨x, hx, hrest⟩ := Option.bind_eq_some_iff.mp h
    refine ih ?_ hrest
    unfold step at hx
    split at hx
    · exact hb.observe w hx
    · exact Option.some.inj hx ▸ hb

/-- **A tally that is written is decoded as it was**, by the writer of the next level too. -/
theorem cascadeRoles_tally {d : MetricDefinition} {rows : List FactRow} (ha : m.aggregation ≠ .latest)
    (ht : Told w d m rows) (hr : HasRoom m.aggregation.emptyRoles (seenAll w d m rows))
    (he : (tally w m.aggregation.emptyRoles (seenAll w d m rows)).isEmpty = false) :
    cascadeRoles (rowFor (tally w m.aggregation.emptyRoles (seenAll w d m rows))) =
      tally w m.aggregation.emptyRoles (seenAll w d m rows) := by
  have hf := folded_steps (folded_emptyRoles m.aggregation) (foldMeasure_tally w ha ht hr)
  have hread := readerRoles_tally w (seenAll_suits w) he hf
  have hhist := rowFor_histogram hf he
  revert hread hhist
  generalize tally w m.aggregation.emptyRoles (seenAll w d m rows) = b
  intro hread hhist
  unfold readerRoles at hread
  split at hread
  · cases hread
  · next hlatest =>
    have heq := Option.some.inj hread
    have hlast : b.latest = none := by rw [← heq]
    have hbands : (rowFor b).histogram.filter (fun h => !h.isEmpty) = b.histogram := congrArg Roles.histogram heq
    unfold cascadeRoles
    rw [hlatest, hhist]
    rw [hbands] at heq
    exact heq

end Groups

/-! ## §2. `_replace`. -/

section Replace

variable {buckets : List Bucket} {rows : List (RowKey × Roles)} {table table' : List (RowKey × RollupRow)}

/-- What the table has after the replacement. -/
theorem mem_replaceRows (h : replaceRows buckets rows table = some table') (hrows : ∀ p ∈ rows, p.1.1 ∈ buckets)
    (x : RowKey × RollupRow) : x ∈ table' ↔ (x ∈ table ∧ x.1.1 ∉ buckets) ∨
      ∃ p ∈ rows, p.1 = x.1 ∧ insert (rowFor p.2) = some x.2 := by
  unfold replaceRows at h
  split at h
  · next hnil =>
    obtain rfl := Option.some.inj h
    subst hnil
    constructor
    · exact fun hx => Or.inl ⟨hx, List.not_mem_nil⟩
    · rintro (hx | ⟨p, hp, -⟩)
      · exact hx.1
      · exact absurd (hrows p hp) List.not_mem_nil
  · obtain ⟨written, hwritten, rfl⟩ := Option.map_eq_some_iff.mp h
    rw [List.mem_append, List.mem_filter, decide_eq_true_eq, mem_mapM hwritten]
    refine or_congr Iff.rfl (exists_congr fun p => and_congr_right fun _ => ?_)
    constructor
    · intro hp
      obtain ⟨row, hrow, rfl⟩ := Option.map_eq_some_iff.mp hp
      exact ⟨rfl, hrow⟩
    · rintro ⟨hkey, hrow⟩
      rw [hrow, hkey]
      rfl

/-- Rows of other buckets stay. -/
theorem mem_replaceRows_of_not_mem (h : replaceRows buckets rows table = some table')
    (hrows : ∀ p ∈ rows, p.1.1 ∈ buckets) {x : RowKey × RollupRow} (hx : x.1.1 ∉ buckets) :
    x ∈ table' ↔ x ∈ table := by
  rw [mem_replaceRows h hrows]
  constructor
  · rintro (hleft | ⟨p, hp, hkey, -⟩)
    · exact hleft.1
    · exact absurd (hkey ▸ hrows p hp) hx
  · exact fun hleft => Or.inl ⟨hleft, hx⟩

/-- The keys stay distinct. -/
theorem replaceRows_nodup (h : replaceRows buckets rows table = some table') (hrows : ∀ p ∈ rows, p.1.1 ∈ buckets)
    (hkeys : (rows.map Prod.fst).Nodup) (htable : (table.map Prod.fst).Nodup) : (table'.map Prod.fst).Nodup := by
  unfold replaceRows at h
  split at h
  · exact Option.some.inj h ▸ htable
  · obtain ⟨written, hwritten, rfl⟩ := Option.map_eq_some_iff.mp h
    have hfst : written.map Prod.fst = rows.map Prod.fst := by
      clear hrows hkeys h
      induction rows generalizing written with
      | nil => exact Option.some.inj hwritten ▸ rfl
      | cons p rows ih =>
        rw [List.mapM_cons] at hwritten
        obtain ⟨x, hx, hrest⟩ := Option.bind_eq_some_iff.mp hwritten
        obtain ⟨xs, hxs, hout⟩ := Option.bind_eq_some_iff.mp hrest
        obtain rfl : x :: xs = written := Option.some.inj hout
        obtain ⟨row, -, rfl⟩ := Option.map_eq_some_iff.mp hx
        rw [List.map_cons, List.map_cons, ih xs hxs]
    rw [List.map_append, List.nodup_append]
    refine ⟨htable.sublist (List.filter_sublist.map _), hfst ▸ hkeys, fun a ha b hb hab => ?_⟩
    obtain ⟨x, hx, rfl⟩ := List.mem_map.mp ha
    rw [hfst] at hb
    obtain ⟨p, hp, rfl⟩ := List.mem_map.mp hb
    have hout : x.1.1 ∉ buckets := by simpa using (List.mem_filter.mp hx).2
    exact hout (hab ▸ hrows p hp)

/-- The rows that are written are all in the buckets, so that the table is the rest and these. -/
theorem replaceRows_split (hb : buckets ≠ []) (h : replaceRows buckets rows table = some table')
    (hrows : ∀ p ∈ rows, p.1.1 ∈ buckets) : ∃ written : List (RowKey × RollupRow),
      (∀ x ∈ written, x.1.1 ∈ buckets) ∧ table' = (table.filter fun r => decide (r.1.1 ∉ buckets)) ++ written ∧
      ∀ other, replaceRows buckets rows other =
        some ((other.filter fun r => decide (r.1.1 ∉ buckets)) ++ written) := by
  unfold replaceRows at h ⊢
  rw [if_neg hb] at h
  obtain ⟨written, hwritten, rfl⟩ := Option.map_eq_some_iff.mp h
  refine ⟨written, fun x hx => ?_, rfl, fun other => ?_⟩
  · obtain ⟨p, hp, hx⟩ := (mem_mapM hwritten x).mp hx
    obtain ⟨row, -, rfl⟩ := Option.map_eq_some_iff.mp hx
    exact hrows p hp
  · rw [if_neg hb, hwritten]
    rfl

end Replace

/-! ## §3. A level from facts. -/

section FromFacts

variable {w} {q : RegisteredMetric} {facts : List DatedFact} {place : DatedFact → Option Bucket}
  {rows : List (RowKey × Roles)}

theorem eraseDups_of_nodup {names : List String} (h : names.Nodup) : names.eraseDups = names := by
  induction names with
  | nil => rfl
  | cons a names ih =>
    obtain ⟨ha, hnames⟩ := List.nodup_cons.mp h
    have hfilter : (names.filter fun b => !b == a) = names := by
      rw [List.filter_eq_self]
      intro b hb
      have hne : b ≠ a := fun he => ha (he ▸ hb)
      simpa using hne
    rw [List.eraseDups_cons, hfilter, ih hnames]

/-- The rows of the groups, with what each group folds to. -/
theorem rowsBy_cases (h : q.rowsBy w place facts = some rows) :
    ∃ folded : List ((Bucket × List (Option String)) × Buckets), rows = folded.flatMap q.rowsOf ∧
      folded.map Prod.fst = (facts.filterMap (q.groupBy w place)).dedup ∧
      ∀ p ∈ folded, foldRows w q.definition (groupRows (q.groupBy w place) facts p.1) = some p.2 := by
  obtain ⟨folded, hfold, rfl⟩ := Option.map_eq_some_iff.mp h
  obtain ⟨hkeys, hall⟩ := (mapM_pair _ _).mp hfold
  exact ⟨folded, rfl, hkeys, hall⟩

theorem mem_rowsOf {g : (Bucket × List (Option String)) × Buckets} {x : RowKey × Roles} :
    x ∈ q.rowsOf g ↔ x.1.1 = g.1.1 ∧ x.1.2.2 = g.1.2 ∧ x.1.2.1 ∈ q.definition.measures.map Measure.name ∧
      g.2 x.1.2.1 = some x.2 ∧ x.2.isEmpty = false := by
  obtain ⟨⟨b, name, dims⟩, roles⟩ := x
  unfold RegisteredMetric.rowsOf
  rw [List.mem_filterMap]
  constructor
  · rintro ⟨name', hname', hx⟩
    obtain ⟨roles', hroles', hx⟩ := Option.bind_eq_some_iff.mp hx
    split at hx
    · cases hx
    · next he =>
      obtain ⟨hkey, rfl⟩ := Prod.mk.inj (Option.some.inj hx)
      obtain ⟨rfl, hrest⟩ := Prod.mk.inj hkey
      obtain ⟨rfl, rfl⟩ := Prod.mk.inj hrest
      exact ⟨rfl, rfl, List.mem_eraseDups.mp hname', hroles', by simpa using he⟩
  · rintro ⟨hb, hdims, hname, hroles, he⟩
    refine ⟨name, List.mem_eraseDups.mpr hname, ?_⟩
    have hb' : b = g.1.1 := hb
    have hdims' : dims = g.1.2 := hdims
    have hroles' : g.2 name = some roles := hroles
    have he' : roles.isEmpty = false := he
    rw [hroles', Option.bind_some, he', hb', hdims']
    rfl

/-- A row is of a bucket in which a fact is placed. -/
theorem rowsBy_place (h : q.rowsBy w place facts = some rows) {p : RowKey × Roles} (hp : p ∈ rows) :
    ∃ f ∈ facts, place f = some p.1.1 := by
  obtain ⟨folded, rfl, hkeys, -⟩ := rowsBy_cases h
  obtain ⟨g, hg, hp⟩ := List.mem_flatMap.mp hp
  have hkey : g.1 ∈ (facts.filterMap (q.groupBy w place)).dedup := hkeys ▸ List.mem_map_of_mem hg
  obtain ⟨f, hf, hgroup⟩ := mem_keys.mp hkey
  obtain ⟨b, hb, heq⟩ := Option.map_eq_some_iff.mp hgroup
  refine ⟨f, hf, ?_⟩
  rw [hb, (mem_rowsOf.mp hp).1, ← heq]

theorem rowsBy_nodup (hnames : (q.definition.measures.map Measure.name).Nodup)
    (h : q.rowsBy w place facts = some rows) : (rows.map Prod.fst).Nodup := by
  obtain ⟨folded, rfl, hkeys, -⟩ := rowsBy_cases h
  have hfolded : (folded.map Prod.fst).Nodup := hkeys ▸ List.nodup_dedup _
  rw [List.map_flatMap, List.nodup_flatMap]
  constructor
  · intro g _
    have hsub : ((q.rowsOf g).map Prod.fst).Sublist
        ((q.definition.measures.map Measure.name).map fun name => ((g.1.1, name, g.1.2) : RowKey)) := by
      unfold RegisteredMetric.rowsOf
      rw [eraseDups_of_nodup hnames]
      refine filterMap_fst_sublist (fun name p hp => ?_) _
      obtain ⟨roles, -, hroles⟩ := Option.bind_eq_some_iff.mp hp
      split at hroles
      · cases hroles
      · rw [← Option.some.inj hroles]
    refine List.Nodup.sublist hsub (hnames.map fun a b hab => ?_)
    exact (Prod.mk.inj (Prod.mk.inj hab).2).1
  · refine (List.pairwise_map.mp hfolded).imp fun {g g'} hne k hk hk' => hne ?_
    obtain ⟨x, hx, rfl⟩ := List.mem_map.mp hk
    obtain ⟨x', hx', heq⟩ := List.mem_map.mp hk'
    have hleft := mem_rowsOf.mp hx
    have hright := mem_rowsOf.mp hx'
    rw [heq] at hright
    exact Prod.ext (hleft.1.symm.trans hright.1) (hleft.2.1.symm.trans hright.2.1)

/-- **What is folded from facts** is the point of each group. -/
theorem rowsBy_mem (hexact : Lossless w q facts) (h : q.rowsBy w place facts = some rows) {m : Measure}
    (hm : m ∈ q.definition.measures) (k : Bucket × List (Option String)) (roles : Roles) :
    ((k.1, m.name, k.2), roles) ∈ rows ↔
      pointFrom w m.aggregation (q.groupSeen w place facts m k) = some roles := by
  obtain ⟨folded, rfl, hkeys, hall⟩ := rowsBy_cases h
  have hout : ∀ p ∈ folded, p.2 m.name =
      some (tally w m.aggregation.emptyRoles (q.groupSeen w place facts m p.1)) := fun p hp =>
    foldRows_tally w hexact.names hm (hexact.merged m hm) (hall p hp) (hexact.group_told hm p.1)
      (hexact.group_room hm p.1)
  rw [List.mem_flatMap, pointFrom_eq_some]
  constructor
  · rintro ⟨p, hp, hx⟩
    obtain ⟨hb, hdims, -, hroles, he⟩ := mem_rowsOf.mp hx
    have hk : p.1 = k := Prod.ext hb.symm hdims.symm
    have heq := Option.some.inj ((hout p hp).symm.trans hroles)
    rw [hk] at heq
    exact ⟨heq ▸ he, heq.symm⟩
  · rintro ⟨he, rfl⟩
    have hmem : k ∈ (facts.filterMap (q.groupBy w place)).dedup := by
      by_contra hno
      have hnone := pointFrom_groupSeen_nil (w := w) q place facts (hexact.merged m hm) (k := k) fun f hf heq => hno (mem_keys.mpr ⟨f, hf, heq⟩)
      rw [pointFrom_eq_some.mpr ⟨he, rfl⟩] at hnone
      cases hnone
    rw [← hkeys] at hmem
    obtain ⟨p, hp, rfl⟩ := List.mem_map.mp hmem
    exact ⟨p, hp, mem_rowsOf.mpr ⟨rfl, rfl, List.mem_map_of_mem hm, hout p hp, he⟩⟩

end FromFacts

/-! ## §4. A level from the level below. -/

section FromRows

variable {w} {q : RegisteredMetric} {place : Bucket → Option Bucket} {table : List (RowKey × RollupRow)}
  {rows : List (RowKey × Roles)}

/-- The rows that are merged into one. -/
def mergedInto (place : Bucket → Option Bucket) (table : List (RowKey × RollupRow)) (k : RowKey) :
    List (RowKey × RollupRow) :=
  table.filter fun r => decide (place r.1.1 = some k.1 ∧ r.1.2 = k.2)

/-- One key of the loop is the loop over its rows. -/
theorem mergeRow_at {dict dict' : OrderedDict RowKey Roles}
    (h : table.foldlM (mergeRow place) dict = some dict') (k : RowKey) :
    addAll (dict.get? k) ((mergedInto place table k).map fun r => cascadeRoles r.2) = some (dict'.get? k) := by
  induction table generalizing dict with
  | nil =>
    obtain rfl := Option.some.inj h
    rfl
  | cons r table ih =>
    rw [List.foldlM_cons] at h
    obtain ⟨next, hnext, hrest⟩ := Option.bind_eq_some_iff.mp h
    have hih := ih hrest
    unfold mergedInto at hih ⊢
    unfold mergeRow at hnext
    cases hp : place r.1.1 with
    | none =>
      rw [hp] at hnext
      obtain rfl := Option.some.inj hnext
      rw [List.filter_cons_of_neg (by simp [hp])]
      exact hih
    | some b =>
      rw [hp] at hnext
      obtain ⟨roles, hroles, rfl⟩ := Option.map_eq_some_iff.mp hnext
      -- the row is merged into one key, and every other key keeps what it has
      by_cases hk : (b, r.1.2) = k
      · subst hk
        rw [List.filter_cons_of_pos (by simp [hp]), List.map_cons, addAll, List.foldlM_cons, hroles]
        rw [OrderedDict.get?_set_self] at hih
        exact hih
      · have hskip : ¬(place r.1.1 = some k.1 ∧ r.1.2 = k.2) := by
          rintro ⟨hplace, hdims⟩
          exact hk (Prod.ext (Option.some.inj (hp.symm.trans hplace)) hdims)
        rw [List.filter_cons_of_neg (by simpa using hskip)]
        rw [OrderedDict.get?_set_ne _ _ (Ne.symm hk)] at hih
        exact hih

theorem mem_mergeRows (h : mergeRows place table = some rows) (x : RowKey × Roles) :
    x ∈ rows ↔ addAll none ((mergedInto place table x.1).map fun r => cascadeRoles r.2) = some (some x.2) ∧
      x.2.isEmpty = false := by
  obtain ⟨dict, hdict, rfl⟩ := Option.map_eq_some_iff.mp h
  have hat := mergeRow_at hdict x.1
  rw [OrderedDict.get?_empty] at hat
  rw [hat, List.mem_filter, ← OrderedDict.get?_eq_some (d := dict) (k := x.1) (v := x.2), Option.some_inj]
  simp

theorem mergeRows_nodup (h : mergeRows place table = some rows) : (rows.map Prod.fst).Nodup := by
  obtain ⟨dict, -, rfl⟩ := Option.map_eq_some_iff.mp h
  exact dict.nodup.sublist (List.filter_sublist.map _)

/-- A row is of a bucket in which a row is placed. -/
theorem mergeRows_place (h : mergeRows place table = some rows) {p : RowKey × Roles} (hp : p ∈ rows) :
    ∃ r ∈ table, place r.1.1 = some p.1.1 := by
  have hmerged := ((mem_mergeRows h p).mp hp).1
  cases hrows : mergedInto place table p.1 with
  | nil =>
    rw [hrows] at hmerged
    cases hmerged
  | cons r rest =>
    have hmem : r ∈ mergedInto place table p.1 := hrows ▸ List.mem_cons_self
    obtain ⟨hr, hplace⟩ := List.mem_filter.mp hmem
    exact ⟨r, hr, (of_decide_eq_true hplace).1⟩

/-- The buckets of the level below that are merged into one. -/
def lowerBuckets (place : Bucket → Option Bucket) (lower : DatedFact → Option Bucket) (facts : List DatedFact)
    (b : Bucket) : List Bucket :=
  (facts.filterMap lower).dedup.filter fun b' => decide (place b' = some b)

variable {facts : List DatedFact} {lower upper : DatedFact → Option Bucket} {b : Bucket} {m : Measure}

/-- **The rows that are merged** are those of the lower buckets that saw something. -/
theorem mergedInto_perm (hexact : Lossless w q facts) (hm : m ∈ q.definition.measures)
    (hkeys : (table.map Prod.fst).Nodup)
    (hholds : ∀ b', place b' = some b → Holds w q lower facts table b') (dims : List (Option String)) :
    (mergedInto place table (b, m.name, dims)).Perm
      (((lowerBuckets place lower facts b).filter fun b' =>
        !(tally w m.aggregation.emptyRoles (q.groupSeen w lower facts m (b', dims))).isEmpty).map fun b' =>
          ((b', m.name, dims), rowFor (tally w m.aggregation.emptyRoles (q.groupSeen w lower facts m (b', dims))))) := by
  have hleft : (mergedInto place table (b, m.name, dims)).Nodup := (hkeys.of_map _).filter _
  have hright := ((((List.nodup_dedup (facts.filterMap lower)).filter fun b' => decide (place b' = some b)).filter
    fun b' => !(tally w m.aggregation.emptyRoles (q.groupSeen w lower facts m (b', dims))).isEmpty).map
      (f := fun b' => (((b', m.name, dims) : RowKey),
        rowFor (tally w m.aggregation.emptyRoles (q.groupSeen w lower facts m (b', dims)))))
      fun b₁ b₂ h => (Prod.mk.inj (Prod.mk.inj h).1).1)
  refine (List.perm_ext_iff_of_nodup hleft hright).mpr fun x => ?_
  unfold mergedInto
  rw [List.mem_filter, List.mem_map, decide_eq_true_eq]
  constructor
  · obtain ⟨⟨b', key⟩, row⟩ := x
    rintro ⟨hx, hplace, hkey⟩
    have hkey : key = (m.name, dims) := hkey
    subst hkey
    obtain ⟨roles, hroles, rfl⟩ := (hholds b' hplace m hm dims row).mp hx
    obtain ⟨he, rfl⟩ := pointFrom_eq_some.mp hroles
    refine ⟨b', List.mem_filter.mpr ⟨List.mem_filter.mpr ⟨?_, by simpa using hplace⟩, by simp [he]⟩, rfl⟩
    -- a stored row whose bucket no fact falls in would hold the fold of nothing
    by_contra hno
    have hnone := pointFrom_groupSeen_nil (w := w) q lower facts (hexact.merged m hm)
      (k := (b', dims)) fun f hf heq => by
        obtain ⟨b₁, hb₁, he₁⟩ := Option.map_eq_some_iff.mp heq
        have hb' : b₁ = b' := (Prod.mk.inj he₁).1
        exact hno (List.mem_dedup.mpr (List.mem_filterMap.mpr ⟨f, hf, hb' ▸ hb₁⟩))
    rw [hroles] at hnone
    cases hnone
  · rintro ⟨b', hb', rfl⟩
    obtain ⟨hb', he⟩ := List.mem_filter.mp hb'
    have hplace : place b' = some b := by simpa using (List.mem_filter.mp hb').2
    have he : (tally w m.aggregation.emptyRoles (q.groupSeen w lower facts m (b', dims))).isEmpty = false := by
      simpa using he
    exact ⟨(hholds b' hplace m hm dims _).mpr ⟨_, pointFrom_eq_some.mpr ⟨he, rfl⟩, rfl⟩, hplace, rfl⟩

/-- **What the lower buckets saw** is what the bucket above them sees. -/
theorem groupSeen_flatten (hplaced : ∀ f ∈ facts, upper f = some b ↔ ∃ b', lower f = some b' ∧ place b' = some b)
    (dims : List (Option String)) :
    (((lowerBuckets place lower facts b).map fun b' => q.groupSeen w lower facts m (b', dims)).flatten).Perm
      (q.groupSeen w upper facts m (b, dims)) := by
  obtain ⟨sf, hsf⟩ : ∃ sf : DatedFact → Seen, sf = fun f => (seen w q.definition m f.row).getD .nothing := ⟨_, rfl⟩
  obtain ⟨l, hl⟩ : ∃ l, l = facts.filter fun f => decide (q.dimKey w f = dims) := ⟨_, rfl⟩
  have hgroup : ∀ (place' : DatedFact → Option Bucket) b', q.groupSeen w place' facts m (b', dims) =
      (l.filter fun f => decide (place' f = some b')).map sf := by
    intro place' b'
    unfold RegisteredMetric.groupSeen seenAll groupRows
    rw [List.map_map, hsf, hl, List.filter_filter]
    refine congrArg (List.map _) (List.filter_congr fun f _ => ?_)
    unfold RegisteredMetric.groupBy
    cases place' f with
    | none => simp
    | some b₁ => simp
  have hflat : ((lowerBuckets place lower facts b).map fun b' => q.groupSeen w lower facts m (b', dims)).flatten =
      (((lowerBuckets place lower facts b).map some).flatMap fun k => l.filter fun f => decide (lower f = k)).map sf := by
    rw [List.map_flatMap, List.flatMap_def, List.map_map]
    exact congrArg List.flatten (List.map_congr_left fun b' _ => hgroup lower b')
  -- a fact lies in one lower bucket, so the concatenation repeats nothing
  have hnodup : ((lowerBuckets place lower facts b).map some).Nodup :=
    ((List.nodup_dedup _).filter _).map (Option.some_injective _)
  have hupper : q.groupSeen w upper facts m (b, dims) =
      (l.filter fun f => decide (lower f ∈ (lowerBuckets place lower facts b).map some)).map sf := by
    rw [hgroup]
    refine congrArg (List.map sf) (List.filter_congr fun f hf => decide_eq_decide.mpr ?_)
    have hfact : f ∈ facts := by
      rw [hl] at hf
      exact (List.mem_filter.mp hf).1
    rw [hplaced f hfact, List.mem_map]
    constructor
    · rintro ⟨b', hb', hplace⟩
      refine ⟨b', List.mem_filter.mpr ⟨?_, by simpa using hplace⟩, hb'.symm⟩
      exact List.mem_dedup.mpr (List.mem_filterMap.mpr ⟨f, hfact, hb'⟩)
    · rintro ⟨b', hb', heq⟩
      exact ⟨b', heq.symm, by simpa using (List.mem_filter.mp hb').2⟩
  rw [hflat, hupper]
  convert (flatMap_groups lower l _ hnodup).map sf

/-- **What is merged from the rows below** is the point of each group. -/
theorem mergeRows_mem (hexact : Lossless w q facts) (hkeys : (table.map Prod.fst).Nodup)
    (h : mergeRows place table = some rows)
    (hplaced : ∀ f ∈ facts, upper f = some b ↔ ∃ b', lower f = some b' ∧ place b' = some b)
    (hholds : ∀ b', place b' = some b → Holds w q lower facts table b')
    (hm : m ∈ q.definition.measures) (dims : List (Option String)) (roles : Roles) :
    ((b, m.name, dims), roles) ∈ rows ↔
      pointFrom w m.aggregation (q.groupSeen w upper facts m (b, dims)) = some roles := by
  have hperm := mergedInto_perm hexact hm hkeys hholds dims
  have hflat := groupSeen_flatten (w := w) (q := q) (m := m) hplaced dims
  obtain ⟨ss, hss⟩ : ∃ ss : Bucket → List Seen, ss = fun b' => q.groupSeen w lower facts m (b', dims) := ⟨_, rfl⟩
  -- the stored rows that go into the bucket are the tallies of its lower buckets, those that are not empty
  have hroles : ((mergedInto place table (b, m.name, dims)).map fun r => cascadeRoles r.2).Perm
      ((((lowerBuckets place lower facts b).map ss).filter fun xs =>
        !(tally w m.aggregation.emptyRoles xs).isEmpty).map (tally w m.aggregation.emptyRoles)) := by
    refine (hperm.map _).trans ?_
    rw [List.map_map, List.filter_map, List.map_map, hss]
    refine List.Perm.of_eq (List.map_congr_left fun b' hb' => ?_)
    have he : (tally w m.aggregation.emptyRoles (q.groupSeen w lower facts m (b', dims))).isEmpty = false := by
      simpa using (List.mem_filter.mp hb').2
    exact cascadeRoles_tally (hexact.merged m hm) (hexact.group_told hm _) (hexact.group_room hm _) he
  have hsuits : ∀ xs ∈ (lowerBuckets place lower facts b).map ss, ∀ s ∈ xs, s.Suits m.aggregation := by
    intro xs hxs s hs
    obtain ⟨b', -, rfl⟩ := List.mem_map.mp hxs
    rw [hss] at hs
    exact seenAll_suits w s hs
  rw [← hss] at hflat
  have hall : HasRoom m.aggregation.emptyRoles (q.groupSeen w upper facts m (b, dims)) := hexact.group_room hm _
  have hroom : HasRoom m.aggregation.emptyRoles ((lowerBuckets place lower facts b).map ss).flatten :=
    hall.perm hflat.symm
  rw [mem_mergeRows h, addAll_tallies w (hexact.merged m hm) _ hsuits hroom hroles, pointFrom_perm w hflat,
    Option.some_inj]
  constructor
  · exact fun hx => hx.1
  · exact fun hx => ⟨hx, (pointFrom_eq_some.mp hx).2 ▸ (pointFrom_eq_some.mp hx).1⟩

end FromRows

/-! ## §5. One level, written. -/

/-- A table after one level is written: without a bucket nothing is done. -/
def Written (source : Option (List (RowKey × Roles))) (buckets : List Bucket)
    (table table' : List (RowKey × RollupRow)) : Prop :=
  if buckets = [] then table' = table
  else (source.bind fun rows => replaceRows buckets rows table) = some table'

/-- The rows that a level would write are of its buckets. -/
def InBuckets (source : Option (List (RowKey × Roles))) (buckets : List Bucket) : Prop :=
  ∀ rows, source = some rows → ∀ p ∈ rows, p.1.1 ∈ buckets

section Levels

variable {source source' : Option (List (RowKey × Roles))} {buckets buckets' : List Bucket}
  {table table' table'' : List (RowKey × RollupRow)}

theorem Written.other (h : Written source buckets table table') (hin : InBuckets source buckets)
    {x : RowKey × RollupRow} (hx : x.1.1 ∉ buckets) : x ∈ table' ↔ x ∈ table := by
  unfold Written at h
  split at h
  · rw [h]
  · obtain ⟨rows, hsource, hrows⟩ := Option.bind_eq_some_iff.mp h
    exact mem_replaceRows_of_not_mem hrows (hin rows hsource) hx

theorem Written.nodup (h : Written source buckets table table') (hin : InBuckets source buckets)
    (hkeys : ∀ rows, source = some rows → (rows.map Prod.fst).Nodup) (htable : (table.map Prod.fst).Nodup) :
    (table'.map Prod.fst).Nodup := by
  unfold Written at h
  split at h
  · exact h ▸ htable
  · obtain ⟨rows, hsource, hrows⟩ := Option.bind_eq_some_iff.mp h
    exact replaceRows_nodup hrows (hin rows hsource) (hkeys rows hsource) htable

/-- A written table is the rest and the rows of the buckets. -/
theorem Written.split (h : Written source buckets table table') (hin : InBuckets source buckets) :
    ∃ written : List (RowKey × RollupRow), (∀ x ∈ written, x.1.1 ∈ buckets) ∧
      table' = (table.filter fun r => decide (r.1.1 ∉ buckets)) ++ written ∧
      ∀ other, Written source buckets other ((other.filter fun r => decide (r.1.1 ∉ buckets)) ++ written) := by
  unfold Written at h ⊢
  split at h
  · next hnil =>
    subst hnil
    exact ⟨[], fun x hx => (nomatch hx), by simp [h], fun other => by simp⟩
  · next hb =>
    obtain ⟨rows, hsource, hrows⟩ := Option.bind_eq_some_iff.mp h
    obtain ⟨written, hmem, heq, hall⟩ := replaceRows_split hb hrows (hin rows hsource)
    refine ⟨written, hmem, heq, fun other => ?_⟩
    rw [if_neg hb, hsource]
    exact hall other

theorem filter_out_of_in {written : List (RowKey × RollupRow)} (h : ∀ x ∈ written, x.1.1 ∈ buckets) :
    (written.filter fun r => decide (r.1.1 ∉ buckets)) = [] := by
  rw [List.filter_eq_nil_iff]
  intro x hx
  simpa using h x hx

theorem filter_out_of_disjoint {written : List (RowKey × RollupRow)} (h : ∀ x ∈ written, x.1.1 ∉ buckets) :
    (written.filter fun r => decide (r.1.1 ∉ buckets)) = written := by
  rw [List.filter_eq_self]
  intro x hx
  simpa using h x hx

/-- **Written twice** is written once. -/
theorem Written.again (h : Written source buckets table table') (hin : InBuckets source buckets) :
    Written source buckets table' table' := by
  obtain ⟨written, hmem, rfl, hall⟩ := h.split hin
  have hagain := hall ((table.filter fun r => decide (r.1.1 ∉ buckets)) ++ written)
  rw [List.filter_append, List.filter_filter, filter_out_of_in hmem, List.append_nil] at hagain
  simpa using hagain

/-- Two writes of different buckets, twice, are the two writes. -/
theorem Written.both_again (h : Written source buckets table table') (h' : Written source' buckets' table' table'')
    (hin : InBuckets source buckets) (hin' : InBuckets source' buckets') (hapart : ∀ b ∈ buckets, b ∉ buckets') :
    ∃ between, Written source buckets table'' between ∧ Written source' buckets' between table'' := by
  obtain ⟨written, hmem, rfl, hall⟩ := h.split hin
  obtain ⟨written', hmem', rfl, hall'⟩ := h'.split hin'
  have hkeep : (written.filter fun r => decide (r.1.1 ∉ buckets')) = written :=
    filter_out_of_disjoint fun x hx => hapart _ (hmem x hx)
  have hkeep' : (written'.filter fun r => decide (r.1.1 ∉ buckets)) = written' :=
    filter_out_of_disjoint fun x hx hb => hapart _ hb (hmem' x hx)
  rw [List.filter_append, hkeep]
  obtain ⟨rest, hrest⟩ : ∃ rest, rest = (table.filter fun r => decide (r.1.1 ∉ buckets)).filter fun r =>
    decide (r.1.1 ∉ buckets') := ⟨_, rfl⟩
  have hout : (rest.filter fun r => decide (r.1.1 ∉ buckets)) = rest := filter_out_of_disjoint fun x hx => by
    rw [hrest] at hx
    simpa using (List.mem_filter.mp (List.mem_filter.mp hx).1).2
  have hout' : (rest.filter fun r => decide (r.1.1 ∉ buckets')) = rest := filter_out_of_disjoint fun x hx => by
    rw [hrest] at hx
    simpa using (List.mem_filter.mp hx).2
  rw [← hrest]
  have hfirst := hall (rest ++ written ++ written')
  rw [List.filter_append, List.filter_append, hout, hkeep', filter_out_of_in hmem, List.append_nil] at hfirst
  have hsecond := hall' (rest ++ written' ++ written)
  rw [List.filter_append, List.filter_append, hout', hkeep, filter_out_of_in hmem', List.append_nil] at hsecond
  exact ⟨_, hfirst, hsecond⟩

/-- **A bucket of a level** holds what the rows of the level say. -/
theorem Written.holds {w : PythonTexts} {q : RegisteredMetric} {place : DatedFact → Option Bucket}
    {facts : List DatedFact} (hexact : Lossless w q facts) (h : Written source buckets table table')
    (hin : InBuckets source buckets) {b : Bucket} (hb : b ∈ buckets)
    (hrows : ∀ rows, source = some rows → ∀ m ∈ q.definition.measures, ∀ dims roles,
      ((b, m.name, dims), roles) ∈ rows ↔
        pointFrom w m.aggregation (q.groupSeen w place facts m (b, dims)) = some roles) :
    Holds w q place facts table' b := by
  unfold Written at h
  rw [if_neg (List.ne_nil_of_mem hb)] at h
  obtain ⟨rows, hsource, hreplace⟩ := Option.bind_eq_some_iff.mp h
  intro m hm dims row
  have hstore : ∀ roles, pointFrom w m.aggregation (q.groupSeen w place facts m (b, dims)) = some roles →
      insert (rowFor roles) = some (rowFor roles) := fun roles hroles =>
    insert_of_storable ((pointFrom_eq_some.mp hroles).2 ▸ hexact.group_stored hm (b, dims))
  rw [mem_replaceRows hreplace (hin rows hsource)]
  constructor
  · rintro (⟨-, hout⟩ | ⟨p, hp, hkey, hrow⟩)
    · exact absurd hb hout
    · obtain ⟨key, roles⟩ := p
      obtain rfl : key = (b, m.name, dims) := hkey
      have hroles := (hrows rows hsource m hm dims roles).mp hp
      exact ⟨roles, hroles, Option.some.inj (hrow.symm.trans (hstore roles hroles))⟩
  · rintro ⟨roles, hroles, rfl⟩
    exact Or.inr ⟨_, (hrows rows hsource m hm dims roles).mpr hroles, rfl, hstore roles hroles⟩

/-- What is merged and written, row by row. -/
theorem Written.merged {place : Bucket → Option Bucket} {lower : List (RowKey × RollupRow)}
    (h : Written (mergeRows place lower) buckets table table') (hin : InBuckets (mergeRows place lower) buckets)
    {x : RowKey × RollupRow} (hx : x.1.1 ∈ buckets) : x ∈ table' ↔
      ∃ roles, addAll none ((mergedInto place lower x.1).map fun r => cascadeRoles r.2) = some (some roles) ∧
        roles.isEmpty = false ∧ insert (rowFor roles) = some x.2 := by
  unfold Written at h
  rw [if_neg (List.ne_nil_of_mem hx)] at h
  obtain ⟨rows, hrows, hreplace⟩ := Option.bind_eq_some_iff.mp h
  rw [mem_replaceRows hreplace (hin rows hrows)]
  constructor
  · rintro (⟨-, hout⟩ | ⟨p, hp, hkey, hrow⟩)
    · exact absurd hx hout
    · obtain ⟨hmerged, he⟩ := (mem_mergeRows hrows p).mp hp
      rw [hkey] at hmerged
      exact ⟨p.2, hmerged, he, hrow⟩
  · rintro ⟨roles, hmerged, he, hrow⟩
    exact Or.inr ⟨(x.1, roles), (mem_mergeRows hrows (x.1, roles)).mpr ⟨hmerged, he⟩, rfl, hrow⟩

end Levels

/-! ## §6. `_fold_grains`, level by level. -/

section Grains

variable {w} {c : DateArithmetic} {q : RegisteredMetric} {facts : List DatedFact} {hours : List Instant}
  {dates derivable days months byFact : List Day} {t t' : Rollups} {g : Grain}

theorem put_iff {o : Option (List (RowKey × RollupRow))} :
    t.put g o = some t' ↔ (∀ g' ≠ g, t' g' = t g') ∧ o = some (t' g) := by
  unfold Rollups.put
  constructor
  · intro h
    obtain ⟨rows, rfl, rfl⟩ := Option.map_eq_some_iff.mp h
    exact ⟨fun g' hg => Function.update_of_ne hg _ _, by rw [Function.update_self]⟩
  · rintro ⟨hothers, ho⟩
    rw [ho]
    refine congrArg some (funext fun g' => ?_)
    by_cases hg : g' = g
    · rw [hg, Function.update_self]
    · rw [Function.update_of_ne hg, hothers g' hg]

theorem level_iff {source : Option (List (RowKey × Roles))} {buckets : List Bucket} :
    (if buckets = [] then some t else t.put g (source.bind fun rows => replaceRows buckets rows (t g))) = some t' ↔
      (∀ g' ≠ g, t' g' = t g') ∧ Written source buckets (t g) (t' g) := by
  unfold Written
  by_cases hb : buckets = []
  · rw [if_pos hb, if_pos hb]
    constructor
    · intro h
      obtain rfl := Option.some.inj h
      exact ⟨fun _ _ => rfl, rfl⟩
    · rintro ⟨hothers, hg⟩
      refine congrArg some (funext fun g' => ?_)
      by_cases he : g' = g
      · rw [he, hg]
      · rw [hothers g' he]
  · rw [if_neg hb, if_neg hb]
    exact put_iff

/-- A level that is not kept stays as it is. -/
theorem kept_iff {p : Prop} [Decidable p] {step : Option Rollups} {S : Prop}
    (h : step = some t' ↔ (∀ g' ≠ g, t' g' = t g') ∧ S) :
    (if p then step else some t) = some t' ↔
      (∀ g' ≠ g, t' g' = t g') ∧ if p then S else t' g = t g := by
  by_cases hp : p
  · rw [if_pos hp, if_pos hp, h]
  · rw [if_neg hp, if_neg hp]
    constructor
    · intro heq
      obtain rfl := Option.some.inj heq
      exact ⟨fun _ _ => rfl, rfl⟩
    · rintro ⟨hothers, hg⟩
      refine congrArg some (funext fun g' => ?_)
      by_cases he : g' = g
      · rw [he, hg]
      · rw [hothers g' he]

/-- Without an hour no fact is placed. -/
theorem rowsBy_no_hour : q.rowsBy w (hourPlace []) facts = some [] := by
  have hkeys : facts.filterMap (q.groupBy w (hourPlace [])) = [] := by
    rw [List.filterMap_eq_nil_iff]
    intro f _
    unfold RegisteredMetric.groupBy hourPlace
    cases f.row.eventTime <;> simp
  unfold RegisteredMetric.rowsBy groupFold
  show Option.map _ (List.mapM _ (facts.filterMap (q.groupBy w (hourPlace []))).dedup) = _
  rw [hkeys]
  rfl

theorem foldHourly_iff : foldHourly w q facts hours t = some t' ↔ (∀ g ≠ .hourly, t' g = t g) ∧
    if .hourly ∈ q.grains then Written (q.rowsBy w (hourPlace hours) facts) (hours.map .hour) (t .hourly) (t' .hourly)
    else t' .hourly = t .hourly := by
  unfold foldHourly
  refine kept_iff ?_
  rw [← level_iff]
  by_cases hh : hours.map Bucket.hour = []
  · obtain rfl := List.map_eq_nil_iff.mp hh
    rw [if_pos hh, rowsBy_no_hour]
    show (some (Function.update t .hourly (t .hourly)) = some t') ↔ _
    rw [Function.update_eq_self]
  · rw [if_neg hh]

theorem foldDailyFromHourly_iff : foldDailyFromHourly c days t = some t' ↔ (∀ g ≠ .daily, t' g = t g) ∧
    Written (mergeRows (daySpanOf c days) (t .hourly)) (days.map .day) (t .daily) (t' .daily) := by
  unfold foldDailyFromHourly
  rw [← level_iff]
  simp only [List.map_eq_nil_iff]

theorem foldMonthly_iff : foldMonthly c months t = some t' ↔ (∀ g ≠ .monthly, t' g = t g) ∧
    Written (mergeRows (monthIn c months) ((t .daily).filter fun r => inMonths c months r.1.1)) (months.map .day)
      (t .monthly) (t' .monthly) := by
  unfold foldMonthly
  rw [← level_iff]
  simp only [List.map_eq_nil_iff]

theorem foldDaily_iff : foldDaily w c q facts byFact derivable t = some t' ↔ (∀ g ≠ .daily, t' g = t g) ∧
    if .daily ∈ q.grains then ∃ between,
      Written (q.rowsBy w (datePlace byFact) facts) (byFact.map .day) (t .daily) between ∧
      Written (mergeRows (daySpanOf c derivable) (t .hourly)) (derivable.map .day) between (t' .daily)
    else t' .daily = t .daily := by
  unfold foldDaily
  refine kept_iff ?_
  have hfirst : ∀ t₁ : Rollups, (if byFact = [] then some t
      else t.put .daily ((q.rowsBy w (datePlace byFact) facts).bind fun rows =>
        replaceRows (byFact.map .day) rows (t .daily))) = some t₁ ↔
      (∀ g ≠ .daily, t₁ g = t g) ∧
        Written (q.rowsBy w (datePlace byFact) facts) (byFact.map .day) (t .daily) (t₁ .daily) := by
    intro t₁
    rw [← level_iff]
    simp only [List.map_eq_nil_iff]
  rw [Option.bind_eq_some_iff]
  constructor
  · rintro ⟨t₁, h₁, h₂⟩
    obtain ⟨hothers₁, hwritten₁⟩ := (hfirst t₁).mp h₁
    obtain ⟨hothers₂, hwritten₂⟩ := foldDailyFromHourly_iff.mp h₂
    -- the first half writes days only, so the second still reads the hours as they were
    rw [hothers₁ .hourly (by decide)] at hwritten₂
    exact ⟨fun g hg => (hothers₂ g hg).trans (hothers₁ g hg), _, hwritten₁, hwritten₂⟩
  · rintro ⟨hothers, between, hwritten₁, hwritten₂⟩
    refine ⟨Function.update t .daily between, (hfirst _).mpr ⟨fun g hg => Function.update_of_ne hg _ _, ?_⟩,
      foldDailyFromHourly_iff.mpr ⟨fun g hg => ?_, ?_⟩⟩
    · rw [Function.update_self]
      exact hwritten₁
    · rw [Function.update_of_ne hg, hothers g hg]
    · rw [Function.update_self, Function.update_of_ne (by decide)]
      exact hwritten₂

/-- The three levels of a run, each table by itself. -/
structure Levels (w : PythonTexts) (c : DateArithmetic) (q : RegisteredMetric) (facts : List DatedFact)
    (hours : List Instant) (dates derivable : List Day) (t t' : Rollups) : Prop where
  hourly : if .hourly ∈ q.grains then
      Written (q.rowsBy w (hourPlace hours) facts) (hours.map .hour) (t .hourly) (t' .hourly)
    else t' .hourly = t .hourly
  daily : if .daily ∈ q.grains then ∃ between,
      Written (q.rowsBy w (datePlace (dates.filter fun d => decide (d ∉ derivable))) facts)
        ((dates.filter fun d => decide (d ∉ derivable)).map .day) (t .daily) between ∧
      Written (mergeRows (daySpanOf c derivable) (t' .hourly)) (derivable.map .day) between (t' .daily)
    else t' .daily = t .daily
  monthly : if .monthly ∈ q.grains then
      Written (mergeRows (monthIn c (dates.map c.monthOf))
        ((t' .daily).filter fun r => inMonths c (dates.map c.monthOf) r.1.1)) ((dates.map c.monthOf).map .day)
        (t .monthly) (t' .monthly)
    else t' .monthly = t .monthly

/-- **A run of `_fold_grains`** is its three levels. -/
theorem foldGrains_iff : foldGrains w c q facts hours dates derivable t = some t' ↔
    Levels w c q facts hours dates derivable t t' := by
  unfold foldGrains
  simp only [Option.bind_eq_bind, Option.bind_eq_some_iff]
  have hmonths : ∀ t₂ : Rollups, (if .monthly ∈ q.grains then foldMonthly c (dates.map c.monthOf) t₂ else some t₂) =
      some t' ↔ (∀ g ≠ .monthly, t' g = t₂ g) ∧ if .monthly ∈ q.grains then
        Written (mergeRows (monthIn c (dates.map c.monthOf))
          ((t₂ .daily).filter fun r => inMonths c (dates.map c.monthOf) r.1.1)) ((dates.map c.monthOf).map .day)
          (t₂ .monthly) (t' .monthly)
      else t' .monthly = t₂ .monthly := fun t₂ => kept_iff foldMonthly_iff
  constructor
  · rintro ⟨t₁, h₁, t₂, h₂, h₃⟩
    obtain ⟨hothers₁, hhourly⟩ := foldHourly_iff.mp h₁
    obtain ⟨hothers₂, hdaily⟩ := foldDaily_iff.mp h₂
    obtain ⟨hothers₃, hmonthly⟩ := (hmonths t₂).mp h₃
    have hhours : t' .hourly = t₁ .hourly := (hothers₃ .hourly (by decide)).trans (hothers₂ .hourly (by decide))
    have hdays : t' .daily = t₂ .daily := hothers₃ .daily (by decide)
    have hmonthsBefore : t₂ .monthly = t .monthly :=
      (hothers₂ .monthly (by decide)).trans (hothers₁ .monthly (by decide))
    refine ⟨?_, ?_, ?_⟩
    · rw [hhours]
      exact hhourly
    · rw [hdays, hhours, ← hothers₁ .daily (by decide)]
      exact hdaily
    · rw [hdays, ← hmonthsBefore]
      exact hmonthly
  · rintro ⟨hhourly, hdaily, hmonthly⟩
    -- between the passes each grain already has its final table, the later ones still their old
    refine ⟨Function.update t .hourly (t' .hourly), foldHourly_iff.mpr ⟨fun g hg => Function.update_of_ne hg _ _, ?_⟩,
      Function.update (Function.update t .hourly (t' .hourly)) .daily (t' .daily),
      foldDaily_iff.mpr ⟨fun g hg => Function.update_of_ne hg _ _, ?_⟩, (hmonths _).mpr ⟨fun g hg => ?_, ?_⟩⟩
    · rw [Function.update_self]
      exact hhourly
    · rw [Function.update_self, Function.update_self, Function.update_of_ne (by decide)]
      exact hdaily
    · cases g with
      | hourly => rw [Function.update_of_ne (by decide), Function.update_self]
      | daily => rw [Function.update_self]
      | monthly => exact absurd rfl hg
    · rw [Function.update_self, Function.update_of_ne (by decide), Function.update_of_ne (by decide)]
      exact hmonthly

end Grains

/-! ## §7. Where facts and rows are placed. -/

section Places

variable {w} {c : DateArithmetic} {q : RegisteredMetric} {hours : List Instant} {days months : List Day}
  {f : DatedFact} {b : Bucket}

/-- The month of a fact. -/
def monthBucket (c : DateArithmetic) (f : DatedFact) : Option Bucket := f.businessDate.map fun d => .day (c.monthOf d)

theorem hourPlace_iff : hourPlace hours f = some b ↔ bucketOf .hourly f = some b ∧ b ∈ hours.map Bucket.hour := by
  unfold hourPlace bucketOf
  cases f.row.eventTime with
  | none => simp
  | some t =>
    rw [Option.bind_some, Option.map_some]
    constructor
    · intro h
      split at h
      · next hmem =>
        obtain rfl := Option.some.inj h
        exact ⟨rfl, List.mem_map_of_mem hmem⟩
      · cases h
    · rintro ⟨h, hmem⟩
      obtain rfl := Option.some.inj h
      obtain ⟨h', hh', he⟩ := List.mem_map.mp hmem
      rw [if_pos (Bucket.hour.inj he ▸ hh')]

theorem datePlace_iff : datePlace days f = some b ↔ bucketOf .daily f = some b ∧ b ∈ days.map Bucket.day := by
  unfold datePlace bucketOf
  cases f.businessDate with
  | none => simp
  | some d =>
    rw [Option.bind_some, Option.map_some]
    constructor
    · intro h
      split at h
      · next hmem =>
        obtain rfl := Option.some.inj h
        exact ⟨rfl, List.mem_map_of_mem hmem⟩
      · cases h
    · rintro ⟨h, hmem⟩
      obtain rfl := Option.some.inj h
      obtain ⟨d', hd', he⟩ := List.mem_map.mp hmem
      rw [if_pos (Bucket.day.inj he ▸ hd')]

theorem within_hours {facts : List DatedFact} : InBuckets (q.rowsBy w (hourPlace hours) facts) (hours.map .hour) := by
  intro rows hrows p hp
  obtain ⟨f, -, hf⟩ := rowsBy_place hrows hp
  exact (hourPlace_iff.mp hf).2

theorem within_dates {facts : List DatedFact} : InBuckets (q.rowsBy w (datePlace days) facts) (days.map .day) := by
  intro rows hrows p hp
  obtain ⟨f, -, hf⟩ := rowsBy_place hrows hp
  exact (datePlace_iff.mp hf).2

theorem within_spans {table : List (RowKey × RollupRow)} : InBuckets (mergeRows (daySpanOf c days) table) (days.map .day) := by
  intro rows hrows p hp
  obtain ⟨r, -, hr⟩ := mergeRows_place hrows hp
  unfold daySpanOf at hr
  split at hr
  · obtain ⟨d, hd, heq⟩ := Option.map_eq_some_iff.mp hr
    rw [← heq]
    exact List.mem_map_of_mem (List.mem_of_find?_eq_some hd)
  · cases hr

theorem monthIn_iff {b' : Bucket} : monthIn c months b' = some b ↔
    ∃ d, b' = .day d ∧ b = .day (c.monthOf d) ∧ c.monthOf d ∈ months := by
  cases b' with
  | hour h => simp [monthIn]
  | day d =>
    show (if c.monthOf d ∈ months then some (Bucket.day (c.monthOf d)) else none) = some b ↔ _
    constructor
    · intro h
      split at h
      · next hmem => exact ⟨d, rfl, (Option.some.inj h).symm, hmem⟩
      · cases h
    · rintro ⟨d', hd', rfl, hmem⟩
      obtain rfl := Bucket.day.inj hd'
      exact if_pos hmem

theorem within_months {table : List (RowKey × RollupRow)} :
    InBuckets (mergeRows (monthIn c months) table) (months.map .day) := by
  intro rows hrows p hp
  obtain ⟨r, -, hr⟩ := mergeRows_place hrows hp
  obtain ⟨d, -, hb, hmem⟩ := monthIn_iff.mp hr
  rw [hb]
  exact List.mem_map_of_mem hmem

/-- A day that is merged from hours starts and ends on whole hours. -/
theorem localDaySpan_whole {d : Day} (h : (localDaySpan c d).isSome) :
    c.midnight d = hourOf (c.midnight d) ∧ c.midnight (d + 1) = hourOf (c.midnight (d + 1)) ∧
      localDaySpan c d = some (c.midnight d, c.midnight (d + 1)) := by
  have heq : localDaySpan c d = if c.midnight d ≠ hourOf (c.midnight d) ∨
      c.midnight (d + 1) ≠ hourOf (c.midnight (d + 1)) then none
    else some (c.midnight d, c.midnight (d + 1)) := rfl
  by_cases hnot : c.midnight d ≠ hourOf (c.midnight d) ∨ c.midnight (d + 1) ≠ hourOf (c.midnight (d + 1))
  · rw [heq, if_pos hnot] at h
    cases h
  · rw [if_neg hnot] at heq
    push Not at hnot
    exact ⟨hnot.1, hnot.2, heq⟩

/-- **The day of an hour**, among days that start and end on whole hours: the date of its start. -/
theorem daySpanOf_iff {cal : Calendar} (hmid : c.midnight = cal.midnight)
    (hwhole : ∀ d ∈ days, (localDaySpan c d).isSome) {s : Instant} {d : Day} :
    daySpanOf c days (.hour s) = some (.day d) ↔ d ∈ days ∧ cal.dateOf s = d := by
  have hspan : ∀ d ∈ days, localDaySpan c d = some (cal.midnight d, cal.midnight (d + 1)) := fun d hd =>
    hmid ▸ (localDaySpan_whole (hwhole d hd)).2.2
  have hin : ∀ d ∈ days, ((localDaySpan c d).any fun s' => decide (s'.1 ≤ s ∧ s < s'.2)) = true ↔ cal.dateOf s = d := by
    intro d hd
    rw [hspan d hd, Option.any_some, decide_eq_true_eq, cal.midnight_le_iff, lt_midnight_iff]
    constructor
    · rintro ⟨hlo, hhi⟩
      exact le_antisymm (Int.lt_add_one_iff.mp hhi) hlo
    · rintro rfl
      exact ⟨le_refl _, Int.lt_add_one_iff.mpr (le_refl _)⟩
  unfold daySpanOf
  constructor
  · intro h
    obtain ⟨d', hd', heq⟩ := Option.map_eq_some_iff.mp h
    obtain rfl := Bucket.day.inj heq
    have hmem := List.mem_of_find?_eq_some hd'
    exact ⟨hmem, (hin d' hmem).mp (List.find?_eq_some_iff_append.mp hd').1⟩
  · rintro ⟨hmem, hdate⟩
    -- an hour starts on one date, so no other day is found
    have hfind : (days.find? fun day => (localDaySpan c day).any fun s' => decide (s'.1 ≤ s ∧ s < s'.2)) = some d := by
      refine find?_only hmem ((hin d hmem).mpr hdate) fun d' hmem' hspan' => ?_
      exact ((hin d' hmem').mp hspan').symm.trans hdate
    show (days.find? fun day => (localDaySpan c day).any fun s' => decide (s'.1 ≤ s ∧ s < s'.2)).map Bucket.day =
      some (.day d)
    rw [hfind]
    rfl

/-- The hour of an instant is on the date of the instant, where the date starts and ends on whole hours. -/
theorem dateOf_hourOf {cal : Calendar} (hmid : c.midnight = cal.midnight) {d : Day}
    (hwhole : (localDaySpan c d).isSome) (t : Instant) : cal.dateOf (hourOf t) = d ↔ cal.dateOf t = d := by
  obtain ⟨hlo, hhi, -⟩ := localDaySpan_whole hwhole
  rw [hmid] at hlo hhi
  have hstart : cal.midnight d ≤ hourOf t ↔ cal.midnight d ≤ t := by
    rw [hlo]
    exact (hourOf_le_iff _ t).symm
  have hstop : cal.midnight (d + 1) ≤ hourOf t ↔ cal.midnight (d + 1) ≤ t := by
    rw [hhi]
    exact (hourOf_le_iff _ t).symm
  rw [cal.midnight_le_iff, cal.midnight_le_iff] at hstart hstop
  have hdate : ∀ x y : ℤ, x = y ↔ y ≤ x ∧ ¬y + 1 ≤ x := by
    intro x y
    omega
  exact ((hdate _ _).trans (and_congr hstart (not_congr hstop))).trans (hdate _ _).symm

end Places

/-! ## §8. A run. -/

section Run

variable {w} {c : DateArithmetic} {cal : Calendar} {q : RegisteredMetric} {today : Day} {hidden : List String}
  {hours : List Instant} {dates : List Day} {facts : List DatedFact} {t t' : Rollups}

/-- The facts that the rollups of a definition count. -/
def RegisteredMetric.shown (q : RegisteredMetric) (hidden : List String) (facts : List DatedFact) : List DatedFact :=
  facts.filter fun f => f.visible hidden && f.since q.rollupsFrom

theorem readDirty_sublist {byFact : List Day} :
    (readDirtyFacts hours byFact hidden q.rollupsFrom facts).Sublist (q.shown hidden facts) := by
  apply List.monotone_filter_right
  intro f hf
  rw [Bool.and_eq_true, Bool.and_eq_true] at hf
  rw [Bool.and_eq_true]
  exact ⟨hf.1.2, hf.2⟩

/-- What is read of the facts of a bucket is all that is shown of them. -/
theorem groupSeen_read {byFact : List Day} {place : DatedFact → Option Bucket} (whole : DatedFact → Option Bucket)
    {b : Bucket} (h : ∀ f, place f = some b ↔ whole f = some b)
    (hread : ∀ f, place f = some b → inHourRange hours f = true ∨ inDateRange byFact f = true) (m : Measure)
    (dims : List (Option String)) :
    q.groupSeen w place (readDirtyFacts hours byFact hidden q.rollupsFrom facts) m (b, dims) =
      q.groupSeen w whole (q.shown hidden facts) m (b, dims) := by
  unfold RegisteredMetric.groupSeen groupRows readDirtyFacts RegisteredMetric.shown
  rw [List.filter_filter, List.filter_filter]
  refine congrArg (fun l => seenAll w q.definition m (l.map DatedFact.row)) (List.filter_congr fun f _ => ?_)
  have hgroup : ∀ place' : DatedFact → Option Bucket, q.groupBy w place' f = some (b, dims) ↔
      place' f = some b ∧ q.dimKey w f = dims := by
    intro place'
    unfold RegisteredMetric.groupBy
    cases place' f <;> simp
  by_cases hf : place f = some b
  · have hrange : (inHourRange hours f || inDateRange byFact f) = true := by simpa using hread f hf
    rw [hrange]
    simp [hgroup, hf, (h f).mp hf]
  · have hf' : ¬whole f = some b := fun hw => hf ((h f).mpr hw)
    simp [hgroup, hf, hf']

/-- Nothing is known of a run before it but this: facts under their local dates, months in order, nothing
lost in the columns, one row for each key, and rows that hold wherever the run reads what it does not
write. -/
structure Prepared (w : PythonTexts) (c : DateArithmetic) (cal : Calendar) (q : RegisteredMetric) (today : Day)
    (hidden : List String) (hours : List Instant) (dates : List Day) (facts : List DatedFact) (t : Rollups) :
    Prop where
  midnights : c.midnight = cal.midnight
  monthStart : ∀ d, c.monthOf d ≤ d
  monthStop : ∀ d, d ≤ c.monthEnd (c.monthOf d)
  monthsGrow : ∀ m m', m ≤ m' → c.monthEnd m ≤ c.monthEnd m'
  dated : ∀ f ∈ facts, f.Dated cal
  exact : Lossless w q (q.shown hidden facts)
  unique : ∀ g, ((t g).map Prod.fst).Nodup
  freshHours : ∀ h, cal.dateOf h ∈ (routeDates c q dates today).1 → h ∉ hours →
    Holds w q (bucketOf .hourly) (q.shown hidden facts) (t .hourly) (.hour h)
  freshDays : ∀ d, d ∉ dates → c.monthOf d ∈ dates.map c.monthOf →
    Holds w q (bucketOf .daily) (q.shown hidden facts) (t .daily) (.day d)

theorem routed_derivable {d : Day} (h : d ∈ (routeDates c q dates today).1) :
    d ∈ dates ∧ .hourly ∈ q.grains ∧ (localDaySpan c d).isSome := by
  unfold routeDates at h
  split at h
  · cases h
  · next hgrain =>
    obtain ⟨hd, hderivable⟩ := List.mem_filter.mp h
    refine ⟨hd, not_not.mp hgrain, ?_⟩
    unfold dailyDerivable at hderivable
    split at hderivable
    · cases hderivable
    · exact hderivable

/-- Rows that stay as they were hold what they held. -/
theorem Holds.kept {place : DatedFact → Option Bucket} {table table' : List (RowKey × RollupRow)} {b : Bucket}
    (h : Holds w q place facts table b) (hsame : ∀ x : RowKey × RollupRow, x.1.1 = b → (x ∈ table' ↔ x ∈ table)) :
    Holds w q place facts table' b :=
  fun m hm dims row => (hsame ((b, m.name, dims), row) rfl).trans (h m hm dims row)

/-- A bucket without a fact has no row. -/
theorem Holds.gone {place : DatedFact → Option Bucket} {table : List (RowKey × RollupRow)} {b : Bucket}
    (hexact : Lossless w q facts) (h : Holds w q place facts table b) (hnone : ∀ f ∈ facts, place f ≠ some b)
    {m : Measure} (hm : m ∈ q.definition.measures) (dims : List (Option String)) (row : RollupRow) :
    ((b, m.name, dims), row) ∉ table := by
  intro hx
  obtain ⟨roles, hroles, -⟩ := (h m hm dims row).mp hx
  have hpoint := pointFrom_groupSeen_nil (w := w) q place facts (hexact.merged m hm)
    (k := (b, dims)) fun f hf heq => by
      obtain ⟨b', hb', he⟩ := Option.map_eq_some_iff.mp heq
      exact hnone f hf (hb'.trans (congrArg some (Prod.mk.inj he).1))
  rw [hroles] at hpoint
  cases hpoint

/-- A shown fact is of a day exactly if its hour is. -/
theorem hour_of_day (h : Prepared w c cal q today hidden hours dates facts t) {d : Day} (hd : d ∈ (routeDates c q dates today).1) {f : DatedFact}
    (hf : f ∈ q.shown hidden facts) : bucketOf .daily f = some (.day d) ↔
      ∃ b', bucketOf .hourly f = some b' ∧ daySpanOf c (routeDates c q dates today).1 b' = some (.day d) := by
  have hwhole : ∀ d ∈ (routeDates c q dates today).1, (localDaySpan c d).isSome := fun d hd => (routed_derivable hd).2.2
  have hdated := h.dated f (List.mem_filter.mp hf).1
  unfold DatedFact.Dated at hdated
  unfold bucketOf
  rw [hdated]
  cases f.row.eventTime with
  | none => simp
  | some at_ =>
    have hspan := daySpanOf_iff h.midnights hwhole (s := hourOf at_) (d := d)
    have hdate := dateOf_hourOf h.midnights (hwhole d hd) at_
    simp only [Option.map_some, Option.some.injEq, exists_eq_left', Bucket.day.injEq]
    rw [hspan, hdate]
    exact ⟨fun he => ⟨hd, he⟩, fun he => he.2⟩

/-- The days of a month are in the range that is read. -/
theorem inMonths_day (h : Prepared w c cal q today hidden hours dates facts t) {d : Day} (hd : c.monthOf d ∈ dates.map c.monthOf) :
    inMonths c (dates.map c.monthOf) (.day d) = true := by
  obtain ⟨lo, hi, hlo, hhi, hle, hge⟩ := between_min?_max? hd
  show ((dates.map c.monthOf).min?.any (fun first => decide (first ≤ d)) &&
    (dates.map c.monthOf).max?.any fun last => decide (d ≤ c.monthEnd last)) = true
  rw [hlo, hhi, Option.any_some, Option.any_some, Bool.and_eq_true, decide_eq_true_eq, decide_eq_true_eq]
  exact ⟨le_trans hle (h.monthStart d), le_trans (h.monthStop d) (h.monthsGrow _ _ hge)⟩

section Steps

variable (h : Prepared w c cal q today hidden hours dates facts t)
  (hlevels : Levels w c q (readDirtyFacts hours (routeDates c q dates today).2 hidden q.rollupsFrom facts) hours dates
    (routeDates c q dates today).1 t t')

include h hlevels

/-- **The hours.** -/
theorem hours_hold (hgrain : .hourly ∈ q.grains) {s : Instant} (hs : s ∈ hours) :
    Holds w q (bucketOf .hourly) (q.shown hidden facts) (t' .hourly) (.hour s) := by
  have hwritten := hlevels.hourly
  rw [if_pos hgrain] at hwritten
  refine hwritten.holds h.exact within_hours (List.mem_map_of_mem hs) fun rows hrows m hm dims roles => ?_
  rw [rowsBy_mem (h.exact.sublist readDirty_sublist) hrows hm (.hour s, dims) roles]
  rw [groupSeen_read (bucketOf .hourly) (fun f => ?_) (fun f hf => ?_)]
  · rw [hourPlace_iff]
    exact ⟨fun hf => hf.1, fun hf => ⟨hf, List.mem_map_of_mem hs⟩⟩
  · exact Or.inl (inHourRange_of_place fun hnone => by rw [hnone] at hf; cases hf)

/-- Every hour of a day that is merged from hours. -/
theorem derivable_hours_hold {s : Instant} (hs : cal.dateOf s ∈ (routeDates c q dates today).1) :
    Holds w q (bucketOf .hourly) (q.shown hidden facts) (t' .hourly) (.hour s) := by
  have hgrain := (routed_derivable hs).2.1
  by_cases hdirty : s ∈ hours
  · exact hours_hold h hlevels hgrain hdirty
  · have hwritten := hlevels.hourly
    rw [if_pos hgrain] at hwritten
    refine (h.freshHours s hs hdirty).kept fun x hx => hwritten.other within_hours fun hmem => ?_
    obtain ⟨s', hs', he⟩ := List.mem_map.mp hmem
    rw [hx] at he
    exact hdirty (Bucket.hour.inj he ▸ hs')

theorem hourly_unique : ((t' .hourly).map Prod.fst).Nodup := by
  have hwritten := hlevels.hourly
  by_cases hgrain : .hourly ∈ q.grains
  · rw [if_pos hgrain] at hwritten
    exact hwritten.nodup within_hours (fun rows hrows => rowsBy_nodup h.exact.names hrows) (h.unique .hourly)
  · rw [if_neg hgrain] at hwritten
    rw [hwritten]
    exact h.unique .hourly

/-- **The days.** -/
theorem days_hold (hgrain : .daily ∈ q.grains) {d : Day} (hd : d ∈ dates) :
    Holds w q (bucketOf .daily) (q.shown hidden facts) (t' .daily) (.day d) := by
  have hdaily := hlevels.daily
  rw [if_pos hgrain] at hdaily
  obtain ⟨between, hfirst, hsecond⟩ := hdaily
  rw [routeDates_byFact] at hfirst
  by_cases hderivable : d ∈ (routeDates c q dates today).1
  · -- from the hours
    refine hsecond.holds h.exact within_spans (List.mem_map_of_mem hderivable) fun rows hrows m hm dims roles => ?_
    refine mergeRows_mem h.exact (hourly_unique h hlevels) hrows (fun f hf => hour_of_day h hderivable hf)
      (fun b' hb' => ?_) hm dims roles
    cases b' with
    | day d' => cases hb'
    | hour s =>
      have hs := (daySpanOf_iff h.midnights (fun d hd => (routed_derivable hd).2.2)).mp hb'
      exact derivable_hours_hold h hlevels (hs.2 ▸ hderivable)
  · -- from the facts; the days that are merged afterwards are others
    have hbyFact : d ∈ (routeDates c q dates today).2 := by
      rw [← routeDates_byFact]
      exact List.mem_filter.mpr ⟨hd, by simpa using hderivable⟩
    have hholds : Holds w q (bucketOf .daily) (q.shown hidden facts) between (.day d) := by
      refine hfirst.holds h.exact within_dates (List.mem_map_of_mem hbyFact) fun rows hrows m hm dims roles => ?_
      rw [rowsBy_mem (h.exact.sublist readDirty_sublist) hrows hm (.day d, dims) roles]
      rw [groupSeen_read (bucketOf .daily) (fun f => ?_) (fun f hf => ?_)]
      · rw [datePlace_iff]
        exact ⟨fun hf => hf.1, fun hf => ⟨hf, List.mem_map_of_mem hbyFact⟩⟩
      · exact Or.inr (inDateRange_of_place (List.Subset.refl _) fun hnone => by rw [hnone] at hf; cases hf)
    refine hholds.kept fun x hx => hsecond.other within_spans fun hmem => ?_
    obtain ⟨d', hd', he⟩ := List.mem_map.mp hmem
    rw [hx] at he
    exact hderivable (Bucket.day.inj he ▸ hd')

theorem daily_unique : ((t' .daily).map Prod.fst).Nodup := by
  have hdaily := hlevels.daily
  by_cases hgrain : .daily ∈ q.grains
  · rw [if_pos hgrain] at hdaily
    obtain ⟨between, hfirst, hsecond⟩ := hdaily
    refine hsecond.nodup within_spans (fun rows hrows => mergeRows_nodup hrows) ?_
    exact hfirst.nodup within_dates (fun rows hrows => rowsBy_nodup h.exact.names hrows) (h.unique .daily)
  · rw [if_neg hgrain] at hdaily
    rw [hdaily]
    exact h.unique .daily

/-- Every day of a month that is merged. -/
theorem month_days_hold (hgrain : .daily ∈ q.grains) {d : Day} (hd : c.monthOf d ∈ dates.map c.monthOf) :
    Holds w q (bucketOf .daily) (q.shown hidden facts) (t' .daily) (.day d) := by
  by_cases hdirty : d ∈ dates
  · exact days_hold h hlevels hgrain hdirty
  · have hdaily := hlevels.daily
    rw [if_pos hgrain] at hdaily
    obtain ⟨between, hfirst, hsecond⟩ := hdaily
    rw [routeDates_byFact] at hfirst
    have hout : ∀ days : List Day, days ⊆ dates → ∀ x : RowKey × RollupRow, x.1.1 = .day d →
        x.1.1 ∉ days.map Bucket.day := by
      intro days hsub x hx hmem
      obtain ⟨d', hd', he⟩ := List.mem_map.mp hmem
      rw [hx] at he
      exact hdirty (hsub (Bucket.day.inj he ▸ hd'))
    have hroute : (routeDates c q dates today).2 ⊆ dates := by
      rw [← routeDates_byFact]
      exact fun x hx => (List.mem_filter.mp hx).1
    refine ((h.freshDays d hdirty hd).kept fun x hx => hfirst.other within_dates (hout _ hroute x hx)).kept fun x hx =>
      hsecond.other within_spans (hout _ (fun d' hd' => (routed_derivable hd').1) x hx)

/-- **The months.** -/
theorem months_hold (hdaily : .daily ∈ q.grains) (hgrain : .monthly ∈ q.grains) {d : Day} (hd : d ∈ dates) :
    Holds w q (monthBucket c) (q.shown hidden facts) (t' .monthly) (.day (c.monthOf d)) := by
  have hmonthly := hlevels.monthly
  rw [if_pos hgrain] at hmonthly
  have hmonth : c.monthOf d ∈ dates.map c.monthOf := List.mem_map_of_mem hd
  refine hmonthly.holds h.exact within_months (List.mem_map_of_mem hmonth) fun rows hrows m hm dims roles => ?_
  have hkeys : (((t' .daily).filter fun r => inMonths c (dates.map c.monthOf) r.1.1).map Prod.fst).Nodup :=
    (daily_unique h hlevels).sublist (List.filter_sublist.map _)
  have hplaced : ∀ f ∈ q.shown hidden facts, monthBucket c f = some (.day (c.monthOf d)) ↔
      ∃ b', bucketOf .daily f = some b' ∧ monthIn c (dates.map c.monthOf) b' = some (.day (c.monthOf d)) := by
    intro f _
    unfold monthBucket bucketOf
    cases f.businessDate with
    | none => simp
    | some d' =>
      simp only [Option.map_some, Option.some.injEq, exists_eq_left', Bucket.day.injEq]
      rw [monthIn_iff]
      constructor
      · intro he
        exact ⟨d', rfl, by rw [he], he ▸ hmonth⟩
      · rintro ⟨d'', hd'', he, -⟩
        obtain rfl := Bucket.day.inj hd''
        exact (Bucket.day.inj he).symm
  refine mergeRows_mem h.exact hkeys hrows hplaced (fun b' hb' => ?_) hm dims roles
  obtain ⟨d', rfl, he, hmem⟩ := monthIn_iff.mp hb'
  refine (month_days_hold h hlevels hdaily hmem).kept fun x hx => ?_
  rw [List.mem_filter, hx, inMonths_day h hmem]
  exact and_iff_left rfl

end Steps

/-- **The same run again** leaves the tables as they are. -/
theorem levels_again {facts : List DatedFact} {derivable : List Day} (h : Levels w c q facts hours dates derivable t t') :
    Levels w c q facts hours dates derivable t' t' where
  hourly := by
    have hwritten := h.hourly
    by_cases hgrain : .hourly ∈ q.grains
    · rw [if_pos hgrain] at hwritten ⊢
      exact hwritten.again within_hours
    · rw [if_neg hgrain]
  daily := by
    have hdaily := h.daily
    by_cases hgrain : .daily ∈ q.grains
    · rw [if_pos hgrain] at hdaily ⊢
      obtain ⟨between, hfirst, hsecond⟩ := hdaily
      refine hfirst.both_again hsecond within_dates within_spans fun b hb hb' => ?_
      obtain ⟨d, hd, rfl⟩ := List.mem_map.mp hb
      obtain ⟨d', hd', he⟩ := List.mem_map.mp hb'
      have hout := (List.mem_filter.mp hd).2
      rw [Bucket.day.inj he] at hd'
      simp [hd'] at hout
    · rw [if_neg hgrain]
  monthly := by
    have hmonthly := h.monthly
    by_cases hgrain : .monthly ∈ q.grains
    · rw [if_pos hgrain] at hmonthly ⊢
      exact hmonthly.again within_months
    · rw [if_neg hgrain]

theorem recompute_again (hrun : recompute w c today hidden hours dates facts q t = some t') :
    recompute w c today hidden hours dates facts q t' = some t' := by
  unfold recompute at hrun ⊢
  split at hrun
  · next hclean => rw [if_pos hclean]
  · next hdirty =>
    rw [if_neg hdirty]
    exact foldGrains_iff.mpr (levels_again (foldGrains_iff.mp hrun))

/-- The buckets that a run writes, and where the facts of each grain are placed. -/
def dirtyAt (c : DateArithmetic) (hours : List Instant) (dates : List Day) : Grain → List Bucket
  | .hourly => hours.map .hour
  | .daily => dates.map .day
  | .monthly => (dates.map c.monthOf).map .day

/-- Where a grain places a fact. -/
def placeAt (c : DateArithmetic) : Grain → DatedFact → Option Bucket
  | .hourly => bucketOf .hourly
  | .daily => bucketOf .daily
  | .monthly => monthBucket c

/-- The daily rows that a month is merged from. -/
def monthRows (c : DateArithmetic) (dates : List Day) (t : Rollups) (k : RowKey) : List (RowKey × RollupRow) :=
  mergedInto (monthIn c (dates.map c.monthOf)) ((t .daily).filter fun r => inMonths c (dates.map c.monthOf) r.1.1) k

/-- Every row of a month that is written is the merge of daily rows, and every merge is written. -/
theorem months_merged (hgrain : .monthly ∈ q.grains)
    (hrun : recompute w c today hidden hours dates facts q t = some t') {x : RowKey × RollupRow}
    (hx : x.1.1 ∈ dirtyAt c hours dates .monthly) : x ∈ t' .monthly ↔
      ∃ roles, addAll none ((monthRows c dates t' x.1).map fun r => cascadeRoles r.2) = some (some roles) ∧
        roles.isEmpty = false ∧ insert (rowFor roles) = some x.2 := by
  unfold recompute at hrun
  split at hrun
  · next hclean =>
    obtain ⟨rfl, rfl⟩ := hclean
    cases hx
  · have hmonthly := (foldGrains_iff.mp hrun).monthly
    rw [if_pos hgrain] at hmonthly
    exact hmonthly.merged within_months hx

/-- **The cascade is the direct fold**: after a run every bucket that it writes, at every grain, holds the
fold of its facts, a bucket without a fact holds nothing, a month is the merge of its days, and the same run
again changes nothing.  Months hold the fold where the days are kept, too: without days they are merged from no rows. -/
theorem recompute_holds (h : Prepared w c cal q today hidden hours dates facts t)
    (hrun : recompute w c today hidden hours dates facts q t = some t') :
    (∀ g ∈ q.grains, (g = .monthly → .daily ∈ q.grains) → ∀ b ∈ dirtyAt c hours dates g,
      Holds w q (placeAt c g) (q.shown hidden facts) (t' g) b ∧
      ((∀ f ∈ q.shown hidden facts, placeAt c g f ≠ some b) →
        ∀ m ∈ q.definition.measures, ∀ dims row, ((b, m.name, dims), row) ∉ t' g)) ∧
      (.monthly ∈ q.grains → ∀ x : RowKey × RollupRow, x.1.1 ∈ dirtyAt c hours dates .monthly →
        (x ∈ t' .monthly ↔
          ∃ roles, addAll none ((monthRows c dates t' x.1).map fun r => cascadeRoles r.2) = some (some roles) ∧
            roles.isEmpty = false ∧ insert (rowFor roles) = some x.2)) ∧
      recompute w c today hidden hours dates facts q t' = some t' := by
  refine ⟨fun g hg hdays b hb => ?_, fun hgrain x hx => months_merged hgrain hrun hx, recompute_again hrun⟩
  have hholds : Holds w q (placeAt c g) (q.shown hidden facts) (t' g) b := by
    unfold recompute at hrun
    split at hrun
    · next hclean =>
      obtain ⟨rfl, rfl⟩ := hclean
      cases g <;> cases hb
    · -- hours from facts, days from hours or facts, months from days: each level by its own lemma
      have hlevels := foldGrains_iff.mp hrun
      cases g with
      | hourly =>
        obtain ⟨s, hs, rfl⟩ := List.mem_map.mp hb
        exact hours_hold h hlevels hg hs
      | daily =>
        obtain ⟨d, hd, rfl⟩ := List.mem_map.mp hb
        exact days_hold h hlevels hg hd
      | monthly =>
        obtain ⟨month, hmonth, rfl⟩ := List.mem_map.mp hb
        obtain ⟨d, hd, rfl⟩ := List.mem_map.mp hmonth
        exact months_hold h hlevels (hdays rfl) hg hd
  exact ⟨hholds, fun hnone m hm dims row => hholds.gone h.exact hnone hm dims row⟩

end Run

/-! ## §9. Two runs. -/

/-- The dates of UTC, with months of 31 days: those of the first day are right. -/
def utcDates : DateArithmetic where
  midnight := utcCalendar.midnight
  monthOf := fun d => d - d % 31
  monthEnd := fun m => m + 30

/-- How many transactions there were, at every grain. -/
def countedHits : RegisteredMetric where
  id := 1
  definition := { measures := [{ name := "hits", aggregation := .count }] }
  grains := [.hourly, .daily, .monthly]

/-- Nothing is stored yet. -/
def noRollups : Rollups := fun _ => []

theorem holds_nothing {place : DatedFact → Option Bucket} {b : Bucket} (hb : place (hit "PICK" 0) ≠ some b) :
    Holds plainTexts countedHits place (countedHits.shown [] [hit "PICK" 0]) [] b := by
  intro m hm dims row
  obtain rfl := List.mem_singleton.mp hm
  have hnone := pointFrom_groupSeen_nil (w := plainTexts) countedHits place (countedHits.shown [] [hit "PICK" 0])
    (m := { name := "hits", aggregation := .count }) (by decide) (k := (b, dims)) fun f hf heq => by
      obtain rfl := List.mem_singleton.mp (List.mem_filter.mp hf).1
      obtain ⟨b', hb', he⟩ := Option.map_eq_some_iff.mp heq
      exact hb (hb'.trans (congrArg some (Prod.mk.inj he).1))
  rw [hnone]
  simp

/-- One transaction of the first hour, with nothing stored before it. -/
theorem prepared_hit :
    Prepared plainTexts utcDates utcCalendar countedHits 0 [] [0] [0] [hit "PICK" 0] noRollups where
  midnights := rfl
  monthStart := fun d => by
    show d - d % 31 ≤ d
    have := Int.emod_nonneg d (show (31 : ℤ) ≠ 0 by decide)
    exact Int.sub_le_self d this
  monthStop := fun d => by
    have hstop : ∀ x : ℤ, x ≤ x - x % 31 + 30 := fun x => by omega
    exact hstop d
  monthsGrow := fun m m' hm => Int.add_le_add_right hm 30
  dated := fun f hf => by
    obtain rfl := List.mem_singleton.mp hf
    rfl
  exact := by
    refine ⟨by decide, fun m hm => ?_, fun m hm row hrow => ?_, fun m hm => ?_, fun m hm rows hrows => ?_⟩
    all_goals obtain rfl := List.mem_singleton.mp hm
    · decide
    · obtain ⟨f, hf, rfl⟩ := List.mem_map.mp hrow
      obtain rfl := List.mem_singleton.mp (List.mem_filter.mp hf).1
      rfl
    · exact ⟨nofun, nofun⟩
    · refine ⟨nofun, nofun, nofun, nofun, fun n hn => ?_, rfl⟩
      obtain rfl := Option.some.inj hn
      have hlen : rows.length ≤ 1 := hrows.length_le
      have hcount : counted (seenAll plainTexts countedHits.definition { name := "hits", aggregation := .count } rows) ≤
          1 := by
        refine le_trans List.countP_le_length ?_
        unfold seenAll
        rw [List.length_map]
        exact hlen
      exact lt_of_le_of_lt hcount (by norm_num)
  unique := fun g => List.nodup_nil
  freshHours := fun s _ hs => holds_nothing fun h => hs (by
    obtain rfl := Bucket.hour.inj (Option.some.inj h)
    exact List.mem_singleton.mpr rfl)
  freshDays := fun d hd _ => holds_nothing fun h => hd (by
    obtain rfl := Bucket.day.inj (Option.some.inj h)
    exact List.mem_singleton.mpr rfl)

/-- The run of that transaction. -/
theorem recompute_holds_hit : ∃ t', recompute plainTexts utcDates 0 [] [0] [0] [hit "PICK" 0] countedHits noRollups = some t' ∧
    Holds plainTexts countedHits (bucketOf .daily) (countedHits.shown [] [hit "PICK" 0]) (t' .daily) (.day 0) := by
  have hsome : (recompute plainTexts utcDates 0 [] [0] [0] [hit "PICK" 0] countedHits noRollups).isSome := by
    decide +kernel
  obtain ⟨t', ht'⟩ := Option.isSome_iff_exists.mp hsome
  refine ⟨t', ht', ?_⟩
  exact ((recompute_holds prepared_hit ht').1 .daily (by decide) (fun h => absurd h (by decide)) (.day 0) (by decide)).1

/-! ## §10. A column rounds at every level. -/

/-- The row that the fold of one group writes. -/
def RegisteredMetric.WritesRow (w : PythonTexts) (q : RegisteredMetric) (place : DatedFact → Option Bucket)
    (facts : List DatedFact) (b : Bucket) (name : String) (dims : List (Option String)) (row : RollupRow) : Prop :=
  ∃ out roles, foldRows w q.definition (groupRows (q.groupBy w place) facts (b, dims)) = some out ∧
    out name = some roles ∧ roles.isEmpty = false ∧ insert (rowFor roles) = some row

/-- The days of every zone of whole hours hold what the fold of their facts writes. -/
def DaysWriteFold : Prop :=
  ∀ (w : PythonTexts) (c : DateArithmetic) (cal : Calendar) (q : RegisteredMetric) (today : Day)
    (hours : List Instant) (dates : List Day) (facts : List DatedFact) (t' : Rollups),
    c.midnight = cal.midnight → (∀ d, hourOf (cal.midnight d) = cal.midnight d) →
    (q.definition.measures.map Measure.name).Nodup → .daily ∈ q.grains →
    (∀ f ∈ facts, f.Dated cal) → (∀ f ∈ facts, ∃ h ∈ hours, bucketOf .hourly f = some (.hour h)) →
    recompute w c today [] hours dates facts q noRollups = some t' →
    ∀ d ∈ dates, ∀ name ∈ q.definition.measures.map Measure.name, ∀ dims row,
      ((.day d, name, dims), row) ∈ t' .daily ↔ q.WritesRow w (bucketOf .daily) facts (.day d) name dims row

/-- A fact of the first day with a quantity. -/
def quantityFact (x : ℚ) (t : Instant) : DatedFact where
  row := { quantityRow x with eventTime := some t }
  businessDate := some 0

/-- The spread of the quantity, by hours and days. -/
def quantityStats : RegisteredMetric where
  id := 2
  definition := ofQuantity .stats
  grains := [.hourly, .daily]

/-- 0.0007 in each of two hours: its square is 0.00000049. -/
def smallQuantities : List DatedFact := [quantityFact (7 / 10 ^ 4) 0, quantityFact (7 / 10 ^ 4) oneHour]

theorem utc_wholeHours (d : Day) : hourOf (utcCalendar.midnight d) = utcCalendar.midnight d := by
  have hzero : ∀ x : ℤ, x * (24 * 3600000000) % 3600000000 = 0 := fun x => by omega
  show d * (24 * oneHour) - d * (24 * oneHour) % oneHour = d * (24 * oneHour)
  rw [show d * (24 * oneHour) % oneHour = 0 from hzero d]
  exact Int.sub_zero _

/-- Each hour rounds its square away, and the day adds zeros; the fold of the day keeps a millionth. -/
theorem squares_rounded : ¬DaysWriteFold := by
  intro h
  have hsome : (recompute plainTexts utcDates 0 [] [0, oneHour] [0] smallQuantities quantityStats noRollups).isSome := by
    decide +kernel
  obtain ⟨t', ht'⟩ := Option.isSome_iff_exists.mp hsome
  have hrun : (recompute plainTexts utcDates 0 [] [0, oneHour] [0] smallQuantities quantityStats noRollups).map
      (fun t => (t .daily).map fun r => r.2.sumSq) = some [some Number.zero] := by
    decide +kernel
  have hzeros : (t' .daily).map (fun r => r.2.sumSq) = [some Number.zero] := by
    rw [ht'] at hrun
    exact Option.some.inj hrun
  have hmember : ∀ f ∈ smallQuantities, f = quantityFact (7 / 10 ^ 4) 0 ∨ f = quantityFact (7 / 10 ^ 4) oneHour := by
    intro f hf
    simpa [smallQuantities] using hf
  have hdays := h plainTexts utcDates utcCalendar quantityStats 0 [0, oneHour] [0] smallQuantities t' rfl
    utc_wholeHours (by decide) (by decide)
    (fun f hf => by obtain rfl | rfl := hmember f hf <;> rfl)
    (fun f hf => by
      obtain rfl | rfl := hmember f hf
      · exact ⟨0, by decide, rfl⟩
      · exact ⟨oneHour, by decide, rfl⟩)
    ht' 0 (by decide) "quantity" (by decide) (List.replicate dimensionSlots none)
  have hfold : ((foldRows plainTexts quantityStats.definition (groupRows (quantityStats.groupBy plainTexts
      (bucketOf .daily)) smallQuantities (.day 0, List.replicate dimensionSlots none))).bind fun out =>
      (out "quantity").bind fun roles => if roles.isEmpty then none else
        (insert (rowFor roles)).map RollupRow.sumSq) = some (some (.finite (1 / 10 ^ 6))) := by
    decide +kernel
  -- the fold of the day writes a row with the sum 0.000001, and every row of the table has zero
  obtain ⟨out, hout, hrest⟩ := Option.bind_eq_some_iff.mp hfold
  obtain ⟨roles, hroles, hrest⟩ := Option.bind_eq_some_iff.mp hrest
  split at hrest
  · cases hrest
  · next hempty =>
    obtain ⟨row, hrow, hsum⟩ := Option.map_eq_some_iff.mp hrest
    have hmem := (hdays row).mpr ⟨out, roles, hout, hroles, by simpa using hempty, hrow⟩
    have hzero : row.sumSq ∈ [some Number.zero] := hzeros ▸ List.mem_map_of_mem hmem
    rw [hsum] at hzero
    exact absurd hzero (by decide +kernel)

end RagPipeline.Analytics
