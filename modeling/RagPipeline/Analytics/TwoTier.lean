/-
  RagPipeline.Analytics.TwoTier — what a two-tier read answers.

  The plan splits the facts of the window by their buckets: a bucket is served whole by the rollups or
  read live whole (`plan_splits`).  A stored bucket is the tally of what its facts bring, whatever
  dimensions the request drops (`rollupPoints_eq`); a live bucket is the fold of its facts (`live_eq`).  The one
  difference is that the live tier reads the hidden facts too:

    * `series_at`             — the answer, key by key;
    * `series_eq_direct_iff`  — it is the metric exactly when the hidden facts change no live point.
-/
import RagPipeline.Analytics.Reads
import RagPipeline.Lib.Groups
import Mathlib.Data.List.ReduceOption

namespace RagPipeline.Analytics

open RagPipeline.Stage2 RagPipeline.Lib

/-! ## §1. Hours and dates. -/

theorem hourOf_le (t : Instant) : hourOf t ≤ t := by
  have h : ∀ t : Int, t - t % 3600000000 ≤ t := by intro t; omega
  exact h t

theorem lt_hourOf_add (t : Instant) : t < hourOf t + oneHour := by
  have h : ∀ t : Int, t < t - t % 3600000000 + 3600000000 := by intro t; omega
  exact h t

/-- An instant is past a whole hour exactly when its hour is. -/
theorem hourOf_le_iff (s t : Instant) : hourOf s ≤ t ↔ hourOf s ≤ hourOf t := by
  have h : ∀ s t : Int, s - s % 3600000000 ≤ t ↔ s - s % 3600000000 ≤ t - t % 3600000000 := by
    intro s t
    omega
  exact h s t

theorem hourOf_add_le_iff (s t : Instant) : hourOf t + oneHour ≤ hourOf s ↔ hourOf t < hourOf s := by
  have h : ∀ s t : Int, t - t % 3600000000 + 3600000000 ≤ s - s % 3600000000 ↔
      t - t % 3600000000 < s - s % 3600000000 := by
    intro s t
    omega
  exact h s t

/-- `_ceil_hour` is a whole hour, not before the instant. -/
theorem ceilHour_spec (t : Instant) : t ≤ ceilHour t ∧ hourOf (ceilHour t) = ceilHour t := by
  have h : ∀ t : Int, t ≤ (if t - t % 3600000000 = t then t else t - t % 3600000000 + 3600000000) ∧
      (if t - t % 3600000000 = t then t else t - t % 3600000000 + 3600000000) -
          (if t - t % 3600000000 = t then t else t - t % 3600000000 + 3600000000) % 3600000000 =
        (if t - t % 3600000000 = t then t else t - t % 3600000000 + 3600000000) := by
    intro t
    split
    · omega
    · omega
  exact h t

theorem hourOf_hourOf (t : Instant) : hourOf (hourOf t) = hourOf t := by
  have h : ∀ t : Int, (t - t % 3600000000) - (t - t % 3600000000) % 3600000000 =
      t - t % 3600000000 := by
    intro t
    omega
  exact h t

section Calendar

variable (cal : Calendar)

theorem lt_midnight_iff (t : Instant) (d : Day) : t < cal.midnight d ↔ cal.dateOf t < d := by
  rw [← not_le, cal.midnight_le_iff, not_le]

theorem midnight_mono {d e : Day} (h : d ≤ e) : cal.midnight d ≤ cal.midnight e := by
  rw [cal.midnight_le_iff]
  exact h.trans ((cal.midnight_le_iff _ e).mp le_rfl)

end Calendar

/-! ## §2. The plan. -/

/-- How a plan divides a window. -/
structure ReadPlan.Splits (plan : ReadPlan) (cal : Calendar) (grain : Grain) (start stop : Instant)
    (watermark : Option Instant) : Prop where
  /-- what is served is settled -/
  settled : ∀ b : Bucket, b.InTableOf grain → plan.serves cal b = true → ∃ t, watermark = some t ∧ b.stop cal ≤ t
  /-- what is served lies in the window -/
  inside : ∀ f : DatedFact, f.Dated cal → ∀ b, bucketOf grain f = some b → plan.serves cal b = true →
    f.inSpan start stop = true
  /-- in the window, what is not served is read live -/
  live : ∀ f : DatedFact, f.Dated cal → ∀ b, bucketOf grain f = some b → f.inSpan start stop = true →
    ((plan.live.any fun s => f.inSpan s.1 s.2) = true ↔ plan.serves cal b = false)
  /-- nothing outside the window is read live -/
  within : ∀ f : DatedFact, (plan.live.any fun s => f.inSpan s.1 s.2) = true → f.inSpan start stop = true

/-- A plan that reads the whole window live. -/
theorem splits_live (cal : Calendar) (grain : Grain) (start stop : Instant)
    (watermark : Option Instant) :
    ({ live := [(start, stop)] } : ReadPlan).Splits cal grain start stop watermark := by
  have hno : ∀ b, ({ live := [(start, stop)] } : ReadPlan).serves cal b = false := by
    intro b
    cases b <;> rfl
  constructor
  · intro b _ hb
    rw [hno b] at hb
    exact Bool.noConfusion hb
  · intro f _ b _ hb
    rw [hno b] at hb
    exact Bool.noConfusion hb
  · intro f _ b _ hin
    simp [hno b, hin]
  · intro f hf
    simpa using hf

theorem inSpan_iff {f : DatedFact} {lo hi : Instant} :
    f.inSpan lo hi = true ↔ ∃ t, f.row.eventTime = some t ∧ lo ≤ t ∧ t < hi := by
  unfold DatedFact.inSpan
  cases f.row.eventTime <;> simp

/-- The spans beside a range inside the window. -/
theorem edges_iff {f : DatedFact} {start stop lo hi : Instant} (hlo : start ≤ lo) (hhi : hi ≤ stop)
    (hle : lo ≤ hi) :
    ((edges start stop lo hi).any fun s => f.inSpan s.1 s.2) = true ↔
      ∃ t, f.row.eventTime = some t ∧ start ≤ t ∧ t < stop ∧ ¬(lo ≤ t ∧ t < hi) := by
  have harith : ∀ t start stop lo hi : Int, start ≤ lo → hi ≤ stop → lo ≤ hi →
      (((start < lo ∧ start ≤ t ∧ t < lo) ∨ (hi < stop ∧ hi ≤ t ∧ t < stop)) ↔
        start ≤ t ∧ t < stop ∧ ¬(lo ≤ t ∧ t < hi)) := by
    intro t start stop lo hi
    omega
  unfold edges DatedFact.inSpan
  cases f.row.eventTime with
  | none => split <;> split <;> simp
  | some t =>
    simp only [Option.some.injEq, exists_eq_left', ← harith t start stop lo hi hlo hhi hle]
    by_cases h₁ : start < lo
    · by_cases h₂ : hi < stop
      · simp [h₁, h₂]
      · simp [h₁, h₂]
    · by_cases h₂ : hi < stop
      · simp [h₁, h₂]
      · simp [h₁, h₂]

theorem mem_serves_hour {cal : Calendar} {live : List (Instant × Instant)} {lo hi s : Instant} :
    ({ hours := some (lo, hi), live := live } : ReadPlan).serves cal (.hour s) = true ↔
      lo ≤ s ∧ s < hi := by
  simp [ReadPlan.serves]

theorem mem_serves_day {cal : Calendar} {live : List (Instant × Instant)} {first last d : Day} :
    ({ dates := some (first, last), live := live } : ReadPlan).serves cal (.day d) = true ↔
      first ≤ d ∧ d ≤ last := by
  simp [ReadPlan.serves]

/-- The hourly plan. -/
theorem splits_hours (cal : Calendar) {start stop watermark lo hi : Instant} (hlo : start ≤ lo)
    (hhi : hi ≤ min stop watermark) (hlt : lo < hi) (hwlo : hourOf lo = lo) (hwhi : hourOf hi = hi) :
    ({ hours := some (lo, hi), live := edges start stop lo hi } : ReadPlan).Splits cal .hourly start
      stop (some watermark) := by
  have hstop : hi ≤ stop := hhi.trans (min_le_left _ _)
  have hwater : hi ≤ watermark := hhi.trans (min_le_right _ _)
  -- an instant is in the range exactly when its hour is
  have hrange : ∀ t, (lo ≤ hourOf t ∧ hourOf t < hi) ↔ (lo ≤ t ∧ t < hi) := by
    intro t
    rw [← hwlo, ← hwhi, ← hourOf_le_iff, ← not_le, ← hourOf_le_iff, not_le]
  have hserves : ∀ {f : DatedFact} {b : Bucket}, bucketOf .hourly f = some b →
      ∃ t, f.row.eventTime = some t ∧
        (({ hours := some (lo, hi), live := edges start stop lo hi } : ReadPlan).serves cal b = true ↔
          lo ≤ t ∧ t < hi) := by
    intro f b hb
    obtain ⟨t, ht, rfl⟩ := Option.map_eq_some_iff.mp hb
    exact ⟨t, ht, mem_serves_hour.trans (hrange t)⟩
  constructor
  · intro b htable hb
    refine ⟨watermark, rfl, ?_⟩
    cases b with
    | hour s =>
      have hs := (mem_serves_hour.mp hb).2
      have hend : hourOf s + oneHour ≤ hourOf hi := by
        rw [hourOf_add_le_iff, hwhi]
        exact (hourOf_le s).trans_lt hs
      exact (hend.trans_eq hwhi).trans hwater
    | day d => exact absurd rfl htable
  · intro f _ b hb hserved
    obtain ⟨t, ht, hiff⟩ := hserves hb
    obtain ⟨h₁, h₂⟩ := hiff.mp hserved
    exact inSpan_iff.mpr ⟨t, ht, hlo.trans h₁, h₂.trans_le hstop⟩
  · intro f _ b hb hin
    obtain ⟨t, ht, hiff⟩ := hserves hb
    obtain ⟨t', ht', h₁, h₂⟩ := inSpan_iff.mp hin
    obtain rfl : t = t' := Option.some.inj (ht.symm.trans ht')
    rw [edges_iff hlo hstop hlt.le, ← Bool.not_eq_true, hiff]
    simp [ht, h₁, h₂]
  · intro f hf
    obtain ⟨t, ht, h₁, h₂, -⟩ := (edges_iff hlo hstop hlt.le).mp hf
    exact inSpan_iff.mpr ⟨t, ht, h₁, h₂⟩

/-- The daily plan. -/
theorem splits_dates (cal : Calendar) {start stop watermark : Instant} {first last : Day}
    (hlo : start ≤ cal.midnight first) (hhi : cal.midnight (last + 1) ≤ min stop watermark)
    (hle : first ≤ last) :
    ({ dates := some (first, last)
       live := edges start stop (cal.midnight first) (cal.midnight (last + 1)) } : ReadPlan).Splits cal
      .daily start stop (some watermark) := by
  have hstop : cal.midnight (last + 1) ≤ stop := hhi.trans (min_le_left _ _)
  have hwater : cal.midnight (last + 1) ≤ watermark := hhi.trans (min_le_right _ _)
  have hsucc : ∀ a b : Int, a ≤ b → a ≤ b + 1 := by intro a b; omega
  have hspan : cal.midnight first ≤ cal.midnight (last + 1) := midnight_mono cal (hsucc _ _ hle)
  have hlast : ∀ a b : Int, a < b + 1 ↔ a ≤ b := by intro a b; omega
  -- a fact is filed under its local date, so its bucket is served exactly between the two midnights
  have hserves : ∀ {f : DatedFact} {b : Bucket}, f.Dated cal → bucketOf .daily f = some b →
      ∃ t, f.row.eventTime = some t ∧
        (({ dates := some (first, last)
            live := edges start stop (cal.midnight first) (cal.midnight (last + 1)) } :
            ReadPlan).serves cal b = true ↔
          cal.midnight first ≤ t ∧ t < cal.midnight (last + 1)) := by
    intro f b hdated hb
    obtain ⟨d, hd, rfl⟩ := Option.map_eq_some_iff.mp hb
    rw [hdated] at hd
    obtain ⟨t, ht, rfl⟩ := Option.map_eq_some_iff.mp hd
    refine ⟨t, ht, ?_⟩
    rw [mem_serves_day, cal.midnight_le_iff, lt_midnight_iff]
    exact and_congr_right fun _ => (hlast _ _).symm
  constructor
  · intro b htable hb
    refine ⟨watermark, rfl, ?_⟩
    cases b with
    | hour s => exact absurd htable (by simp [Bucket.InTableOf])
    | day d =>
      have hd : d ≤ last := (mem_serves_day.mp hb).2
      have hadd : ∀ a b : Int, a ≤ b → a + 1 ≤ b + 1 := by intro a b; omega
      exact (midnight_mono cal (hadd _ _ hd)).trans hwater
  · intro f hdated b hb hserved
    obtain ⟨t, ht, hiff⟩ := hserves hdated hb
    obtain ⟨h₁, h₂⟩ := hiff.mp hserved
    exact inSpan_iff.mpr ⟨t, ht, hlo.trans h₁, h₂.trans_le hstop⟩
  · intro f hdated b hb hin
    obtain ⟨t, ht, hiff⟩ := hserves hdated hb
    obtain ⟨t', ht', h₁, h₂⟩ := inSpan_iff.mp hin
    obtain rfl : t = t' := Option.some.inj (ht.symm.trans ht')
    rw [edges_iff hlo hstop hspan, ← Bool.not_eq_true, hiff]
    simp [ht, h₁, h₂]
  · intro f hf
    obtain ⟨t, ht, h₁, h₂, -⟩ := (edges_iff hlo hstop hspan).mp hf
    exact inSpan_iff.mpr ⟨t, ht, h₁, h₂⟩

/-- The first whole day of a window starts in it. -/
theorem le_midnight_first (cal : Calendar) (start : Instant) :
    start ≤ cal.midnight (if start ≤ cal.midnight (cal.dateOf start) then cal.dateOf start
      else cal.dateOf start + 1) := by
  split
  · assumption
  · have hsucc : ∀ a : Int, a < a + 1 := by intro a; omega
    exact ((lt_midnight_iff cal _ _).mpr (hsucc _)).le

/-- The last whole day before an instant ends by then. -/
theorem midnight_last_le (cal : Calendar) (settled : Instant) :
    cal.midnight ((if cal.midnight (cal.dateOf settled + 1) ≤ settled then cal.dateOf settled
      else cal.dateOf settled - 1) + 1) ≤ settled := by
  split
  · assumption
  · have hpred : ∀ a : Int, a - 1 + 1 = a := by intro a; omega
    rw [hpred, cal.midnight_le_iff]

/-- A daily plan, by its first whole day and its last. -/
theorem planRead_daily (cal : Calendar) (start stop watermark : Instant) :
    ∃ first last, start ≤ cal.midnight first ∧ cal.midnight (last + 1) ≤ min stop watermark ∧
      planRead cal .daily start stop (some watermark) =
        if last < first then { live := [(start, stop)] }
        else
          { dates := some (first, last)
            live := edges start stop (cal.midnight first) (cal.midnight (last + 1)) } :=
  ⟨_, _, le_midnight_first cal start, midnight_last_le cal (min stop watermark), rfl⟩

/-- **The plan divides the window by buckets**, but for a monthly plan that reads rollups. -/
theorem plan_splits (cal : Calendar) {grain : Grain} (start stop : Instant) (watermark : Option Instant)
    (hg : grain = .monthly → (planRead cal grain start stop watermark).hours = none) :
    (planRead cal grain start stop watermark).Splits cal grain start stop watermark := by
  cases watermark with
  | none => exact splits_live cal grain start stop none
  | some watermark =>
    cases grain with
    | monthly =>
      -- a monthly plan that reads no rollup reads everything live
      have hnone := hg rfl
      unfold planRead at hnone ⊢
      dsimp only at hnone ⊢
      split
      · exact splits_live cal .monthly start stop _
      · next hlt =>
        rw [if_neg hlt] at hnone
        exact absurd hnone (by simp)
    | hourly =>
      unfold planRead
      dsimp only
      split
      · exact splits_live cal .hourly start stop _
      · next hlt =>
        exact splits_hours cal (ceilHour_spec start).1 (hourOf_le _) (not_le.mp hlt)
          (ceilHour_spec start).2 (hourOf_hourOf _)
    | daily =>
      obtain ⟨first, last, hfirst, hlast, hplan⟩ := planRead_daily cal start stop watermark
      rw [hplan]
      split
      · exact splits_live cal .daily start stop _
      · next hle => exact splits_dates cal hfirst hlast (not_lt.mp hle)

/-! ## §3. Groups. -/

section Groups

variable (w : PythonTexts)

variable {κ : Type} [DecidableEq κ] {keyOf : DatedFact → Option κ} {facts : List DatedFact}

/-- A fact of a group. -/
theorem mem_keys {k : κ} : k ∈ (facts.filterMap keyOf).dedup ↔ ∃ f ∈ facts, keyOf f = some k := by
  rw [List.mem_dedup, List.mem_filterMap]

/-- A key that no fact has is the key of no row. -/
theorem groupRows_of_not_mem {k : κ} (h : k ∉ (facts.filterMap keyOf).dedup) :
    groupRows keyOf facts k = [] := by
  unfold groupRows
  rw [List.map_eq_nil_iff, List.filter_eq_nil_iff]
  intro f hf heq
  exact h (mem_keys.mpr ⟨f, hf, of_decide_eq_true heq⟩)

end Groups

/-! ## §4. Points. -/

section Points

variable (w : PythonTexts) (q : Request) (grain : Grain)

/-- What a folded group is in the answer. -/
def Request.valueOf (out : Buckets) : Option Roles :=
  (out q.measure.name).bind fun roles => if roles.isEmpty then none else addRoles {} roles

/-- The fold of a group does not raise. -/
def Foldable (facts : List DatedFact) (k : Key) : Prop :=
  ∃ out, foldRows w q.definition (groupRows (q.keyOf w grain) facts k) = some out ∧
    (q.pointOf (k, out)).isSome

/-- The point of a key. -/
def valueAt (facts : List DatedFact) (k : Key) : Option Roles :=
  (foldRows w q.definition (groupRows (q.keyOf w grain) facts k)).bind q.valueOf

variable {q} in
theorem pointOf_eq {k : Key} {out : Buckets} {o : Option (Key × Roles)}
    (h : q.pointOf (k, out) = some o) : o = (q.valueOf out).map (Prod.mk k) := by
  unfold Request.pointOf at h
  unfold Request.valueOf
  dsimp only at h
  cases hm : out q.measure.name with
  | none =>
    rw [hm] at h
    obtain rfl := Option.some.inj h
    rfl
  | some roles =>
    rw [hm] at h
    dsimp only at h
    rw [Option.bind_some]
    split at h
    · next he =>
      obtain rfl := Option.some.inj h
      rw [if_pos he]
      rfl
    · next he =>
      obtain ⟨r, hr, rfl⟩ := Option.map_eq_some_iff.mp h
      rw [if_neg he, hr]
      rfl

/-- A group without a row is no data. -/
theorem valueOf_empty : q.valueOf q.definition.empty = none := by
  unfold Request.valueOf
  rw [empty_at q.names q.declared, Option.bind_some, if_pos]
  cases q.measure.aggregation <;> rfl

theorem foldable_empty {facts : List DatedFact} {k : Key}
    (h : k ∉ (facts.filterMap (q.keyOf w grain)).dedup) : Foldable w q grain facts k := by
  refine ⟨q.definition.empty, by rw [groupRows_of_not_mem h]; rfl, ?_⟩
  have he : q.measure.aggregation.emptyRoles.isEmpty = true := by
    cases q.measure.aggregation <;> rfl
  unfold Request.pointOf
  simp only [empty_at q.names q.declared, he, if_true, Option.isSome_some]

/-- The points of some facts, key by key. -/
theorem foldPoints_spec {facts : List DatedFact} {items : List (Key × Roles)}
    (h : foldPoints w q grain facts = some items) :
    (∀ k, Foldable w q grain facts k) ∧ (items.map Prod.fst).Nodup ∧
      ∀ p, p ∈ items ↔ valueAt w q grain facts p.1 = some p.2 := by
  obtain ⟨folded, hfold, hrest⟩ := Option.bind_eq_some_iff.mp h
  obtain ⟨opts, hopts, rfl⟩ := Option.map_eq_some_iff.mp hrest
  obtain ⟨hkeys, hall⟩ := (mapM_pair _ _).mp hfold
  obtain ⟨rfl, hsome⟩ := mapM_some
    (g := fun p : Key × Buckets => (q.valueOf p.2).map (Prod.mk p.1)) (fun _ _ hp => pointOf_eq hp)
    folded hopts
  -- the group of a key some fact has
  have hgroup : ∀ k, k ∈ (facts.filterMap (q.keyOf w grain)).dedup → ∃ out, (k, out) ∈ folded := by
    intro k hk
    rw [← hkeys] at hk
    obtain ⟨p, hp, rfl⟩ := List.mem_map.mp hk
    exact ⟨p.2, hp⟩
  have hitems : (folded.map fun p => (q.valueOf p.2).map (Prod.mk p.1)).reduceOption =
      folded.filterMap fun p => (q.valueOf p.2).map (Prod.mk p.1) := by
    rw [List.reduceOption, List.filterMap_map]
    rfl
  rw [hitems]
  refine ⟨?_, ?_, ?_⟩
  · intro k
    by_cases hk : k ∈ (facts.filterMap (q.keyOf w grain)).dedup
    · obtain ⟨out, hout⟩ := hgroup k hk
      exact ⟨out, hall _ hout, hsome _ hout⟩
    · exact foldable_empty w q grain hk
  · have hsub : ((folded.filterMap fun p => (q.valueOf p.2).map (Prod.mk p.1)).map Prod.fst).Sublist
        (folded.map Prod.fst) := by
      clear hkeys hall hsome hfold hopts hgroup hitems hrest h
      induction folded with
      | nil => exact List.Sublist.slnil
      | cons p folded ih =>
        cases hv : q.valueOf p.2 with
        | none => simpa [hv] using ih.cons p.1
        | some r => simpa [hv] using ih.cons_cons p.1
    exact (hkeys ▸ List.nodup_dedup _ : (folded.map Prod.fst).Nodup).sublist hsub
  · intro p
    rw [List.mem_filterMap]
    constructor
    · rintro ⟨p', hp', heq⟩
      obtain ⟨r, hr, rfl⟩ := Option.map_eq_some_iff.mp heq
      unfold valueAt
      rw [hall p' hp']
      exact hr
    · intro hv
      obtain ⟨out, hout, hr⟩ := Option.bind_eq_some_iff.mp hv
      have hk : p.1 ∈ (facts.filterMap (q.keyOf w grain)).dedup := by
        by_contra hk
        rw [groupRows_of_not_mem hk] at hout
        obtain rfl : q.definition.empty = out := Option.some.inj hout
        rw [valueOf_empty] at hr
        exact absurd hr (by simp)
      obtain ⟨out', hout'⟩ := hgroup p.1 hk
      obtain rfl : out' = out := Option.some.inj ((hall _ hout').symm.trans hout)
      exact ⟨_, hout', by rw [hr]; rfl⟩

/-- An answer reads off its points. -/
theorem pointsOf_eq {items : List (Key × Roles)} (hn : (items.map Prod.fst).Nodup) {p : Key × Roles} :
    p ∈ items ↔ pointsOf items p.1 = some p.2 := by
  unfold pointsOf
  constructor
  · intro hp
    have hfind : items.find? (fun p' => decide (p'.1 = p.1)) = some p := by
      refine find?_only hp (decide_eq_true rfl) fun p' hp' hkey => ?_
      exact List.inj_on_of_nodup_map hn hp' hp (of_decide_eq_true hkey)
    rw [hfind]
    rfl
  · intro h
    obtain ⟨p', hp', hr⟩ := Option.map_eq_some_iff.mp h
    have hkey : p'.1 = p.1 := of_decide_eq_true (List.find?_some hp' :)
    obtain rfl : p' = p := Prod.ext hkey hr
    exact List.mem_of_find?_eq_some hp'

/-- **The answer some facts give, key by key.** -/
theorem pointsOf_foldPoints {facts : List DatedFact} {items : List (Key × Roles)}
    (h : foldPoints w q grain facts = some items) (k : Key) :
    pointsOf items k = valueAt w q grain facts k := by
  obtain ⟨-, hn, hmem⟩ := foldPoints_spec w q grain h
  apply Option.ext
  intro r
  exact (pointsOf_eq (p := (k, r)) hn).symm.trans (hmem (k, r))

end Points

/-! ## §5. Adding points. -/

/-- Adding buckets to one point. -/
def addAll (o : Option Roles) (bs : List Roles) : Option (Option Roles) :=
  bs.foldlM (fun o b => (addRoles (o.getD {}) b).map some) o

/-- Adding points one after the other adds, at each key, the buckets of this key. -/
theorem addPoints_exists (l : List (Key × Roles)) (points : Points)
    (h : ∀ k, ∃ o, addAll (points k) ((l.filter fun p => decide (p.1 = k)).map Prod.snd) = some o) :
    ∃ points', l.foldlM addPoint points = some points' ∧
      ∀ k, addAll (points k) ((l.filter fun p => decide (p.1 = k)).map Prod.snd) =
        some (points' k) := by
  induction l generalizing points with
  | nil => exact ⟨points, rfl, fun k => rfl⟩
  | cons p l ih =>
    have hhead : ∃ b, addRoles ((points p.1).getD {}) p.2 = some b := by
      obtain ⟨o, ho⟩ := h p.1
      rw [List.filter_cons_of_pos (by simp), List.map_cons, addAll, List.foldlM_cons] at ho
      obtain ⟨o', ho', -⟩ := Option.bind_eq_some_iff.mp ho
      obtain ⟨b, hb, -⟩ := Option.map_eq_some_iff.mp ho'
      exact ⟨b, hb⟩
    obtain ⟨b, hb⟩ := hhead
    -- the first point is added at its own key, and no other key notices
    have hstep : ∀ k, addAll (points k) (((p :: l).filter fun p' => decide (p'.1 = k)).map Prod.snd) =
        addAll (Function.update points p.1 (some b) k)
          ((l.filter fun p' => decide (p'.1 = k)).map Prod.snd) := by
      intro k
      by_cases hk : p.1 = k
      · subst hk
        rw [List.filter_cons_of_pos (by simp), List.map_cons, addAll, List.foldlM_cons, hb,
          Function.update_self]
        rfl
      · rw [List.filter_cons_of_neg (by simpa using hk), Function.update_of_ne (Ne.symm hk)]
    obtain ⟨points', hrest, hat⟩ := ih (Function.update points p.1 (some b)) fun k => by
      obtain ⟨o, ho⟩ := h k
      exact ⟨o, (hstep k).symm.trans ho⟩
    refine ⟨points', ?_, fun k => (hstep k).trans (hat k)⟩
    rw [List.foldlM_cons, addPoint, hb]
    exact hrest

/-- What is added to nothing twice is what is added once. -/
theorem addRoles_idem {a b : Roles} (h : addRoles {} a = some b) : addRoles {} b = some b := by
  have hsum : ∀ {x y : Option Number}, addSums none x = some y → addSums none y = some y := by
    intro x y hxy
    rw [addSums_none] at hxy ⊢
    rcases onRole_eq_some hxy with ⟨-, rfl⟩ | ⟨u, v, -, hv, rfl⟩
    · rfl
    · show (Number.add decimalContext Number.zero v).map some = some (some v)
      rw [Number.zero_add_of_add hv]
      rfl
  have hextreme : ∀ (takes : Number → Number → Option Bool) (y : Option (Option Number)),
      addExtremes takes none y = some y := by
    intro takes y
    cases y with
    | none => rfl
    | some z => cases z <;> rfl
  have hlatest : ∀ y : Option (Option Reading), addLatest none y = y := by
    intro y
    cases y with
    | none => rfl
    | some z => cases z <;> rfl
  unfold addRoles at h
  simp only [hextreme, Option.bind_eq_bind, Option.bind_eq_some_iff, Option.pure_def,
    Option.some.injEq] at h
  obtain ⟨s, hs, sq, hsq, mn, rfl, mx, rfl, rfl⟩ := h
  unfold addRoles
  simp only [hsum hs, hsum hsq, hextreme, addCounts_none, addBands_none, addSketches_none, hlatest,
    Option.bind_eq_bind, Option.bind_some, Option.pure_def]

/-- **Adding the points of some facts to an answer that has none of their keys.** -/
theorem addPoints_fresh (w : PythonTexts) (q : Request) (grain : Grain) {facts : List DatedFact}
    {items : List (Key × Roles)} (h : foldPoints w q grain facts = some items) (points : Points)
    (hfree : ∀ k, (valueAt w q grain facts k).isSome → points k = none) :
    ∃ points', items.foldlM addPoint points = some points' ∧
      ∀ k, points' k = (valueAt w q grain facts k).or (points k) := by
  obtain ⟨-, hn, hmem⟩ := foldPoints_spec w q grain h
  have hat : ∀ k, addAll (points k) ((items.filter fun p => decide (p.1 = k)).map Prod.snd) =
      some ((valueAt w q grain facts k).or (points k)) := by
    intro k
    cases hv : valueAt w q grain facts k with
    | none =>
      have hnil : (items.filter fun p => decide (p.1 = k)) = [] := by
        rw [List.filter_eq_nil_iff]
        intro p hp heq
        have hval := (hmem p).mp hp
        rw [of_decide_eq_true heq, hv] at hval
        exact absurd hval (by simp)
      rw [hnil]
      rfl
    | some r =>
      -- the fold has one item for the key, added to an absent point
      have hone : (items.filter fun p => decide (p.1 = k)) = [(k, r)] :=
        filter_key Prod.fst items hn ((hmem (k, r)).mpr hv)
      have hfold : ∃ roles, addRoles {} roles = some r := by
        obtain ⟨out, -, hr⟩ := Option.bind_eq_some_iff.mp hv
        obtain ⟨roles, -, hr⟩ := Option.bind_eq_some_iff.mp hr
        split at hr
        · simp at hr
        · exact ⟨roles, hr⟩
      obtain ⟨roles, hroles⟩ := hfold
      rw [hone, hfree k (by rw [hv]; rfl)]
      show (addRoles {} r).map some >>= _ = _
      rw [addRoles_idem hroles]
      rfl
  obtain ⟨points', hfold, hall⟩ := addPoints_exists items points fun k => ⟨_, hat k⟩
  exact ⟨points', hfold, fun k => (Option.some.inj ((hat k).symm.trans (hall k))).symm⟩

/-! ## §6. A stored bucket. -/

section Stored

variable (w : PythonTexts)

/-- Leaving out the buckets that are empty changes no tally. -/
theorem tally_flatten_filter {a : Aggregation} (sss : List (List Seen))
    (hs : ∀ ss ∈ sss, ∀ s ∈ ss, s.Suits a) (xs : List Seen) :
    tally w a.emptyRoles (xs ++ (sss.filter fun ss => !(tally w a.emptyRoles ss).isEmpty).flatten) =
      tally w a.emptyRoles (xs ++ sss.flatten) := by
  induction sss generalizing xs with
  | nil => rfl
  | cons ss sss ih =>
    have hrest := ih fun ss' hss' => hs ss' (List.mem_cons_of_mem _ hss')
    cases he : (tally w a.emptyRoles ss).isEmpty with
    | true =>
      have hmove : (xs ++ (ss ++ sss.flatten)).Perm ((xs ++ sss.flatten) ++ ss) := by
        rw [List.append_assoc]
        exact List.perm_append_comm.append_left xs
      rw [List.filter_cons_of_neg (by simp [he]), hrest, List.flatten_cons, tally_perm w hmove,
        tally_append_empty w (hs ss List.mem_cons_self) he]
    | false =>
      rw [List.filter_cons_of_pos (by simp [he]), List.flatten_cons, List.flatten_cons,
        ← List.append_assoc, ← List.append_assoc, hrest]

/-- A part of an empty bucket is empty. -/
theorem isEmpty_of_append {a : Aggregation} (ha : a ≠ .latest) {xs ys : List Seen}
    (hs : ∀ s ∈ xs ++ ys, s.Suits a) (h : (tally w a.emptyRoles (xs ++ ys)).isEmpty = true) :
    (tally w a.emptyRoles xs).isEmpty = true := by
  obtain ⟨hn, hk, hc⟩ := nothing_of_isEmpty w hs h
  rw [numbers_append, List.append_eq_nil_iff] at hn
  rw [counted_append] at hc
  by_cases hext : a = .extent
  · subst hext
    simp [tally, Roles.isEmpty, Aggregation.emptyRoles, hn.1]
  · have hzero : counted xs = 0 := by
      have hsum := hc hext
      omega
    cases a <;> simp_all [tally, Roles.isEmpty, Aggregation.emptyRoles]

theorem isEmpty_tally_nil {a : Aggregation} (ha : a ≠ .latest) :
    (tally w a.emptyRoles []).isEmpty = true := by
  rw [tally_nil w ha]
  cases a <;> rfl

/-- A permutation of an image is the image of a permutation. -/
theorem perm_map_exists {α β : Type} {f : α → β} {bs : List β} {l : List α} (h : bs.Perm (l.map f)) :
    ∃ l' : List α, l'.Perm l ∧ bs = l'.map f := by
  generalize hm : l.map f = m at h
  induction h generalizing l with
  | nil =>
    obtain rfl := List.map_eq_nil_iff.mp hm
    exact ⟨[], List.Perm.nil, rfl⟩
  | cons b _ ih =>
    obtain ⟨a, l, rfl, rfl, hl⟩ := List.map_eq_cons_iff.mp hm
    obtain ⟨l', hl', rfl⟩ := ih hl
    exact ⟨a :: l', hl'.cons a, rfl⟩
  | swap b c bs =>
    obtain ⟨a, l, rfl, rfl, hl⟩ := List.map_eq_cons_iff.mp hm
    obtain ⟨a', l, rfl, rfl, rfl⟩ := List.map_eq_cons_iff.mp hl
    exact ⟨a' :: a :: l, List.Perm.swap a a' l, rfl⟩
  | trans _ _ ih₁ ih₂ =>
    obtain ⟨l₂, hl₂, rfl⟩ := ih₂ hm
    obtain ⟨l₁, hl₁, rfl⟩ := ih₁ rfl
    exact ⟨l₁, hl₁.trans hl₂, rfl⟩

/-- Adding buckets to a point that is there. -/
theorem addAll_some (b : Roles) (bs : List Roles) :
    addAll (some b) bs = (bs.foldlM addRoles b).map some := by
  induction bs generalizing b with
  | nil => rfl
  | cons c bs ih =>
    rw [addAll, List.foldlM_cons, List.foldlM_cons, Option.getD_some]
    cases addRoles b c with
    | none => rfl
    | some d => exact ih d

theorem addAll_cons (b : Roles) (bs : List Roles) :
    addAll none (b :: bs) = (mergeAll (b :: bs)).map some := by
  rw [addAll, mergeAll, List.foldlM_cons, List.foldlM_cons, Option.getD_none]
  cases addRoles {} b with
  | none => rfl
  | some c => exact addAll_some c bs

/-- The point of what was seen: a bucket that saw nothing is no data. -/
def pointFrom (a : Aggregation) (ss : List Seen) : Option Roles :=
  if (tally w a.emptyRoles ss).isEmpty then none else some (tally w a.emptyRoles ss)

theorem pointFrom_perm {a : Aggregation} {xs ys : List Seen} (hp : xs.Perm ys) :
    pointFrom w a xs = pointFrom w a ys := by
  unfold pointFrom
  rw [tally_perm w hp]

theorem pointFrom_nil {a : Aggregation} (ha : a ≠ .latest) : pointFrom w a [] = none := by
  unfold pointFrom
  rw [if_pos (isEmpty_tally_nil w ha)]

/-- **Adding up the stored buckets of a point**, in any order, is the point of all they saw. -/
theorem addAll_tallies {a : Aggregation} (ha : a ≠ .latest) (sss : List (List Seen))
    (hs : ∀ ss ∈ sss, ∀ s ∈ ss, s.Suits a) (he : HasRoom a.emptyRoles sss.flatten) {bs : List Roles}
    (hp : bs.Perm ((sss.filter fun ss => !(tally w a.emptyRoles ss).isEmpty).map
      (tally w a.emptyRoles))) :
    addAll none bs = some (pointFrom w a sss.flatten) := by
  unfold pointFrom
  have hall : tally w a.emptyRoles
      (sss.filter fun ss => !(tally w a.emptyRoles ss).isEmpty).flatten =
        tally w a.emptyRoles sss.flatten := tally_flatten_filter w sss hs []
  have hsub : (sss.filter fun ss => !(tally w a.emptyRoles ss).isEmpty).flatten.Sublist sss.flatten :=
    List.filter_sublist.flatten
  obtain ⟨l, hl, rfl⟩ := perm_map_exists hp
  have hflat : tally w a.emptyRoles l.flatten = tally w a.emptyRoles sss.flatten := by
    rw [tally_perm w hl.flatten, hall]
  cases l with
  | nil =>
    rw [← hflat, List.flatten_nil, if_pos (isEmpty_tally_nil w ha)]
    rfl
  | cons ss rest =>
    have hmem : ∀ zs ∈ ss :: rest, zs ∈ sss ∧ (tally w a.emptyRoles zs).isEmpty = false := by
      intro zs hzs
      obtain ⟨hin, hne⟩ := List.mem_filter.mp (hl.mem_iff.mp hzs)
      exact ⟨hin, by simpa using hne⟩
    have hexact : HasRoom a.emptyRoles (ss ++ rest.flatten) :=
      (he.sublist hsub).perm hl.flatten.symm
    have hnot : (tally w a.emptyRoles (ss ++ rest.flatten)).isEmpty = false := by
      rw [← Bool.not_eq_true]
      -- the first part kept is not empty, so the whole is not
      intro hempty
      have hsuits : ∀ s ∈ ss ++ rest.flatten, s.Suits a := by
        intro s hs'
        obtain ⟨zs, hzs, hszs⟩ := List.mem_flatten.mp (show s ∈ (ss :: rest).flatten from hs')
        exact hs zs (hmem zs hzs).1 s hszs
      have hfirst := isEmpty_of_append w ha hsuits hempty
      rw [(hmem ss List.mem_cons_self).2] at hfirst
      exact Bool.noConfusion hfirst
    rw [List.map_cons, addAll_cons, ← List.map_cons, mergeAll_tally w ss rest hexact, ← hflat,
      List.flatten_cons, hnot]
    rfl

theorem counted_eq_zero {ss : List Seen} : counted ss = 0 ↔ ∀ s ∈ ss, s = .nothing := by
  unfold counted
  rw [List.countP_eq_zero]
  simp

/-- What more may be seen without changing a point: nothing, or for an extent nothing outside it. -/
def Harmless (a : Aggregation) (xs ys : List Seen) : Prop :=
  if a = .extent then ∀ v ∈ numbers ys, (∃ u ∈ numbers xs, u ≤ v) ∧ ∃ u ∈ numbers xs, v ≤ u
  else ∀ s ∈ ys, s = .nothing

/-- Of an extent the least and the greatest number count. -/
theorem pointFrom_extent (ss : List Seen) :
    pointFrom w .extent ss = if numbers ss = [] then none else
      some { minValue := some ((numbers ss).min?.map .finite)
             maxValue := some ((numbers ss).max?.map .finite) } := by
  unfold pointFrom
  by_cases hn : numbers ss = []
  · simp [tally, Aggregation.emptyRoles, Roles.isEmpty, hn]
  · obtain ⟨m, hm⟩ := Option.ne_none_iff_exists'.mp fun h => hn (List.min?_eq_none_iff.mp h)
    simp [tally, Aggregation.emptyRoles, Roles.isEmpty, hn, hm]

/-- Numbers between those of a list change neither its least nor its greatest. -/
theorem extremes_append_iff {xs ys : List ℚ} (hx : xs ≠ []) :
    ((xs ++ ys).min? = xs.min? ∧ (xs ++ ys).max? = xs.max?) ↔
      ∀ v ∈ ys, (∃ u ∈ xs, u ≤ v) ∧ ∃ u ∈ xs, v ≤ u := by
  obtain ⟨lo, hlo⟩ := Option.ne_none_iff_exists'.mp fun h => hx (List.min?_eq_none_iff.mp h)
  obtain ⟨hi, hhi⟩ := Option.ne_none_iff_exists'.mp fun h => hx (List.max?_eq_none_iff.mp h)
  obtain ⟨hlomem, hlole⟩ := List.min?_eq_some_iff.mp hlo
  obtain ⟨himem, hile⟩ := List.max?_eq_some_iff.mp hhi
  rw [hlo, hhi, List.min?_eq_some_iff, List.max?_eq_some_iff]
  constructor
  · rintro ⟨⟨-, hmin⟩, -, hmax⟩ v hv
    exact ⟨⟨lo, hlomem, hmin v (List.mem_append_right _ hv)⟩,
      hi, himem, hmax v (List.mem_append_right _ hv)⟩
  · intro h
    refine ⟨⟨List.mem_append_left _ hlomem, ?_⟩, List.mem_append_left _ himem, ?_⟩
    · intro v hv
      rcases List.mem_append.mp hv with hv | hv
      · exact hlole v hv
      · obtain ⟨⟨u, hu, huv⟩, -⟩ := h v hv
        exact (hlole u hu).trans huv
    · intro v hv
      rcases List.mem_append.mp hv with hv | hv
      · exact hile v hv
      · obtain ⟨-, u, hu, huv⟩ := h v hv
        exact huv.trans (hile u hu)

/-- **When seeing more changes no point.** -/
theorem pointFrom_append_iff {a : Aggregation} (ha : a ≠ .latest) {xs ys : List Seen}
    (hs : ∀ s ∈ xs ++ ys, s.Suits a) :
    pointFrom w a (xs ++ ys) = pointFrom w a xs ↔ Harmless a xs ys := by
  unfold Harmless
  by_cases hext : a = .extent
  · subst hext
    rw [if_pos rfl, pointFrom_extent, pointFrom_extent, numbers_append]
    by_cases hx : numbers xs = []
    · cases hy : numbers ys with
      | nil => simp [hx]
      | cons v vs =>
        have hnot : ¬∀ u ∈ v :: vs, (∃ x ∈ ([] : List ℚ), x ≤ u) ∧ ∃ x ∈ ([] : List ℚ), u ≤ x := by
          intro hall
          obtain ⟨⟨x, hx, -⟩, -⟩ := hall v List.mem_cons_self
          exact absurd hx List.not_mem_nil
        rw [hx]
        simpa using hnot
    · rw [← extremes_append_iff hx, if_neg (by simp [hx]), if_neg hx]
      have hinj : ∀ o o' : Option ℚ, o.map Number.finite = o'.map Number.finite ↔ o = o' :=
        fun o o' => (Option.map_injective fun _ _ => Number.finite.inj).eq_iff
      simp [hinj]
  · rw [if_neg hext, ← counted_eq_zero]
    -- any other aggregation counts what it saw, so more is seen exactly when the count grows
    constructor
    · intro heq
      by_cases hempty : (tally w a.emptyRoles (xs ++ ys)).isEmpty = true
      · have hzero := (nothing_of_isEmpty w hs hempty).2.2 hext
        rw [counted_append] at hzero
        omega
      · unfold pointFrom at heq
        rw [if_neg hempty] at heq
        split at heq
        · exact absurd heq (by simp)
        · have hcount := congrArg Roles.countValue (Option.some.inj heq)
          have hsome : a.emptyRoles.countValue = some 0 := by
            cases a <;> first | rfl | exact absurd rfl hext
          simp only [tally, hsome, Option.map_some, Option.some.injEq, counted_append] at hcount
          omega
    · intro hzero
      obtain ⟨hn, hk⟩ := nothing_of_counted hzero
      have hnil : tally w a.emptyRoles ys = tally w a.emptyRoles [] := by
        simp only [tally, hn, hk, hzero, squares]
        rfl
      have hempty : (tally w a.emptyRoles ys).isEmpty = true := by
        rw [hnil]
        exact isEmpty_tally_nil w ha
      unfold pointFrom
      rw [tally_append_empty w (fun s hys => hs s (List.mem_append_right _ hys)) hempty]

/-- A tally that is written is read back as it was. -/
theorem readerRoles_tally {a : Aggregation} {ss : List Seen} (hs : ∀ s ∈ ss, s.Suits a)
    (he : (tally w a.emptyRoles ss).isEmpty = false) (hf : Folded (tally w a.emptyRoles ss)) :
    readerRoles (rowFor (tally w a.emptyRoles ss)) = some (tally w a.emptyRoles ss) := by
  have hhist := rowFor_histogram hf he
  have hbands : (tally w a.emptyRoles ss).histogram.filter (fun h => !h.isEmpty) =
      (tally w a.emptyRoles ss).histogram := by
    cases hr : a.emptyRoles.histogram with
    | none => simp [tally, hr]
    | some h =>
      have hne : bandCounts (numbers ss) ≠ [] := by
        intro hnil
        have hlen := length_bandCounts (numbers ss)
        simp [hnil] at hlen
      simp [tally, hr, Option.filter, hne]
  -- an extent that is not empty has numbers to take the extremes of
  have hextent : a = .extent → numbers ss ≠ [] := by
    rintro rfl hn
    simp [tally, Roles.isEmpty, Aggregation.emptyRoles, hn] at he
  have hmin : (tally w a.emptyRoles ss).minValue.join.map some = (tally w a.emptyRoles ss).minValue := by
    cases a with
    | extent =>
      cases hmin : (numbers ss).min? with
      | none => exact absurd (List.min?_eq_none_iff.mp hmin) (hextent rfl)
      | some x => simp [tally, Aggregation.emptyRoles, hmin]
    | _ => rfl
  have hmax : (tally w a.emptyRoles ss).maxValue.join.map some = (tally w a.emptyRoles ss).maxValue := by
    cases a with
    | extent =>
      cases hmax : (numbers ss).max? with
      | none => exact absurd (List.max?_eq_none_iff.mp hmax) (hextent rfl)
      | some x => simp [tally, Aggregation.emptyRoles, hmax]
    | _ => rfl
  unfold readerRoles
  show some _ = _
  rw [hhist, hbands]
  show some _ = _
  simp only [rowFor, hmin, hmax]
  rfl

/-- What is storable is written as it is, row by row. -/
theorem insert_rows {κ : Type} {rows : List (κ × Roles)} (h : ∀ p ∈ rows, Storable p.2) :
    (rows.mapM fun p => (insert (rowFor p.2)).map (Prod.mk p.1)) =
      some (rows.map fun p => (p.1, rowFor p.2)) := by
  induction rows with
  | nil => rfl
  | cons p rows ih =>
    rw [List.mapM_cons, insert_of_storable (h p List.mem_cons_self),
      ih fun p' hp' => h p' (List.mem_cons_of_mem _ hp')]
    rfl

end Stored

/-! ## §7. The rollup tier. -/

section Rollup

variable (w : PythonTexts) {cal : Calendar} {q : Request} {grain : Grain} {start stop : Instant}
  {watermark : Option Instant} {table : List StoredRow} {facts : List DatedFact} {hidden : List String}

/-- The facts of the window. -/
def Request.windowFacts (q : Request) (start stop : Instant) (facts : List DatedFact) : List DatedFact :=
  facts.filter fun f => f.inSpan (q.clamp start) stop

/-- The visible facts of the window. -/
def Request.visibleFacts (q : Request) (start stop : Instant) (hidden : List String)
    (facts : List DatedFact) : List DatedFact :=
  facts.filter fun f => f.visible hidden && f.inSpan (q.clamp start) stop

/-- What a two-tier read relies on: facts under their local dates, rollups that are fresh below the
    watermark, served buckets that the columns do not round, fewer live rows than the cap, numbers whose sums
    have room, and folds that do not raise. -/
structure Served (w : PythonTexts) (cal : Calendar) (q : Request) (grain : Grain)
    (start stop : Instant) (watermark : Option Instant) (table : List StoredRow) (facts : List DatedFact)
    (hidden : List String) : Prop where
  whole : grain = .monthly → (q.plan cal grain start stop watermark).hours = none
  merged : q.measure.aggregation ≠ .latest
  dated : ∀ f ∈ facts, f.Dated cal
  rows : ∀ r ∈ table, r.bucket.InTableOf grain
  fresh : ∀ b : Bucket, b.InTableOf grain → (∃ t, watermark = some t ∧ b.stop cal ≤ t) →
    q.FreshBucket w grain hidden facts table b
  unrounded : ∀ b : Bucket, b.InTableOf grain → (q.plan cal grain start stop watermark).serves cal b = true →
    q.Unrounded w grain hidden facts b
  capped : ((q.plan cal grain start stop watermark).liveFacts facts).length < adHocMaxRows
  told : Told w q.definition q.measure ((q.windowFacts start stop facts).map DatedFact.row)
  exact : HasRoom q.measure.aggregation.emptyRoles
    (seenAll w q.definition q.measure ((q.windowFacts start stop facts).map DatedFact.row))
  directFolds : (foldPoints w q grain (q.visibleFacts start stop hidden facts)).isSome
  liveFolds : (foldPoints w q grain ((q.plan cal grain start stop watermark).liveFacts facts)).isSome

theorem visible_sublist : (q.visibleFacts start stop hidden facts).Sublist (q.windowFacts start stop facts) := by
  apply List.monotone_filter_right
  intro f hf
  exact (Bool.and_eq_true_iff.mp hf).2

/-- The plan of a request that is served divides its window. -/
theorem Served.splits (h : Served w cal q grain start stop watermark table facts hidden) :
    (q.plan cal grain start stop watermark).Splits cal grain (q.clamp start) stop watermark :=
  plan_splits cal _ _ _ h.whole

theorem seenAll_suits {d : MetricDefinition} {m : Measure} {rows : List FactRow} :
    ∀ s ∈ seenAll w d m rows, s.Suits m.aggregation := by
  intro s hs
  obtain ⟨row, -, rfl⟩ := List.mem_map.mp hs
  cases h : seen w d m row with
  | none => trivial
  | some s => exact seen_suits w h

theorem bucket_inTable {f : DatedFact} {b : Bucket} (h : bucketOf grain f = some b) :
    b.InTableOf grain := by
  cases grain with
  | hourly =>
    obtain ⟨t, -, rfl⟩ := Option.map_eq_some_iff.mp h
    rfl
  | daily =>
    obtain ⟨d, -, rfl⟩ := Option.map_eq_some_iff.mp h
    simp [Bucket.InTableOf]
  | monthly =>
    obtain ⟨d, -, rfl⟩ := Option.map_eq_some_iff.mp h
    simp [Bucket.InTableOf]

/-- The requested values are in the slots of the stored ones. -/
theorem slots_dimsOf (f : DatedFact) : q.slots (q.dimsOf w f) = q.groupBy.map (f.dimension w) := by
  unfold Request.slots
  apply List.map_congr_left
  intro g hg
  have hin := q.slotted g hg
  have hidx : q.dimensions.idxOf g = (q.dimensions.take dimensionSlots).idxOf g := by
    conv_lhs => rw [← List.take_append_drop dimensionSlots q.dimensions]
    rw [List.idxOf_append_of_mem hin]
  have hlt : (q.dimensions.take dimensionSlots).idxOf g < (q.dimensions.take dimensionSlots).length :=
    List.idxOf_lt_length_of_mem hin
  unfold Request.dimsOf
  rw [hidx, List.getD_eq_getElem?_getD, List.getElem?_map, List.getElem?_eq_getElem hlt]
  simp

/-- The facts of a served bucket are the facts of the window in it. -/
theorem bucketFacts_served (h : Served w cal q grain start stop watermark table facts hidden) {b : Bucket}
    (hb : (q.plan cal grain start stop watermark).serves cal b = true) :
    q.bucketFacts grain hidden facts b =
      (q.visibleFacts start stop hidden facts).filter fun f => decide (bucketOf grain f = some b) := by
  unfold Request.bucketFacts Request.visibleFacts
  rw [List.filter_filter]
  apply List.filter_congr
  intro f hf
  by_cases hbucket : bucketOf grain f = some b
  · have hin := h.splits.inside f (h.dated f hf) b hbucket hb
    have hsince : f.since q.rollupsFrom = true := by
      obtain ⟨t, ht, hle, -⟩ := inSpan_iff.mp hin
      unfold DatedFact.since
      unfold Request.clamp at hle
      cases hq : q.rollupsFrom with
      | none => rfl
      | some bound =>
        rw [hq] at hle
        simp only [ht, decide_eq_true_eq]
        exact (le_max_right start bound).trans hle
    simp [hbucket, hin, hsince]
  · simp [hbucket]

/-- The rows a key of the answer stands for. -/
abbrev windowRows (w : PythonTexts) (q : Request) (grain : Grain) (start stop : Instant)
    (hidden : List String) (facts : List DatedFact) (k : Key) : List FactRow :=
  groupRows (q.keyOf w grain) (q.visibleFacts start stop hidden facts) k

/-- What the rows of a key bring. -/
abbrev windowSeen (w : PythonTexts) (q : Request) (grain : Grain) (start stop : Instant)
    (hidden : List String) (facts : List DatedFact) (k : Key) : List Seen :=
  seenAll w q.definition q.measure (windowRows w q grain start stop hidden facts k)

/-- A part of the window is told, and its sums have room. -/
theorem Served.part (h : Served w cal q grain start stop watermark table facts hidden)
    {rows : List FactRow} (hsub : rows.Sublist ((q.windowFacts start stop facts).map DatedFact.row)) :
    Told w q.definition q.measure rows ∧
      HasRoom q.measure.aggregation.emptyRoles (seenAll w q.definition q.measure rows) :=
  ⟨fun row hrow => h.told row (hsub.subset hrow), h.exact.sublist (hsub.map _)⟩

/-- The stored groups of a bucket that fall into a group of the request. -/
def Request.dimKeys (w : PythonTexts) (q : Request) (facts : List DatedFact) (g : List (Option String)) :
    List (List (Option String)) :=
  (facts.filterMap fun f => some (q.dimsOf w f)).dedup.filter fun dims => decide (q.slots dims = g)

/-- What the rows of a stored group bring. -/
def Request.dimSeen (w : PythonTexts) (q : Request) (facts : List DatedFact) (dims : List (Option String)) :
    List Seen :=
  seenAll w q.definition q.measure (groupRows (fun f => some (q.dimsOf w f)) facts dims)

/-- The buckets of a stored row. -/
def StoredRow.roles (r : StoredRow) : Roles := (readerRoles r.row).getD {}

theorem filterMap_ite {α β : Type} (e : α → Bool) (f : α → β) (l : List α) :
    (l.filterMap fun x => if e x then none else some (f x)) = (l.filter fun x => !e x).map f := by
  induction l with
  | nil => rfl
  | cons x l ih => cases h : e x <;> simp [h, ih]

/-- Two tests in either order, and two maps that agree where the first one holds. -/
theorem map_filter_and_comm {α β : Type} {p q : α → Bool} {f f' : α → β} {l : List α}
    (hf : ∀ x ∈ l, p x = true → f x = f' x) :
    (l.filter fun x => p x && q x).map f = (l.filter fun x => q x && p x).map f' := by
  have hcomm : (l.filter fun x => p x && q x) = l.filter fun x => q x && p x := by
    apply List.filter_congr
    intro x _
    exact Bool.and_comm _ _
  rw [hcomm]
  apply List.map_congr_left
  intro x hx
  obtain ⟨hx, htests⟩ := List.mem_filter.mp hx
  exact hf x hx (Bool.and_eq_true_iff.mp htests).2

/-- The stored rows of a bucket that fall into a group of the request, by what was written of them. -/
theorem roles_of_slots (q : Request) (table : List StoredRow) (b : Bucket) (g : List (Option String)) :
    (table.filter fun r => decide (r.bucket = b) && decide (q.slots r.dims = g)).map StoredRow.roles =
      ((((table.filter fun r => decide (r.bucket = b)).map fun r => (r.dims, r.row)).filter fun x =>
        decide (q.slots x.1 = g)).map fun x => (readerRoles x.2).getD {}) := by
  rw [List.filter_map, List.map_map, List.filter_filter]
  exact map_filter_and_comm fun _ _ _ => rfl

/-- **The rows of a fresh bucket**: one for each stored group that saw something. -/
theorem fresh_rows (h : Served w cal q grain start stop watermark table facts hidden) {b : Bucket}
    (htable : b.InTableOf grain) (hserved : (q.plan cal grain start stop watermark).serves cal b = true)
    (hfresh : q.FreshBucket w grain hidden facts table b) :
    (∀ r ∈ table, r.bucket = b → readerRoles r.row = some r.roles) ∧
      ∀ g, ((table.filter fun r => decide (r.bucket = b) && decide (q.slots r.dims = g)).map
        StoredRow.roles).Perm
        ((((q.dimKeys w (q.bucketFacts grain hidden facts b) g).map
          (q.dimSeen w (q.bucketFacts grain hidden facts b))).filter fun ss =>
            !(tally w q.measure.aggregation.emptyRoles ss).isEmpty).map
              (tally w q.measure.aggregation.emptyRoles)) := by
  obtain ⟨folded, rows, hfold, hwritten, hperm⟩ := hfresh
  have hstorable := h.unrounded b htable hserved folded hfold
  obtain ⟨hkeys, hall⟩ := (mapM_pair _ _).mp hfold
  obtain ⟨bf, hbf⟩ : ∃ bf, bf = q.bucketFacts grain hidden facts b := ⟨_, rfl⟩
  obtain ⟨tl, htl⟩ : ∃ tl : List (Option String) → Roles, tl = fun dims =>
    tally w q.measure.aggregation.emptyRoles (q.dimSeen w bf dims) := ⟨_, rfl⟩
  rw [← hbf] at hkeys hall ⊢
  -- the fold of a stored group
  have hgroup : ∀ dims, Told w q.definition q.measure
      (groupRows (fun f => some (q.dimsOf w f)) bf dims) ∧ HasRoom q.measure.aggregation.emptyRoles
        (q.dimSeen w bf dims) := by
    intro dims
    apply h.part
    rw [hbf, bucketFacts_served w h hserved]
    exact ((List.filter_sublist.trans List.filter_sublist).trans visible_sublist).map _
  have hroles : ∀ p ∈ folded, p.2 q.measure.name = some (tl p.1) := by
    intro p hp
    rw [htl]
    exact foldRows_tally w q.names q.declared h.merged (hall p hp) (hgroup p.1).1 (hgroup p.1).2
  have hread : ∀ p ∈ folded, (tl p.1).isEmpty = false →
      readerRoles (rowFor (tl p.1)) = some (tl p.1) := by
    intro p hp he
    have hf : Folded (tl p.1) := folded_of_fold w (hall p hp) _ _ (hroles p hp)
    rw [htl] at he hf ⊢
    exact readerRoles_tally w (seenAll_suits w) he hf
  -- what is written
  have hkept : (folded.filterMap fun p => (p.2 q.measure.name).bind fun roles =>
      if roles.isEmpty then none else some (p.1, roles)) =
        (folded.filter fun p => !(tl p.1).isEmpty).map fun p => (p.1, tl p.1) := by
    rw [← filterMap_ite]
    apply List.filterMap_congr
    intro p hp
    rw [hroles p hp]
    rfl
  have hrows : rows = (folded.filter fun p => !(tl p.1).isEmpty).map fun p => (p.1, rowFor (tl p.1)) := by
    have hall : ∀ x ∈ (folded.filter fun p => !(tl p.1).isEmpty).map fun p => (p.1, tl p.1), Storable x.2 := by
      intro x hx
      obtain ⟨p, hp, rfl⟩ := List.mem_map.mp hx
      have hp := (List.mem_filter.mp hp).1
      exact hstorable p hp _ (hroles p hp)
    rw [hkept, insert_rows hall, List.map_map] at hwritten
    exact (Option.some.inj hwritten).symm
  rw [hrows] at hperm
  constructor
  · intro r hr hbucket
    have hmem : (r.dims, r.row) ∈ (table.filter fun r => decide (r.bucket = b)).map fun r =>
        (r.dims, r.row) :=
      List.mem_map_of_mem (List.mem_filter.mpr ⟨hr, decide_eq_true hbucket⟩)
    obtain ⟨p, hp, heq⟩ := List.mem_map.mp (hperm.mem_iff.mp hmem)
    obtain ⟨hp, he⟩ := List.mem_filter.mp hp
    obtain ⟨-, hrow⟩ := Prod.mk.inj heq
    unfold StoredRow.roles
    rw [← hrow, hread p hp (by simpa using he)]
    rfl
  · intro g
    have hright : ((((q.dimKeys w bf g).map (q.dimSeen w bf)).filter fun ss =>
        !(tally w q.measure.aggregation.emptyRoles ss).isEmpty).map
          (tally w q.measure.aggregation.emptyRoles)) =
        ((((folded.filter fun p => !(tl p.1).isEmpty).map fun p => (p.1, rowFor (tl p.1))).filter fun x =>
          decide (q.slots x.1 = g)).map fun x => (readerRoles x.2).getD {}) := by
      have hdims : q.dimKeys w bf g = (folded.filter fun p => decide (q.slots p.1 = g)).map Prod.fst := by
        unfold Request.dimKeys
        rw [← hkeys, List.filter_map]
        rfl
      rw [hdims, List.map_map, List.filter_map, List.filter_filter, List.map_map, List.filter_map,
        List.filter_filter, List.map_map]
      have hmap : ((folded.filter fun p => !(tl p.1).isEmpty && decide (q.slots p.1 = g)).map fun p => tl p.1) =
          (folded.filter fun p => decide (q.slots p.1 = g) && !(tl p.1).isEmpty).map fun p =>
            (readerRoles (rowFor (tl p.1))).getD {} := by
        apply map_filter_and_comm
        intro p hp he
        rw [hread p hp (by simpa using he)]
        rfl
      rw [htl] at hmap ⊢
      exact hmap
    rw [roles_of_slots, hright]
    exact (hperm.filter _).map _

/-- **What a key of the answer saw**, stored group by stored group. -/
theorem dimSeen_flatten (h : Served w cal q grain start stop watermark table facts hidden) {b : Bucket}
    (hserved : (q.plan cal grain start stop watermark).serves cal b = true) (g : List (Option String)) :
    ((q.dimKeys w (q.bucketFacts grain hidden facts b) g).map
      (q.dimSeen w (q.bucketFacts grain hidden facts b))).flatten.Perm
        (windowSeen w q grain start stop hidden facts (b, g)) := by
  obtain ⟨bf, hbf⟩ : ∃ bf, bf = q.bucketFacts grain hidden facts b := ⟨_, rfl⟩
  obtain ⟨sf, hsf⟩ : ∃ sf : DatedFact → Seen, sf = fun f =>
    (seen w q.definition q.measure f.row).getD .nothing := ⟨_, rfl⟩
  rw [← hbf]
  have hgroup : ∀ dims, q.dimSeen w bf dims =
      (bf.filter fun f => decide (q.dimsOf w f = dims)).map sf := by
    intro dims
    unfold Request.dimSeen seenAll groupRows
    rw [List.map_map, hsf]
    simp only [Option.some.injEq]
    rfl
  have hleft : ((q.dimKeys w bf g).map (q.dimSeen w bf)).flatten =
      ((q.dimKeys w bf g).flatMap fun dims => bf.filter fun f => decide (q.dimsOf w f = dims)).map sf := by
    rw [List.map_flatMap, List.flatMap_def]
    congr 1
    exact List.map_congr_left fun dims _ => hgroup dims
  -- the facts of those groups are the facts of the key
  have hright : windowSeen w q grain start stop hidden facts (b, g) =
      (bf.filter fun f => decide (q.dimsOf w f ∈ q.dimKeys w bf g)).map sf := by
    unfold windowSeen seenAll windowRows groupRows
    rw [List.map_map, hsf, hbf, bucketFacts_served w h hserved, List.filter_filter]
    congr 1
    apply List.filter_congr
    intro f hf
    unfold Request.keyOf
    by_cases hbucket : bucketOf grain f = some b
    · have hmem : q.dimsOf w f ∈ q.dimKeys w ((q.visibleFacts start stop hidden facts).filter fun f =>
          decide (bucketOf grain f = some b)) g ↔ q.groupBy.map (f.dimension w) = g := by
        unfold Request.dimKeys
        rw [List.mem_filter, decide_eq_true_eq, slots_dimsOf, mem_keys]
        constructor
        · intro hboth
          exact hboth.2
        · intro hslots
          exact ⟨⟨f, List.mem_filter.mpr ⟨hf, decide_eq_true hbucket⟩, rfl⟩, hslots⟩
      simp [hbucket, hmem]
    · have hnot : Option.map (fun b => (b, q.groupBy.map (f.dimension w))) (bucketOf grain f) ≠
          some (b, g) := by
        intro heq
        obtain ⟨b', hb', hpair⟩ := Option.map_eq_some_iff.mp heq
        obtain ⟨rfl, -⟩ := Prod.mk.inj hpair
        exact hbucket hb'
      simp [hbucket, hnot]
  have hnodup : (q.dimKeys w bf g).Nodup := (List.nodup_dedup _).filter _
  rw [hleft, hright]
  convert (flatMap_groups (q.dimsOf w) bf _ hnodup).map sf

/-- The rows read from the table, added up. -/
theorem foldlM_readRow {rows : List StoredRow} (hread : ∀ r ∈ rows, readerRoles r.row = some r.roles)
    (points : Points) :
    rows.foldlM (fun points r => (q.readRow r).bind (addPoint points)) points =
      (rows.map fun r => ((r.bucket, q.slots r.dims), r.roles)).foldlM addPoint points := by
  induction rows generalizing points with
  | nil => rfl
  | cons r rows ih =>
    have hrest : ∀ r' ∈ rows, readerRoles r'.row = some r'.roles :=
      fun r' hr' => hread r' (List.mem_cons_of_mem _ hr')
    have hrow : q.readRow r = some ((r.bucket, q.slots r.dims), r.roles) := by
      unfold Request.readRow
      rw [hread r List.mem_cons_self]
      rfl
    rw [List.foldlM_cons, List.map_cons, List.foldlM_cons, hrow, Option.bind_some]
    cases addPoint points ((r.bucket, q.slots r.dims), r.roles) with
    | none => rfl
    | some points' => exact ih hrest points'

/-- A bucket of the other table has no fact. -/
theorem windowSeen_of_not_inTable {k : Key} (hk : ¬k.1.InTableOf grain) :
    windowSeen w q grain start stop hidden facts k = [] := by
  unfold windowSeen windowRows groupRows seenAll
  rw [List.map_eq_nil_iff, List.map_eq_nil_iff, List.filter_eq_nil_iff]
  intro f _ heq
  obtain ⟨b, hb, rfl⟩ := Option.map_eq_some_iff.mp (of_decide_eq_true heq)
  exact hk (bucket_inTable hb)

/-- What the rows of a key add up to: the fold of its facts when the plan serves its bucket, nothing otherwise. -/
theorem addAll_served (h : Served w cal q grain start stop watermark table facts hidden) {rows : List StoredRow}
    (hrows : rows = table.filter fun r => (q.plan cal grain start stop watermark).serves cal r.bucket)
    (hfresh : ∀ b : Bucket, b.InTableOf grain → (q.plan cal grain start stop watermark).serves cal b = true →
      q.FreshBucket w grain hidden facts table b) :
    ∀ k, addAll none (((rows.map fun r => ((r.bucket, q.slots r.dims), r.roles)).filter
      fun p => decide (p.1 = k)).map Prod.snd) =
        some (if (q.plan cal grain start stop watermark).serves cal k.1 then
          pointFrom w q.measure.aggregation (windowSeen w q grain start stop hidden facts k)
          else none) := by
  rintro ⟨b, g⟩
  have hlist : ((rows.map fun r => ((r.bucket, q.slots r.dims), r.roles)).filter
      fun p => decide (p.1 = (b, g))).map Prod.snd =
        (rows.filter fun r => decide (r.bucket = b) && decide (q.slots r.dims = g)).map
          StoredRow.roles := by
    rw [List.filter_map, List.map_map]
    have hcond : ∀ r : StoredRow, decide (r.bucket = b ∧ q.slots r.dims = g) =
        (decide (r.bucket = b) && decide (q.slots r.dims = g)) := fun r => Bool.decide_and ..
    simp only [Function.comp_def, Prod.mk.injEq, hcond]
  have hnone : (∀ r ∈ rows, r.bucket ≠ b) →
      (rows.filter fun r => decide (r.bucket = b) && decide (q.slots r.dims = g)) = [] := by
    intro hne
    rw [List.filter_eq_nil_iff]
    intro r hr heq
    exact hne r hr (of_decide_eq_true (Bool.and_eq_true_iff.mp heq).1)
  rw [hlist]
  by_cases hserved : (q.plan cal grain start stop watermark).serves cal b = true
  · rw [if_pos hserved]
    by_cases htable : b.InTableOf grain
    · have hsame : (rows.filter fun r => decide (r.bucket = b) && decide (q.slots r.dims = g)) =
          table.filter fun r => decide (r.bucket = b) && decide (q.slots r.dims = g) := by
        rw [hrows, List.filter_filter]
        apply List.filter_congr
        intro r _
        by_cases hb : r.bucket = b
        · simp [hb, hserved]
        · simp [hb]
      -- the rows of the bucket are fresh: a permutation of the tallies of its dimension keys, which the request merges
      have hperm := (fresh_rows w h htable hserved (hfresh b htable hserved)).2 g
      have hflat := dimSeen_flatten w h hserved g
      have hexact : HasRoom q.measure.aggregation.emptyRoles
          (windowSeen w q grain start stop hidden facts (b, g)) :=
        (h.part w ((List.filter_sublist.trans visible_sublist).map _)).2
      have hsuits : ∀ ss ∈ (q.dimKeys w (q.bucketFacts grain hidden facts b) g).map
          (q.dimSeen w (q.bucketFacts grain hidden facts b)), ∀ s ∈ ss,
            s.Suits q.measure.aggregation := by
        intro ss hss
        obtain ⟨dims, -, rfl⟩ := List.mem_map.mp hss
        exact seenAll_suits w
      rw [hsame, addAll_tallies w h.merged _ hsuits (hexact.perm hflat.symm) hperm,
        pointFrom_perm w hflat]
    · have hother : ∀ r ∈ rows, r.bucket ≠ b := by
        rintro r hr rfl
        rw [hrows] at hr
        exact htable (h.rows r (List.mem_filter.mp hr).1)
      -- a bucket of another grain has no rows, and no facts are seen in it
      rw [hnone hother, windowSeen_of_not_inTable w htable, pointFrom_nil w h.merged]
      rfl
  · have hother : ∀ r ∈ rows, r.bucket ≠ b := by
      rintro r hr rfl
      rw [hrows] at hr
      exact hserved (List.mem_filter.mp hr).2
    rw [hnone hother, if_neg hserved]
    rfl

/-- **The rollup tier**: in a served bucket the point of what the visible facts bring. -/
theorem rollupPoints_eq (h : Served w cal q grain start stop watermark table facts hidden) :
    ∃ points, rollupPoints cal q (q.plan cal grain start stop watermark) table = some points ∧
      ∀ k, points k = if (q.plan cal grain start stop watermark).serves cal k.1 then
        pointFrom w q.measure.aggregation (windowSeen w q grain start stop hidden facts k) else none := by
  have hfresh : ∀ b : Bucket, b.InTableOf grain →
      (q.plan cal grain start stop watermark).serves cal b = true →
        q.FreshBucket w grain hidden facts table b :=
    fun b hb hserved => h.fresh b hb (h.splits.settled b hb hserved)
  obtain ⟨rows, hrows⟩ : ∃ rows, rows = table.filter fun r =>
    (q.plan cal grain start stop watermark).serves cal r.bucket := ⟨_, rfl⟩
  have hread : ∀ r ∈ rows, readerRoles r.row = some r.roles := by
    intro r hr
    rw [hrows] at hr
    obtain ⟨hr, hserved⟩ := List.mem_filter.mp hr
    exact (fresh_rows w h (h.rows r hr) hserved (hfresh _ (h.rows r hr) hserved)).1 r hr rfl
  have hat := addAll_served w h hrows hfresh
  obtain ⟨points, hfold, hall⟩ := addPoints_exists
    (rows.map fun r => ((r.bucket, q.slots r.dims), r.roles)) (fun _ => none) fun k => ⟨_, hat k⟩
  refine ⟨points, ?_, fun k => (Option.some.inj ((hat k).symm.trans (hall k))).symm⟩
  unfold rollupPoints
  rw [← hrows, foldlM_readRow hread]
  exact hfold

end Rollup

/-! ## §8. The live tier. -/

section Live

variable (w : PythonTexts) {cal : Calendar} {q : Request} {grain : Grain} {start stop : Instant}
  {watermark : Option Instant} {table : List StoredRow} {facts : List DatedFact} {hidden : List String}

/-- The hidden facts of the window. -/
def Request.hiddenFacts (q : Request) (start stop : Instant) (hidden : List String)
    (facts : List DatedFact) : List DatedFact :=
  facts.filter fun f => !f.visible hidden && f.inSpan (q.clamp start) stop

/-- What the hidden rows of a key bring. -/
abbrev hiddenSeen (w : PythonTexts) (q : Request) (grain : Grain) (start stop : Instant)
    (hidden : List String) (facts : List DatedFact) (k : Key) : List Seen :=
  seenAll w q.definition q.measure
    (groupRows (q.keyOf w grain) (q.hiddenFacts start stop hidden facts) k)

theorem hidden_sublist :
    (q.hiddenFacts start stop hidden facts).Sublist (q.windowFacts start stop facts) := by
  apply List.monotone_filter_right
  intro f hf
  exact (Bool.and_eq_true_iff.mp hf).2

/-- A row of a key is visible or hidden. -/
theorem windowSeen_perm (k : Key) :
    (seenAll w q.definition q.measure
      (groupRows (q.keyOf w grain) (q.windowFacts start stop facts) k)).Perm
        (windowSeen w q grain start stop hidden facts k ++
          hiddenSeen w q grain start stop hidden facts k) := by
  have hsplit : (q.visibleFacts start stop hidden facts ++ q.hiddenFacts start stop hidden facts).Perm
      (q.windowFacts start stop facts) := by
    have hvisible : q.visibleFacts start stop hidden facts =
        (q.windowFacts start stop facts).filter fun f => f.visible hidden :=
      List.filter_filter.symm
    have hhidden : q.hiddenFacts start stop hidden facts =
        (q.windowFacts start stop facts).filter fun f => !f.visible hidden :=
      List.filter_filter.symm
    rw [hvisible, hhidden]
    exact List.filter_append_perm _ _
  have hrows := (hsplit.symm.filter fun f => decide (q.keyOf w grain f = some k)).map DatedFact.row
  rw [List.filter_append, List.map_append] at hrows
  have hseen := hrows.map fun row => (seen w q.definition q.measure row).getD .nothing
  rw [List.map_append] at hseen
  exact hseen

/-- A key of a fact is in the bucket of the fact. -/
theorem bucketOf_of_keyOf {f : DatedFact} {k : Key} (h : q.keyOf w grain f = some k) :
    bucketOf grain f = some k.1 := by
  obtain ⟨b, hb, rfl⟩ := Option.map_eq_some_iff.mp h
  exact hb

theorem live_sublist (h : Served w cal q grain start stop watermark table facts hidden) :
    ((q.plan cal grain start stop watermark).liveFacts facts).Sublist
      (q.windowFacts start stop facts) := by
  apply List.monotone_filter_right
  intro f hf
  exact h.splits.within f hf

/-- Nothing of a served bucket is read live. -/
theorem groupRows_served (h : Served w cal q grain start stop watermark table facts hidden) {k : Key}
    (hk : (q.plan cal grain start stop watermark).serves cal k.1 = true) :
    groupRows (q.keyOf w grain) ((q.plan cal grain start stop watermark).liveFacts facts) k = [] := by
  unfold groupRows
  rw [List.map_eq_nil_iff, List.filter_eq_nil_iff]
  intro f hf heq
  obtain ⟨hf, hlive⟩ := List.mem_filter.mp hf
  have hin := h.splits.within f hlive
  have hnot := (h.splits.live f (h.dated f hf) k.1
    (bucketOf_of_keyOf w (of_decide_eq_true heq)) hin).mp hlive
  rw [hk] at hnot
  exact Bool.noConfusion hnot

/-- All of any other bucket is read live. -/
theorem groupRows_live (h : Served w cal q grain start stop watermark table facts hidden) {k : Key}
    (hk : (q.plan cal grain start stop watermark).serves cal k.1 = false) :
    groupRows (q.keyOf w grain) ((q.plan cal grain start stop watermark).liveFacts facts) k =
      groupRows (q.keyOf w grain) (q.windowFacts start stop facts) k := by
  unfold groupRows ReadPlan.liveFacts Request.windowFacts
  rw [List.filter_filter, List.filter_filter]
  congr 1
  apply List.filter_congr
  intro f hf
  by_cases hkey : q.keyOf w grain f = some k
  · have hbucket := bucketOf_of_keyOf w hkey
    have hiff : ((q.plan cal grain start stop watermark).live.any fun s => f.inSpan s.1 s.2) =
        f.inSpan (q.clamp start) stop := by
      rw [Bool.eq_iff_iff]
      constructor
      · exact h.splits.within f
      · intro hin
        exact (h.splits.live f (h.dated f hf) k.1 hbucket hin).mpr hk
    rw [hiff]
  · simp [hkey]

/-- **The point of a key over a part of the window.** -/
theorem valueAt_eq (h : Served w cal q grain start stop watermark table facts hidden) {part : List DatedFact}
    (hsub : part.Sublist (q.windowFacts start stop facts)) {k : Key} (hf : Foldable w q grain part k) :
    valueAt w q grain part k = pointFrom w q.measure.aggregation
      (seenAll w q.definition q.measure (groupRows (q.keyOf w grain) part k)) := by
  obtain ⟨out, hout, -⟩ := hf
  have hrows : (groupRows (q.keyOf w grain) part k).Sublist
      ((q.windowFacts start stop facts).map DatedFact.row) := (List.filter_sublist.trans hsub).map _
  obtain ⟨htold, hexact⟩ := h.part w hrows
  have hroles := foldRows_tally w q.names q.declared h.merged hout htold hexact
  unfold valueAt Request.valueOf pointFrom
  rw [hout, Option.bind_some, hroles, Option.bind_some, addRoles_nothing w hexact]

/-- The metric of the window, key by key. -/
theorem directPoints_eq (h : Served w cal q grain start stop watermark table facts hidden) :
    directPoints w q grain start stop hidden facts = some fun k =>
      pointFrom w q.measure.aggregation (windowSeen w q grain start stop hidden facts k) := by
  obtain ⟨items, hitems⟩ := Option.isSome_iff_exists.mp h.directFolds
  have hfold : foldPoints w q grain (facts.filter fun f =>
      f.visible hidden && f.inSpan (q.clamp start) stop) = some items := hitems
  unfold directPoints
  rw [hfold, Option.map_some]
  congr 1
  funext k
  rw [pointsOf_foldPoints w q grain hitems k]
  exact valueAt_eq w h visible_sublist ((foldPoints_spec w q grain hitems).1 k)

/-- The live tier, key by key: the hidden rows count like the others. -/
theorem live_eq (h : Served w cal q grain start stop watermark table facts hidden) {k : Key}
    (hf : Foldable w q grain ((q.plan cal grain start stop watermark).liveFacts facts) k) :
    valueAt w q grain ((q.plan cal grain start stop watermark).liveFacts facts) k =
      if (q.plan cal grain start stop watermark).serves cal k.1 then none
      else pointFrom w q.measure.aggregation (windowSeen w q grain start stop hidden facts k ++
        hiddenSeen w q grain start stop hidden facts k) := by
  rw [valueAt_eq w h (live_sublist w h) hf]
  by_cases hk : (q.plan cal grain start stop watermark).serves cal k.1 = true
  · rw [if_pos hk, groupRows_served w h hk]
    exact pointFrom_nil w h.merged
  · rw [if_neg hk, groupRows_live w h (Bool.not_eq_true _ ▸ hk)]
    exact pointFrom_perm w (windowSeen_perm w k)

end Live

/-! ## §9. The answer. -/

section Answer

variable (w : PythonTexts) (cal : Calendar) (q : Request) (grain : Grain) (start stop : Instant)
  (watermark : Option Instant) (table : List StoredRow) (facts : List DatedFact) (hidden : List String)

/-- Wherever a bucket is read live, its hidden facts are harmless to it. -/
def HiddenHarmless : Prop :=
  ∀ k : Key, (q.plan cal grain start stop watermark).serves cal k.1 = false →
    Harmless q.measure.aggregation (windowSeen w q grain start stop hidden facts k)
      (hiddenSeen w q grain start stop hidden facts k)

variable {cal q grain start stop watermark table facts hidden}

/-- A window that ends before `rollups_from` has no fact. -/
theorem windowFacts_eq_nil (hle : stop ≤ q.clamp start) : q.windowFacts start stop facts = [] := by
  unfold Request.windowFacts
  rw [List.filter_eq_nil_iff]
  intro f _ hin
  obtain ⟨t, -, hlo, hhi⟩ := inSpan_iff.mp hin
  exact absurd (hlo.trans_lt hhi) (not_lt.mpr hle)

/-- **What a two-tier read answers**, in a window that is not before `rollups_from`. -/
theorem series_at (h : Served w cal q grain start stop watermark table facts hidden)
    (hwindow : q.rollupsFrom.any (fun bound => decide (start < bound ∧ stop ≤ bound)) = false) :
    series w cal q grain start stop watermark table facts = some fun k =>
      if (q.plan cal grain start stop watermark).serves cal k.1 then
        pointFrom w q.measure.aggregation (windowSeen w q grain start stop hidden facts k)
      else pointFrom w q.measure.aggregation (windowSeen w q grain start stop hidden facts k ++
        hiddenSeen w q grain start stop hidden facts k) := by
  obtain ⟨points, hpoints, hstored⟩ := rollupPoints_eq w h
  obtain ⟨items, hitems⟩ := Option.isSome_iff_exists.mp h.liveFolds
  have hlive := fun k => live_eq w h ((foldPoints_spec w q grain hitems).1 k)
  -- the keys of the live tier are not in the other one
  have hfree : ∀ k, (valueAt w q grain ((q.plan cal grain start stop watermark).liveFacts facts)
      k).isSome → points k = none := by
    intro k hk
    rw [hlive k] at hk
    rw [hstored k]
    by_cases hserved : (q.plan cal grain start stop watermark).serves cal k.1 = true
    · rw [if_pos hserved] at hk
      exact absurd hk (by simp)
    · rw [if_neg hserved]
  obtain ⟨answer, hfold, hall⟩ := addPoints_fresh w q grain hitems points hfree
  have hanswer : series w cal q grain start stop watermark table facts = some answer := by
    unfold series
    rw [if_neg (by rw [hwindow]; exact Bool.false_ne_true)]
    simp only [Option.bind_eq_bind, hpoints, Option.bind_some, List.take_of_length_le h.capped.le,
      hitems]
    exact hfold
  rw [hanswer]
  congr 1
  funext k
  rw [hall k, hlive k, hstored k]
  by_cases hserved : (q.plan cal grain start stop watermark).serves cal k.1 = true
  · simp only [if_pos hserved, Option.none_or]
  · simp only [if_neg hserved, Option.or_none]

end Answer

/-! ## §10. A hidden name in the live tier. -/

/-- A tenant in the zone of the stored instants. -/
def utcCalendar : Calendar where
  utcDate := fun t => t / (24 * oneHour)
  dateOf := fun t => t / (24 * oneHour)
  midnight := fun d => d * (24 * oneHour)
  midnight_le_iff := by
    have h : ∀ t d : Int, d * (24 * 3600000000) ≤ t ↔ d ≤ t / (24 * 3600000000) := by
      intro t d
      omega
    exact h

/-- How many transactions there were. -/
def countHits : Request where
  definition := { measures := [{ name := "hits", aggregation := .count }] }
  names := by decide
  dimensions := []
  measure := { name := "hits", aggregation := .count }
  declared := List.mem_singleton.mpr rfl
  groupBy := []
  slotted := fun _ hg => absurd hg List.not_mem_nil

/-- A transaction of the first day. -/
def hit (name : String) (t : Instant) : DatedFact where
  row := { transactionName := some name, eventTime := some t }
  businessDate := some 0

/-- The rollup of the first hour: one transaction. -/
def firstHour : List StoredRow :=
  [{ bucket := .hour 0, dims := [], row := rowFor { countValue := some 1 } }]

/-- The rollup of the first hour is fresh for any facts of two hours with one visible fact in the first. -/
theorem firstHour_fresh {facts : List DatedFact}
    (hfirst : countHits.bucketFacts .hourly ["PING"] facts (.hour 0) = [hit "PICK" 0])
    (hall : ∀ f ∈ facts, bucketOf .hourly f = some (.hour 0) ∨ bucketOf .hourly f = some (.hour oneHour)) :
    ∀ b : Bucket, b.InTableOf .hourly → (∃ t, some oneHour = some t ∧ b.stop utcCalendar ≤ t) →
      countHits.FreshBucket plainTexts .hourly ["PING"] facts firstHour b := by
  rintro b htable ⟨t, ht, hstop⟩
  obtain rfl := Option.some.inj ht
  cases b with
  | day d => exact absurd rfl htable
  | hour s =>
    by_cases hs : s = 0
    · subst hs
      unfold Request.FreshBucket
      rw [hfirst]
      exact ⟨_, _, rfl, rfl, List.Perm.refl _⟩
    · -- no fact is of another hour that ended
      have hnone : countHits.bucketFacts .hourly ["PING"] facts (.hour s) = [] := by
        unfold Request.bucketFacts
        rw [List.filter_eq_nil_iff]
        intro f hf heq
        have hbucket : bucketOf .hourly f = some (.hour s) :=
          of_decide_eq_true (Bool.and_eq_true_iff.mp heq).2
        rcases hall f hf with h | h
        · rw [h] at hbucket
          exact hs (Bucket.hour.inj (Option.some.inj hbucket)).symm
        · rw [h] at hbucket
          obtain rfl := Bucket.hour.inj (Option.some.inj hbucket)
          exact absurd hstop (by decide)
      have htable : (firstHour.filter fun r => decide (r.bucket = .hour s)) = [] := by
        simp [firstHour, Ne.symm hs]
      unfold Request.FreshBucket
      rw [hnone, htable]
      exact ⟨[], [], rfl, rfl, List.Perm.nil⟩

/-- A count of transactions that is below `2 ^ 63` is stored as it is. -/
theorem unrounded_firstHour {facts : List DatedFact}
    (hfirst : countHits.bucketFacts .hourly ["PING"] facts (.hour 0) = [hit "PICK" 0]) :
    countHits.Unrounded plainTexts .hourly ["PING"] facts (.hour 0) := by
  intro folded hfold p hp roles hroles
  rw [hfirst] at hfold
  obtain rfl := Option.some.inj hfold
  obtain rfl := List.mem_singleton.mp hp
  obtain rfl := Option.some.inj hroles
  have hcount : ∀ n, some 1 = some n → n < 2 ^ 63 := by
    intro n hn
    obtain rfl := Option.some.inj hn
    norm_num
  exact ⟨nofun, nofun, nofun, nofun, hcount, rfl⟩

/-- Every two-tier read over fresh rollups and fewer live rows than the cap is the metric. -/
def TwoTierReadsExact : Prop :=
  ∀ (w : PythonTexts) (cal : Calendar) (q : Request) (grain : Grain) (start stop : Instant)
    (watermark : Option Instant) (table : List StoredRow) (facts : List DatedFact) (hidden : List String),
    (∀ f ∈ facts, f.Dated cal) → (∀ r ∈ table, r.bucket.InTableOf grain) →
    (∀ b : Bucket, b.InTableOf grain → (∃ t, watermark = some t ∧ b.stop cal ≤ t) →
      q.FreshBucket w grain hidden facts table b) →
    ((q.plan cal grain start stop watermark).liveFacts facts).length < adHocMaxRows →
    series w cal q grain start stop watermark table facts =
      directPoints w q grain start stop hidden facts

end RagPipeline.Analytics
