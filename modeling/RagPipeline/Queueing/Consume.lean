/-
  RagPipeline.Queueing.Consume — `consume_tenant`, one pass over the open tickets of the analytics.

  The due tickets that overlap are merged into runs, and a run is split into slices.  A slice is one
  transaction.  The last slice of a run also stamps the tickets of the run, so that they are consumed with
  it or not at all; the first slice that raises ends the run, and its tickets are charged an attempt.  What
  each slice does is given by `SliceAttempt`.  The bookkeeping writes succeed.

    * `foldSlices`        — the slices of a run, up to the first that raises;
    * `consumeTenant`     — the pass;
    * `batchesOf_separate`— the runs do not see each other;
    * `tickets_consumed`  — the accounting.
-/
import RagPipeline.Lib.Attempts
import RagPipeline.Lib.KeyedRows
import RagPipeline.Queueing.Coalesce

namespace RagPipeline.Queueing

open RagPipeline.Lib RagPipeline.Stage2 RagPipeline.Analytics

/-! ## §1. The rows of a run. -/

/-- A row of `analytics_pending_windows`. -/
structure AnalyticsPendingWindow where
  id : UUID
  range : PendingWindow
  consumedAt : Option Instant := none
  attempts : ℕ := 0
  lastError : Option String := none
  lastAttemptAt : Option Instant := none
  abandonedAt : Option Instant := none
  availableAt : Instant
  deriving DecidableEq, Repr

/-- The settings of the pass. -/
structure ConsumeSettings where
  analyticsMaxWindow : Duration := 21600 * second
  analyticsMaxAttempts : ℕ := 5

/-- `_open_and_due`. -/
def AnalyticsPendingWindow.isDue (t : AnalyticsPendingWindow) (dbNow : Instant) : Bool :=
  t.consumedAt.isNone && t.abandonedAt.isNone && decide (t.availableAt ≤ dbNow)

/-- The row of a ticket whose range is folded. -/
def AnalyticsPendingWindow.consume (now : Instant) (t : AnalyticsPendingWindow) : AnalyticsPendingWindow :=
  { t with consumedAt := some now, lastAttemptAt := some now, lastError := none }

/-- The UPDATE of `_record_failure` for the ticket that was `loaded`; `now` and `retryAt` are the clock of
    the database, without the backoff and with it. -/
def AnalyticsPendingWindow.fail (c : ConsumeSettings) (error : String) (now retryAt : Instant)
    (loaded t : AnalyticsPendingWindow) : AnalyticsPendingWindow :=
  let attempts := loaded.attempts + 1
  let giveUp := decide (c.analyticsMaxAttempts ≤ attempts)
  { t with
    attempts := attempts
    lastError := some (error.take 2000).toString
    lastAttemptAt := some now
    availableAt := retryAt
    abandonedAt := if giveUp then some now else none }

/-- `_record_failure`: ticket after ticket; and how many it gave up. -/
def recordFoldFailure (c : ConsumeSettings) (tickets : List AnalyticsPendingWindow) (error : String)
    (now : Instant) (retryAt : AnalyticsPendingWindow → Instant) (rows : List AnalyticsPendingWindow) :
    List AnalyticsPendingWindow × ℕ :=
  (tickets.foldl (fun rows t =>
      updateWhere AnalyticsPendingWindow.id [t.id] (AnalyticsPendingWindow.fail c error now (retryAt t) t) rows) rows,
    (tickets.filter fun t => decide (c.analyticsMaxAttempts ≤ t.attempts + 1)).length)

/-! ## §2. The pass. -/

/-- How a slice goes: what it raises before its commit, if anything, and the tickets that are published
    meanwhile. -/
structure SliceAttempt where
  arrivals : List AnalyticsPendingWindow := []
  raised : Option String := none

/-- The tables, the slices that are committed, and the counters of the result. -/
structure Consumption where
  rows : List AnalyticsPendingWindow
  slices : List (Instant × Instant) := []
  consumed : ℕ := 0
  failed : ℕ := 0
  abandoned : ℕ := 0

/-- What the pass meets: the `j`-th slice of the `i`-th run, and the clocks. -/
structure FoldWorld where
  attempt : ℕ → ℕ → SliceAttempt
  now : ℕ → Instant
  retryAt : ℕ → AnalyticsPendingWindow → Instant

variable (c : ConsumeSettings) (w : FoldWorld)

/-- `_consume_run`, of the tickets it claims. -/
def consumeRun (now : Instant) (p : Instant × Instant) (claim : List AnalyticsPendingWindow) (s : Consumption) :
    Consumption :=
  { s with
    rows := updateWhere AnalyticsPendingWindow.id (claim.map AnalyticsPendingWindow.id)
      (AnalyticsPendingWindow.consume now) s.rows
    slices := s.slices ++ [p]
    consumed := s.consumed + claim.length }

/-- The slices of the `i`-th run from the `index`-th on; `total` is their number. -/
def foldSlices (i : ℕ) (tickets : List AnalyticsPendingWindow) (total : ℕ) :
    ℕ → List (Instant × Instant) → Consumption → Consumption
  | _, [], s => s
  | index, p :: ps, s =>
      let claim := if index = total - 1 then tickets else []
      let a := w.attempt i index
      let s := { s with rows := s.rows ++ a.arrivals }
      match a.raised with
      | some error =>
          let (rows, gaveUp) := recordFoldFailure c tickets error (w.now i) (w.retryAt i) s.rows
          { s with rows := rows, failed := s.failed + 1, abandoned := s.abandoned + gaveUp }
      | none => foldSlices i tickets total (index + 1) ps (consumeRun (w.now i) p claim s)

/-- The slices of a run. -/
def slicesOf (r : Run AnalyticsPendingWindow Instant) : List (Instant × Instant) :=
  splitRun r.lo r.hi c.analyticsMaxWindow

/-- The `i`-th run. -/
def foldRun (s : Consumption) (p : Run AnalyticsPendingWindow Instant × ℕ) : Consumption :=
  foldSlices c w p.2 p.1.items (slicesOf c p.1).length 0 (slicesOf c p.1) s

/-- The runs of the due tickets: those that overlap, merged. -/
def dueRuns (rows : List AnalyticsPendingWindow) (dbNow : Instant) : List (Run AnalyticsPendingWindow Instant) :=
  sweep (fun t => t.range.rangeStart) (fun t => t.range.rangeEnd) 0 (rows.filter fun t => t.isDue dbNow)

/-- **`consume_tenant`.** -/
def consumeTenant (rows : List AnalyticsPendingWindow) (dbNow : Instant) : Consumption :=
  (dueRuns rows dbNow).zipIdx.foldl (foldRun c w) { rows := rows }

/-- Without their bookkeeping the runs are those of `_coalesce`. -/
theorem dueRuns_ranges (rows : List AnalyticsPendingWindow) (dbNow : Instant) :
    (dueRuns rows dbNow).map (Run.map AnalyticsPendingWindow.range) =
      (coalesce ((rows.filter fun t => t.isDue dbNow).map AnalyticsPendingWindow.range) 0).map runOf := by
  rw [coalesce_runs]
  exact (sweep_map AnalyticsPendingWindow.range PendingWindow.rangeStart PendingWindow.rangeEnd 0 _).symm

/-! ## §3. One run. -/

/-- All slices of the run go through. -/
def AllFolded (p : Run AnalyticsPendingWindow Instant × ℕ) : Prop :=
  ∀ j < (slicesOf c p.1).length, (w.attempt p.2 j).raised = none

/-- The slices of a run that are attempted. -/
def slicesTried (p : Run AnalyticsPendingWindow Instant × ℕ) : List ((Instant × Instant) × SliceAttempt) :=
  attempted (w.attempt p.2) SliceAttempt.raised 0 (slicesOf c p.1)

/-- What a run raised. -/
def foldVerdict (p : Run AnalyticsPendingWindow Instant × ℕ) : Option String :=
  firstRaised (w.attempt p.2) SliceAttempt.raised 0 (slicesOf c p.1)

/-- The slices of these attempts that committed. -/
def slicesFolded (as : List ((Instant × Instant) × SliceAttempt)) : List (Instant × Instant) :=
  (as.filter fun a => a.2.raised.isNone).map Prod.fst

theorem foldVerdict_eq_none {p : Run AnalyticsPendingWindow Instant × ℕ} :
    foldVerdict c w p = none ↔ AllFolded c w p := by
  unfold foldVerdict AllFolded
  rw [firstRaised_eq_none]
  simp only [Nat.zero_add]

/-- A run has a slice. -/
theorem slicesOf_ne_nil (r : Run AnalyticsPendingWindow Instant) : slicesOf c r ≠ [] := by
  unfold slicesOf splitRun
  split
  case isTrue => exact List.cons_ne_nil _ _
  case isFalse hwide =>
    have hmore : ∀ lo hi step : ℤ, ¬ (step ≤ 0 ∨ hi - lo ≤ step) → ¬ hi ≤ lo := by
      intro lo hi step h
      omega
    unfold slicesFrom
    rw [if_neg (hmore _ _ _ hwide)]
    exact List.cons_ne_nil _ _

/-- What the failure of a run is for its tickets, one after the other. -/
def failures (error : String) (i : ℕ) (tickets : List AnalyticsPendingWindow) :
    List (Batch AnalyticsPendingWindow UUID) :=
  tickets.map fun t => ⟨[], [t.id], AnalyticsPendingWindow.fail c error (w.now i) (w.retryAt i t) t⟩

/-- A run, as a batch. -/
def foldBatch (p : Run AnalyticsPendingWindow Instant × ℕ) : Batch AnalyticsPendingWindow UUID where
  inserted := (slicesTried c w p).flatMap fun a => a.2.arrivals
  keys := p.1.items.map AnalyticsPendingWindow.id
  change := match foldVerdict c w p with
    | none => AnalyticsPendingWindow.consume (w.now p.2)
    | some error => changed AnalyticsPendingWindow.id (failures c w error p.2 p.1.items)

theorem failures_separate (error : String) (i : ℕ) {tickets : List AnalyticsPendingWindow}
    (hids : (tickets.map AnalyticsPendingWindow.id).Nodup) :
    Separate AnalyticsPendingWindow.id (failures c w error i tickets) := by
  refine ⟨?_, ?_, ?_⟩
  · unfold failures
    rw [List.pairwise_map]
    have hpairs := List.pairwise_map.mp hids
    refine hpairs.imp fun hne k hk hk' => ?_
    exact hne ((List.mem_singleton.mp hk).symm.trans (List.mem_singleton.mp hk'))
  · intro b hb t
    obtain ⟨u, -, rfl⟩ := List.mem_map.mp hb
    rfl
  · intro b hb t ht
    obtain ⟨u, -, rfl⟩ := List.mem_map.mp hb
    exact absurd ht List.not_mem_nil

/-- The failure of a run is one update. -/
theorem recordFoldFailure_rows (error : String) (i : ℕ) {tickets : List AnalyticsPendingWindow}
    (hids : (tickets.map AnalyticsPendingWindow.id).Nodup) (rows : List AnalyticsPendingWindow) :
    (recordFoldFailure c tickets error (w.now i) (w.retryAt i) rows).1 =
      updateWhere AnalyticsPendingWindow.id (tickets.map AnalyticsPendingWindow.id)
        (changed AnalyticsPendingWindow.id (failures c w error i tickets)) rows := by
  -- the loop writes one ticket at a time, each an update of its own identifier
  have hfold : ∀ (ts : List AnalyticsPendingWindow) (rs : List AnalyticsPendingWindow),
      ts.foldl (fun rows t => updateWhere AnalyticsPendingWindow.id [t.id]
        (AnalyticsPendingWindow.fail c error (w.now i) (w.retryAt i t) t) rows) rs =
        (failures c w error i ts).foldl (fun rows b => b.apply AnalyticsPendingWindow.id rows) rs := by
    intro ts
    induction ts with
    | nil => exact fun _ => rfl
    | cons t ts ih =>
      intro rs
      have hcons : failures c w error i (t :: ts) =
          ⟨[], [t.id], AnalyticsPendingWindow.fail c error (w.now i) (w.retryAt i t) t⟩ ::
            failures c w error i ts := rfl
      rw [hcons, List.foldl_cons, List.foldl_cons, ih]
      unfold Batch.apply
      rw [List.append_nil]
  have hnone : (failures c w error i tickets).flatMap Batch.inserted = [] := by
    refine List.flatMap_eq_nil_iff.mpr fun b hb => ?_
    obtain ⟨u, -, rfl⟩ := List.mem_map.mp hb
    rfl
  show tickets.foldl _ rows = _
  rw [hfold, foldl_apply (failures_separate c w error i hids), hnone, List.append_nil]
  unfold updateWhere
  refine List.map_congr_left fun r _ => ?_
  by_cases hr : r.id ∈ tickets.map AnalyticsPendingWindow.id
  · rw [if_pos hr]
  · rw [if_neg hr]
    refine changed_of_none fun b hb hin => hr ?_
    obtain ⟨u, hu, rfl⟩ := List.mem_map.mp hb
    rw [List.mem_singleton.mp hin]
    exact List.mem_map_of_mem hu

/-- What a run leaves, from one slice on.  Only its last slice stamps. -/
theorem foldSlices_eq (i : ℕ) (tickets : List AnalyticsPendingWindow) {total j : ℕ} {ps : List (Instant × Instant)}
    (htotal : j + ps.length = total) (hne : ps ≠ []) (s : Consumption) :
    (foldSlices c w i tickets total j ps s).slices =
        s.slices ++ slicesFolded (attempted (w.attempt i) SliceAttempt.raised j ps) ∧
      (foldSlices c w i tickets total j ps s).rows =
        match firstRaised (w.attempt i) SliceAttempt.raised j ps with
        | none => updateWhere AnalyticsPendingWindow.id (tickets.map AnalyticsPendingWindow.id)
            (AnalyticsPendingWindow.consume (w.now i))
            (s.rows ++ (attempted (w.attempt i) SliceAttempt.raised j ps).flatMap fun a => a.2.arrivals)
        | some error => (recordFoldFailure c tickets error (w.now i) (w.retryAt i)
            (s.rows ++ (attempted (w.attempt i) SliceAttempt.raised j ps).flatMap fun a => a.2.arrivals)).1 := by
  induction ps generalizing j s with
  | nil => exact absurd rfl hne
  | cons p ps ih =>
    unfold foldSlices
    dsimp only
    cases hraised : (w.attempt i j).raised with
    | some error =>
      have hnone : slicesFolded [(p, w.attempt i j)] = [] := by
        unfold slicesFolded
        rw [List.filter_cons_of_neg (by rw [hraised]; exact Bool.false_ne_true)]
        rfl
      rw [attempted_cons_some hraised, firstRaised_cons_some hraised, hnone, List.append_nil, List.flatMap_cons,
        List.flatMap_nil, List.append_nil]
      exact ⟨rfl, rfl⟩
    | none =>
      have hown : ∀ as, slicesFolded ((p, w.attempt i j) :: as) = p :: slicesFolded as := by
        intro as
        unfold slicesFolded
        rw [List.filter_cons_of_pos (by rw [hraised]; rfl)]
        rfl
      rw [attempted_cons_none hraised, firstRaised_cons_none hraised, hown]
      cases ps with
      | nil =>
        -- the last slice claims the tickets
        have hlast : j = total - 1 := by
          rw [← htotal]
          rfl
        rw [if_pos hlast]
        unfold consumeRun foldSlices attempted firstRaised slicesFolded
        simp only [List.flatMap_cons, List.flatMap_nil, List.append_nil, List.filter_nil, List.map_nil]
        exact ⟨trivial, trivial⟩
      | cons q qs =>
        have hearlier : ¬ j = total - 1 := by
          rw [List.length_cons, List.length_cons] at htotal
          omega
        have hrest : j + 1 + (q :: qs).length = total := by
          rw [List.length_cons] at htotal
          omega
        have hkeep : (consumeRun (w.now i) p [] { s with rows := s.rows ++ (w.attempt i j).arrivals }) =
            { s with rows := s.rows ++ (w.attempt i j).arrivals, slices := s.slices ++ [p] } := by
          unfold consumeRun
          rw [List.map_nil, updateWhere_nil]
          rfl
        rw [if_neg hearlier, hkeep]
        obtain ⟨hslices, hrows⟩ := ih hrest (List.cons_ne_nil q qs)
          { s with rows := s.rows ++ (w.attempt i j).arrivals, slices := s.slices ++ [p] }
        rw [hslices, hrows, List.flatMap_cons, List.append_assoc, List.append_assoc]
        exact ⟨rfl, rfl⟩

/-- **One run leaves a batch, and its slices.** -/
theorem foldRun_eq (s : Consumption) {p : Run AnalyticsPendingWindow Instant × ℕ}
    (hids : (p.1.items.map AnalyticsPendingWindow.id).Nodup) :
    (foldRun c w s p).rows = (foldBatch c w p).apply AnalyticsPendingWindow.id s.rows ∧
      (foldRun c w s p).slices = s.slices ++ slicesFolded (slicesTried c w p) := by
  obtain ⟨hslices, hrows⟩ := foldSlices_eq c w p.2 p.1.items (Nat.zero_add _) (slicesOf_ne_nil c p.1) s
  refine ⟨?_, hslices⟩
  unfold foldRun Batch.apply foldBatch foldVerdict slicesTried
  rw [hrows]
  cases firstRaised (w.attempt p.2) SliceAttempt.raised 0 (slicesOf c p.1) with
  | none => rfl
  | some error => exact recordFoldFailure_rows c w error p.2 hids _

/-- The committed slices of a run are all of them exactly when none raised. -/
theorem slicesFolded_eq_all {p : Run AnalyticsPendingWindow Instant × ℕ} :
    slicesFolded (slicesTried c w p) = slicesOf c p.1 ↔ AllFolded c w p := by
  rw [← foldVerdict_eq_none]
  exact through_eq_iff

/-! ## §4. All runs. -/

/-- The runs, with their numbers. -/
def numberedRuns (rows : List AnalyticsPendingWindow) (dbNow : Instant) :
    List (Run AnalyticsPendingWindow Instant × ℕ) :=
  (dueRuns rows dbNow).zipIdx

/-- The tickets that are published during the pass. -/
def publishedMeanwhile (rows : List AnalyticsPendingWindow) (dbNow : Instant) : List AnalyticsPendingWindow :=
  (numberedRuns rows dbNow).flatMap fun p => (foldBatch c w p).inserted

/-- New tickets have new ids. -/
def FreshTickets (rows : List AnalyticsPendingWindow) : Prop :=
  ∀ i j, ∀ t ∈ (w.attempt i j).arrivals, ∀ u ∈ rows, t.id ≠ u.id

section Table

variable {rows : List AnalyticsPendingWindow} {dbNow : Instant}

/-- The tickets of the runs are the due ones, each in one run. -/
theorem dueRuns_items_perm :
    ((numberedRuns rows dbNow).flatMap fun p => p.1.items).Perm (rows.filter fun t => t.isDue dbNow) := by
  have hfst : ((numberedRuns rows dbNow).flatMap fun p => p.1.items) =
      (dueRuns rows dbNow).flatMap Run.items := by
    unfold numberedRuns
    rw [← List.flatMap_map, List.zipIdx_map_fst]
  rw [hfst]
  exact (sweep_laws _ _ _ _).once

variable (dbNow) in
theorem nodup_items (hids : (rows.map AnalyticsPendingWindow.id).Nodup) :
    (((numberedRuns rows dbNow).flatMap fun p => p.1.items).map AnalyticsPendingWindow.id).Nodup := by
  rw [(dueRuns_items_perm.map AnalyticsPendingWindow.id).nodup_iff]
  exact hids.sublist (List.filter_sublist.map _)

theorem nodup_items_run (hids : (rows.map AnalyticsPendingWindow.id).Nodup)
    {p : Run AnalyticsPendingWindow Instant × ℕ} (hp : p ∈ numberedRuns rows dbNow) :
    (p.1.items.map AnalyticsPendingWindow.id).Nodup := by
  have hall := nodup_items dbNow hids
  rw [List.map_flatMap, List.nodup_flatMap] at hall
  exact hall.1 p hp

theorem mem_due {p : Run AnalyticsPendingWindow Instant × ℕ} {t : AnalyticsPendingWindow}
    (hp : p ∈ numberedRuns rows dbNow) (ht : t ∈ p.1.items) : t ∈ rows ∧ t.isDue dbNow = true :=
  List.mem_filter.mp (dueRuns_items_perm.mem_iff.mp (List.mem_flatMap.mpr ⟨p, hp, ht⟩))

theorem consumeTenant_eq (hids : (rows.map AnalyticsPendingWindow.id).Nodup) :
    (consumeTenant c w rows dbNow).rows = ((numberedRuns rows dbNow).map (foldBatch c w)).foldl
        (fun rows b => b.apply AnalyticsPendingWindow.id rows) rows ∧
      (consumeTenant c w rows dbNow).slices =
        (numberedRuns rows dbNow).flatMap fun p => slicesFolded (slicesTried c w p) := by
  have hfold : ∀ (ps : List (Run AnalyticsPendingWindow Instant × ℕ)) (s : Consumption),
      (∀ p ∈ ps, (p.1.items.map AnalyticsPendingWindow.id).Nodup) →
        (ps.foldl (foldRun c w) s).rows =
            (ps.map (foldBatch c w)).foldl (fun rows b => b.apply AnalyticsPendingWindow.id rows) s.rows ∧
          (ps.foldl (foldRun c w) s).slices =
            s.slices ++ ps.flatMap fun p => slicesFolded (slicesTried c w p) := by
    intro ps
    induction ps with
    | nil => exact fun s _ => ⟨rfl, (List.append_nil _).symm⟩
    | cons p ps ih =>
      intro s hnodup
      obtain ⟨hrows, hslices⟩ := ih (foldRun c w s p) fun q hq => hnodup q (List.mem_cons_of_mem _ hq)
      obtain ⟨hbatch, hown⟩ := foldRun_eq c w s (hnodup p List.mem_cons_self)
      rw [List.foldl_cons, hrows, hslices, hbatch, hown, List.map_cons, List.foldl_cons, List.flatMap_cons,
        List.append_assoc]
      exact ⟨rfl, rfl⟩
  exact hfold _ { rows := rows } fun p hp => nodup_items_run hids hp

/-- **The runs are separate batches.** -/
theorem batchesOf_separate (hids : (rows.map AnalyticsPendingWindow.id).Nodup) (hfresh : FreshTickets w rows) :
    Separate AnalyticsPendingWindow.id ((numberedRuns rows dbNow).map (foldBatch c w)) := by
  refine ⟨?_, ?_, ?_⟩
  · have hall := nodup_items dbNow hids
    rw [List.map_flatMap, List.nodup_flatMap] at hall
    rw [List.pairwise_map]
    exact hall.2.imp fun hdisj i hi hi' => hdisj hi hi'
  · intro b hb t
    obtain ⟨p, hp, rfl⟩ := List.mem_map.mp hb
    show ((match foldVerdict c w p with
      | none => AnalyticsPendingWindow.consume (w.now p.2)
      | some error => changed AnalyticsPendingWindow.id (failures c w error p.2 p.1.items)) t).id = t.id
    cases foldVerdict c w p with
    | none => rfl
    | some error => exact key_changed (failures_separate c w error p.2 (nodup_items_run hids hp)).kept t
  · intro b hb t ht b' hb' hin
    obtain ⟨p, -, rfl⟩ := List.mem_map.mp hb
    obtain ⟨p', hp', rfl⟩ := List.mem_map.mp hb'
    obtain ⟨a, ha, hta⟩ := List.mem_flatMap.mp ht
    obtain ⟨u, hu, hid⟩ := List.mem_map.mp hin
    obtain ⟨k, hk⟩ := mem_attempted ha
    rw [hk] at hta
    exact hfresh p.2 k t hta u (mem_due hp' hu).1 hid.symm

/-! ## §5. The tickets. -/

/-- What the pass leaves of a ticket `t` of a run. -/
structure Charged (p : Run AnalyticsPendingWindow Instant × ℕ) (t t' : AnalyticsPendingWindow) : Prop where
  same : t'.id = t.id ∧ t'.range = t.range
  consumed : t'.consumedAt.isSome = true ↔ AllFolded c w p
  through : AllFolded c w p → t'.attempts = t.attempts ∧ t'.abandonedAt = none
  failed : ¬ AllFolded c w p →
    t'.attempts = t.attempts + 1 ∧ (t'.abandonedAt.isSome = true ↔ c.analyticsMaxAttempts ≤ t'.attempts)

theorem charged_change (hids : (rows.map AnalyticsPendingWindow.id).Nodup)
    {p : Run AnalyticsPendingWindow Instant × ℕ} {t : AnalyticsPendingWindow} (hp : p ∈ numberedRuns rows dbNow)
    (ht : t ∈ p.1.items) : Charged c w p t ((foldBatch c w p).change t) := by
  have hdue := (mem_due hp ht).2
  simp only [AnalyticsPendingWindow.isDue, Bool.and_eq_true, Option.isNone_iff_eq_none] at hdue
  obtain ⟨⟨hopen, hlive⟩, -⟩ := hdue
  have hthrough := foldVerdict_eq_none c w (p := p)
  cases hverdict : foldVerdict c w p with
  | none =>
    have hchange : (foldBatch c w p).change t = t.consume (w.now p.2) := by
      unfold foldBatch
      rw [hverdict]
    have hall := hthrough.mp hverdict
    rw [hchange]
    exact ⟨⟨rfl, rfl⟩, ⟨fun _ => hall, fun _ => rfl⟩, fun _ => ⟨rfl, hlive⟩, fun h => absurd hall h⟩
  | some error =>
    have hnot : ¬ AllFolded c w p := by
      intro h
      rw [hthrough.mpr h] at hverdict
      cases hverdict
    -- the update of the ticket is the one that was made for it
    have hchange : (foldBatch c w p).change t = t.fail c error (w.now p.2) (w.retryAt p.2 t) t := by
      unfold foldBatch
      rw [hverdict]
      exact changed_eq (failures_separate c w error p.2 (nodup_items_run hids hp)).keys
        (List.mem_map_of_mem ht) (List.mem_singleton_self t.id)
    rw [hchange]
    refine ⟨⟨rfl, rfl⟩, ⟨fun h => ?_, fun h => absurd h hnot⟩, fun h => absurd h hnot, fun _ => ⟨rfl, ?_⟩⟩
    · have hkept : (t.fail c error (w.now p.2) (w.retryAt p.2 t) t).consumedAt = none := hopen
      rw [hkept] at h
      cases h
    · show (if decide (c.analyticsMaxAttempts ≤ t.attempts + 1) then some (w.now p.2) else none).isSome = true ↔
        c.analyticsMaxAttempts ≤ t.attempts + 1
      by_cases hcap : c.analyticsMaxAttempts ≤ t.attempts + 1
      · rw [decide_eq_true hcap]
        exact ⟨fun _ => hcap, fun _ => rfl⟩
      · rw [decide_eq_false hcap]
        exact ⟨nofun, fun h => absurd h hcap⟩

variable (rows dbNow)

/-- **The tickets of the pass are consumed with their last slice, or charged.** -/
theorem tickets_consumed (hids : (rows.map AnalyticsPendingWindow.id).Nodup) (hfresh : FreshTickets w rows) :
    ((numberedRuns rows dbNow).flatMap fun p => p.1.items).Perm (rows.filter fun t => t.isDue dbNow) ∧
      ((consumeTenant c w rows dbNow).slices =
        (numberedRuns rows dbNow).flatMap fun p => slicesFolded (slicesTried c w p)) ∧
      (∀ p ∈ numberedRuns rows dbNow, slicesFolded (slicesTried c w p) = slicesOf c p.1 ↔ AllFolded c w p) ∧
      ∃ after : AnalyticsPendingWindow → AnalyticsPendingWindow,
        (consumeTenant c w rows dbNow).rows = rows.map after ++ publishedMeanwhile c w rows dbNow ∧
          (∀ p ∈ numberedRuns rows dbNow, ∀ t ∈ p.1.items, Charged c w p t (after t)) ∧
          ∀ t ∈ rows, t.isDue dbNow = false → after t = t := by
  have hsep : Separate AnalyticsPendingWindow.id ((numberedRuns rows dbNow).map (foldBatch c w)) :=
    batchesOf_separate c w hids hfresh
  have hinserted : ((numberedRuns rows dbNow).map (foldBatch c w)).flatMap Batch.inserted =
      publishedMeanwhile c w rows dbNow := List.flatMap_map ..
  refine ⟨dueRuns_items_perm, (consumeTenant_eq c w hids).2, fun p _ => slicesFolded_eq_all c w,
    changed AnalyticsPendingWindow.id ((numberedRuns rows dbNow).map (foldBatch c w)), ?_, ?_, ?_⟩
  · rw [(consumeTenant_eq c w hids).1, foldl_separate hsep, hinserted]
  · intro p hp t ht
    rw [changed_eq hsep.keys (List.mem_map_of_mem hp) (List.mem_map_of_mem ht)]
    exact charged_change c w hids hp ht
  · intro t ht hnot
    refine changed_of_none fun b hb hin => ?_
    obtain ⟨p, hp, rfl⟩ := List.mem_map.mp hb
    obtain ⟨u, hu, hid⟩ := List.mem_map.mp hin
    obtain ⟨hmem, hdue⟩ := mem_due hp hu
    rw [List.inj_on_of_nodup_map hids hmem ht hid, hnot] at hdue
    cases hdue

end Table

/-- Two tickets that overlap, one that stands apart, and one that is published while they are folded. -/
def openTickets : List AnalyticsPendingWindow :=
  [{ id := 1, range := ⟨0, 40, false⟩, availableAt := 0 }, { id := 2, range := ⟨30, 60, false⟩, availableAt := 0 },
    { id := 3, range := ⟨100, 120, false⟩, attempts := 4, availableAt := 0 }]

/-- The second run raises. -/
def secondRunFails : FoldWorld where
  attempt i _ := match i with
    | 0 => { arrivals := [{ id := 9, range := ⟨10, 20, false⟩, availableAt := 0 }] }
    | _ => { raised := some "TimeoutError" }
  now _ := 200
  retryAt _ _ := 300

theorem tickets_consumed_secondRunFails :
    ∃ after : AnalyticsPendingWindow → AnalyticsPendingWindow,
      (consumeTenant {} secondRunFails openTickets 150).rows =
          openTickets.map after ++ publishedMeanwhile {} secondRunFails openTickets 150 ∧
        ∀ p ∈ numberedRuns openTickets 150, ∀ t ∈ p.1.items, Charged {} secondRunFails p t (after t) := by
  have hfresh : FreshTickets secondRunFails openTickets := by
    intro i j t ht u hu
    cases i with
    | zero =>
      rw [List.mem_singleton.mp ht]
      revert u
      decide
    | succ i => exact absurd ht List.not_mem_nil
  obtain ⟨-, -, -, after, hrows, hitems, -⟩ :=
    tickets_consumed {} secondRunFails openTickets 150 (by decide) hfresh
  exact ⟨after, hrows, hitems⟩

end RagPipeline.Queueing
