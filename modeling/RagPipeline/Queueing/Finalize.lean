/-
  RagPipeline.Queueing.Finalize — `finalize_pending`, one pass over the open tickets of Stage 2.

  The due tickets are coalesced into runs and each run is split into windows.  A window commits on its own;
  a run whose windows all went through has its tickets stamped consumed, and a run that raised has its
  tickets put back, or abandoned.  What each window does is given by `WindowAttempt`: how far it got, and
  which tickets were published meanwhile.  The bookkeeping writes succeed.

    * `isTransient`        — the retry policy, over the causes of an exception;
    * `stitchWindows`      — the windows of a run, up to the first that raises;
    * `finalizePending`    — the pass;
    * `rows_finalize`      — what it leaves of each ticket;
    * `tickets_accounted`  — so the accounting, where a ticket is consumed once all windows of its run are
                             committed.  In shadow mode a window also compares after its commit, and a comparison
                             that raises there fails a run whose windows are all committed.
-/
import RagPipeline.Lib.Attempts
import RagPipeline.Lib.KeyedRows
import RagPipeline.Queueing.Coalesce

namespace RagPipeline.Queueing

open RagPipeline.Lib RagPipeline.Stage2 RagPipeline.Analytics

/-! ## §1. The retry policy. -/

/-- What the rules find in one exception of a cause chain. -/
structure Raised where
  diskOrTimeout : Bool := false
  permanentType : Bool := false
  transientType : Bool := false
  deriving DecidableEq, Repr

/-- `_classify`: the first rule that matches decides. -/
def classify (e : Raised) : Option Bool :=
  if e.diskOrTimeout then some true
  else if e.permanentType then some false
  else if e.transientType then some true
  else none

/-- An exception: it and its causes, its `str`, and `disk_io_detail`. -/
structure Failure where
  chain : List Raised
  text : String := ""
  detail : String := ""
  deriving DecidableEq, Repr

/-- `is_transient`: an unrecognised error is worth another attempt. -/
def isTransient (e : Failure) : Bool := (e.chain.findSome? classify).getD true

/-- `is_disk_io_error`. -/
def Failure.isDisk (e : Failure) : Bool := e.chain.head?.any Raised.diskOrTimeout

/-- `err_text`. -/
def Failure.message (e : Failure) : String :=
  ((if e.isDisk then "disk fault: " ++ e.detail else e.text).take 2000).toString

/-! ## §2. The rows of a run. -/

/-- The settings of the pass. -/
structure FinalizeSettings where
  stage2 : Settings := {}
  logRegroupMaxWindow : Duration := 6 * 3600 * second
  logRegroupMaxAttempts : ℕ := 3

/-- The WHERE clause of the first SELECT. -/
def RegroupPending.isDue (t : RegroupPending) (dbNow : Instant) : Bool :=
  t.consumedAt.isNone && t.abandonedAt.isNone && decide (t.availableAt ≤ dbNow)

/-- The row of a run that finished. -/
def RegroupPending.consume (now : Instant) (t : RegroupPending) : RegroupPending :=
  { t with consumedAt := some now }

/-- `attempts`, `last_error`, `last_attempt_at`. -/
def RegroupPending.bump (e : Failure) (now : Instant) (t : RegroupPending) : RegroupPending :=
  { t with attempts := t.attempts + 1, lastError := some e.message, lastAttemptAt := some now }

/-- `available_at`; `retryAt` is the clock of the database plus the backoff. -/
def RegroupPending.postpone (retryAt : Instant) (t : RegroupPending) : RegroupPending :=
  { t with availableAt := retryAt }

/-- The condition of the last UPDATE. -/
def RegroupPending.isSpent (c : FinalizeSettings) (e : Failure) (t : RegroupPending) : Bool :=
  !isTransient e || decide (c.logRegroupMaxAttempts ≤ t.attempts)

/-- `abandoned_at`, where the condition holds. -/
def RegroupPending.abandon (c : FinalizeSettings) (e : Failure) (now : Instant) (t : RegroupPending) :
    RegroupPending :=
  if t.isSpent c e then { t with abandonedAt := some now } else t

/-- The three UPDATEs after a failure, and how many rows the last one changed. -/
def recordFailure (c : FinalizeSettings) (ids : List UUID) (e : Failure) (now retryAt : Instant)
    (rows : List RegroupPending) : List RegroupPending × ℕ :=
  let rows := updateWhere RegroupPending.id ids (RegroupPending.bump e now) rows
  let rows := if isTransient e then updateWhere RegroupPending.id ids (RegroupPending.postpone retryAt) rows
    else rows
  (updateWhere RegroupPending.id ids (RegroupPending.abandon c e now) rows,
    (rows.filter fun t => decide (t.id ∈ ids) && t.isSpent c e).length)

/-! ## §3. The pass. -/

/-- How a window goes: the plan of the head lane, its application, the rebuild and the comparison, each with
    what it raises; and the tickets that are published while it runs. -/
structure WindowAttempt where
  arrivals : List RegroupPending := []
  plan : Except Failure Bool := .ok false
  apply : Option Failure := none
  rebuild : Option Failure := none
  compare : Option Failure := none

/-- One window: whether it committed, and what it raised. -/
def WindowAttempt.outcome (mode : Mode) (a : WindowAttempt) : Bool × Option Failure :=
  match (if mode = .off then .ok false else a.plan : Except Failure Bool) with
  | .error e => (false, some e)
  | .ok ok =>
      if ok = true ∧ mode = .on then
        match a.apply with
        | some e => (false, some e)
        | none => (true, none)
      else
        match a.rebuild with
        | some e => (false, some e)
        | none => (true, if ok = true ∧ mode = .shadow then a.compare else none)

/-- An entry of `failures`. -/
structure RunFailure where
  windowStart : Instant
  windowEnd : Instant
  error : String
  ioError : Bool
  abandoned : Bool
  deriving DecidableEq, Repr

/-- The tables, the windows that are committed, and what is returned. -/
structure Pass where
  rows : List RegroupPending
  windows : List (Instant × Instant) := []
  pendingConsumed : ℕ := 0
  abandoned : ℕ := 0
  failures : List RunFailure := []

/-- What the pass meets: the `j`-th window of the `i`-th run, and the clocks after the run. -/
structure PassWorld where
  attempt : ℕ → ℕ → WindowAttempt
  now : ℕ → Instant
  retryAt : ℕ → Instant

variable (c : FinalizeSettings) (w : PassWorld)

/-- The windows of the `i`-th run from the `j`-th on. -/
def stitchWindows (i : ℕ) : ℕ → List (Instant × Instant) → Pass → Pass × Option Failure
  | _, [], s => (s, none)
  | j, p :: ps, s =>
      let a := w.attempt i j
      let out := a.outcome c.stage2.headLane
      let s := { s with
        rows := s.rows ++ a.arrivals
        windows := s.windows ++ if out.1 then [p] else [] }
      match out.2 with
      | some e => (s, some e)
      | none => stitchWindows i (j + 1) ps s

/-- The windows of a run. -/
def windowsOf (r : Run RegroupPending Instant) : List (Instant × Instant) :=
  splitRun r.lo r.hi c.logRegroupMaxWindow

/-- The `i`-th run. -/
def finalizeRun (s : Pass) (p : Run RegroupPending Instant × ℕ) : Pass :=
  let (r, i) := p
  let ids := r.items.map RegroupPending.id
  match stitchWindows c w i 0 (windowsOf c r) s with
  | (s, none) =>
      { s with
        rows := updateWhere RegroupPending.id ids (RegroupPending.consume (w.now i)) s.rows
        pendingConsumed := s.pendingConsumed + r.items.length }
  | (s, some e) =>
      let (rows, newly) := recordFailure c ids e (w.now i) (w.retryAt i) s.rows
      { s with
        rows := rows
        abandoned := s.abandoned + newly
        failures := s.failures ++ [⟨r.lo, r.hi, e.message, e.isDisk, decide (0 < newly)⟩] }

/-- The runs of the due tickets. -/
def runsOf (rows : List RegroupPending) (dbNow : Instant) : List (Run RegroupPending Instant) :=
  coalescePending (rows.filter fun t => t.isDue dbNow) (2 * c.stage2.pad)

/-- **`finalize_pending`.** -/
def finalizePending (rows : List RegroupPending) (dbNow : Instant) : Pass :=
  (runsOf c rows dbNow).zipIdx.foldl (finalizeRun c w) { rows := rows }

/-! ## §4. One run. -/

/-- What a window raised. -/
def raisedIn (a : WindowAttempt) : Option Failure := (a.outcome c.stage2.headLane).2

/-- The windows of the `i`-th run that are attempted. -/
def attemptedIn (p : Run RegroupPending Instant × ℕ) : List ((Instant × Instant) × WindowAttempt) :=
  attempted (w.attempt p.2) (raisedIn c) 0 (windowsOf c p.1)

/-- What the run raised. -/
def runVerdict (p : Run RegroupPending Instant × ℕ) : Option Failure :=
  firstRaised (w.attempt p.2) (raisedIn c) 0 (windowsOf c p.1)

/-- The windows of these attempts that committed. -/
def committedOf (as : List ((Instant × Instant) × WindowAttempt)) : List (Instant × Instant) :=
  (as.filter fun a => (a.2.outcome c.stage2.headLane).1).map Prod.fst

/-- A run leaves the windows it attempted, and the tickets published in them. -/
theorem stitchWindows_eq (i j : ℕ) (ps : List (Instant × Instant)) (s : Pass) :
    stitchWindows c w i j ps s =
      ({ s with
          rows := s.rows ++ (attempted (w.attempt i) (raisedIn c) j ps).flatMap fun a => a.2.arrivals
          windows := s.windows ++ committedOf c (attempted (w.attempt i) (raisedIn c) j ps) },
        firstRaised (w.attempt i) (raisedIn c) j ps) := by
  induction ps generalizing j s with
  | nil =>
    unfold stitchWindows attempted firstRaised committedOf
    simp only [List.flatMap_nil, List.append_nil, List.filter_nil, List.map_nil]
  | cons p ps ih =>
    have hsplit : ∀ as, committedOf c ((p, w.attempt i j) :: as) =
        (if ((w.attempt i j).outcome c.stage2.headLane).1 then [p] else []) ++ committedOf c as := by
      intro as
      unfold committedOf
      rw [List.filter_cons]
      split
      · rfl
      · rfl
    have hnil : committedOf c [] = [] := rfl
    unfold stitchWindows
    dsimp only
    cases hout : ((w.attempt i j).outcome c.stage2.headLane).2 with
    | some e =>
      have hraised : raisedIn c (w.attempt i j) = some e := hout
      simp only [attempted_cons_some hraised, firstRaised_cons_some hraised, List.flatMap_cons, List.flatMap_nil,
        List.append_nil, hsplit, hnil]
    | none =>
      have hraised : raisedIn c (w.attempt i j) = none := hout
      simp only [ih, attempted_cons_none hraised, firstRaised_cons_none hraised, List.flatMap_cons, List.append_assoc,
        hsplit]

/-- A window that raised nothing committed. -/
theorem outcome_committed {mode : Mode} {a : WindowAttempt} (h : (a.outcome mode).2 = none) :
    a.outcome mode = (true, none) := by
  unfold WindowAttempt.outcome at h ⊢
  split at h
  · cases h
  · split at h
    · split at h
      · cases h
      · simp_all
    · split at h
      · cases h
      · simp_all

/-- The windows of a run all went through: each committed, and nothing was raised. -/
def AllThrough (p : Run RegroupPending Instant × ℕ) : Prop :=
  ∀ j < (windowsOf c p.1).length, (w.attempt p.2 j).outcome c.stage2.headLane = (true, none)

theorem runVerdict_eq_none {p : Run RegroupPending Instant × ℕ} : runVerdict c w p = none ↔ AllThrough c w p := by
  unfold runVerdict AllThrough
  rw [firstRaised_eq_none]
  simp only [Nat.zero_add]
  refine forall₂_congr fun k _ => ⟨outcome_committed, fun h => ?_⟩
  exact congrArg Prod.snd h

/-- What a run that raised leaves of a ticket. -/
def RegroupPending.fail (e : Failure) (now retryAt : Instant) (t : RegroupPending) : RegroupPending :=
  let t := t.bump e now
  (if isTransient e then t.postpone retryAt else t).abandon c e now

/-- A run, as a batch: the tickets published in it, and what becomes of its own. -/
def batchOf (p : Run RegroupPending Instant × ℕ) : Batch RegroupPending UUID where
  inserted := (attemptedIn c w p).flatMap fun a => a.2.arrivals
  keys := p.1.items.map RegroupPending.id
  change := match runVerdict c w p with
    | none => RegroupPending.consume (w.now p.2)
    | some e => RegroupPending.fail c e (w.now p.2) (w.retryAt p.2)

theorem id_fail (e : Failure) (now retryAt : Instant) (t : RegroupPending) : (t.fail c e now retryAt).id = t.id := by
  unfold RegroupPending.fail RegroupPending.abandon
  dsimp only
  split
  · split <;> rfl
  · split <;> rfl

theorem recordFailure_rows (ids : List UUID) (e : Failure) (now retryAt : Instant) (rows : List RegroupPending) :
    (recordFailure c ids e now retryAt rows).1 =
      updateWhere RegroupPending.id ids (RegroupPending.fail c e now retryAt) rows := by
  have hbump : ∀ t : RegroupPending, (t.bump e now).id = t.id := fun _ => rfl
  have hpostponed : ∀ t : RegroupPending, ((t.bump e now).postpone retryAt).id = t.id := fun _ => rfl
  unfold recordFailure RegroupPending.fail
  dsimp only
  cases isTransient e with
  | true => simp only [if_true, updateWhere_comp hbump, updateWhere_comp hpostponed]
  | false => simp only [Bool.false_eq_true, if_false, updateWhere_comp hbump]

/-- **One run leaves a batch, and its windows.** -/
theorem finalizeRun_eq (s : Pass) (p : Run RegroupPending Instant × ℕ) :
    (finalizeRun c w s p).rows = (batchOf c w p).apply RegroupPending.id s.rows ∧
      (finalizeRun c w s p).windows = s.windows ++ committedOf c (attemptedIn c w p) := by
  obtain ⟨r, i⟩ := p
  unfold finalizeRun batchOf Batch.apply runVerdict attemptedIn
  dsimp only
  rw [stitchWindows_eq]
  cases firstRaised (w.attempt i) (raisedIn c) 0 (windowsOf c r) with
  | none => exact ⟨rfl, rfl⟩
  | some e => exact ⟨recordFailure_rows c _ e _ _ _, rfl⟩

/-! ## §5. All runs. -/

/-- The runs, with their numbers. -/
def numbered (rows : List RegroupPending) (dbNow : Instant) : List (Run RegroupPending Instant × ℕ) :=
  (runsOf c rows dbNow).zipIdx

/-- The tickets that are published during the pass. -/
def published (rows : List RegroupPending) (dbNow : Instant) : List RegroupPending :=
  (numbered c rows dbNow).flatMap fun p => (batchOf c w p).inserted

theorem finalizePending_eq (rows : List RegroupPending) (dbNow : Instant) :
    (finalizePending c w rows dbNow).rows =
        ((numbered c rows dbNow).map (batchOf c w)).foldl (fun rows b => b.apply RegroupPending.id rows) rows ∧
      (finalizePending c w rows dbNow).windows = (numbered c rows dbNow).flatMap fun p =>
        committedOf c (attemptedIn c w p) := by
  have hfold : ∀ (ps : List (Run RegroupPending Instant × ℕ)) (s : Pass),
      (ps.foldl (finalizeRun c w) s).rows =
          (ps.map (batchOf c w)).foldl (fun rows b => b.apply RegroupPending.id rows) s.rows ∧
        (ps.foldl (finalizeRun c w) s).windows =
          s.windows ++ ps.flatMap fun p => committedOf c (attemptedIn c w p) := by
    intro ps
    induction ps with
    | nil => exact fun s => ⟨rfl, (List.append_nil _).symm⟩
    | cons p ps ih =>
      intro s
      obtain ⟨hrows, hwindows⟩ := ih (finalizeRun c w s p)
      obtain ⟨hbatch, hown⟩ := finalizeRun_eq c w s p
      rw [List.foldl_cons, hrows, hwindows, hbatch, hown, List.map_cons, List.foldl_cons, List.flatMap_cons,
        List.append_assoc]
      exact ⟨rfl, rfl⟩
  exact hfold _ { rows := rows }

section Table

variable {rows : List RegroupPending} {dbNow : Instant}

/-- A run has a ticket. -/
theorem items_ne_nil {p : Run RegroupPending Instant × ℕ} (hp : p ∈ numbered c rows dbNow) : p.1.items ≠ [] := by
  have hrun : p.1 ∈ runsOf c rows dbNow := by
    rw [← List.zipIdx_map_fst 0 (runsOf c rows dbNow)]
    exact List.mem_map_of_mem hp
  exact (sweep_laws RegroupPending.rangeStart RegroupPending.rangeEnd (2 * c.stage2.pad) _).filled p.1 hrun

/-- The tickets of the runs are the due ones, each in one run. -/
theorem runs_items_perm :
    ((numbered c rows dbNow).flatMap fun p => p.1.items).Perm (rows.filter fun t => t.isDue dbNow) := by
  have hfst : ((numbered c rows dbNow).flatMap fun p => p.1.items) =
      (runsOf c rows dbNow).flatMap Run.items := by
    unfold numbered
    rw [← List.flatMap_map, List.zipIdx_map_fst]
  rw [hfst]
  exact (sweep_laws _ _ _ _).once

/-- New tickets have new ids. -/
def FreshIds (rows : List RegroupPending) : Prop :=
  ∀ i j, ∀ t ∈ (w.attempt i j).arrivals, ∀ u ∈ rows, t.id ≠ u.id

/-- **The runs are separate batches.** -/
theorem separate_batches (hids : (rows.map RegroupPending.id).Nodup) (hfresh : FreshIds w rows) :
    Separate RegroupPending.id ((numbered c rows dbNow).map (batchOf c w)) := by
  -- the runs are a partition of the due tickets, and what arrives meanwhile has new ids
  have hperm : ((numbered c rows dbNow).flatMap fun p => p.1.items).Perm (rows.filter fun t => t.isDue dbNow) :=
    runs_items_perm c
  have hnodup : (((numbered c rows dbNow).flatMap fun p => p.1.items).map RegroupPending.id).Nodup := by
    rw [(hperm.map _).nodup_iff]
    exact hids.sublist (List.filter_sublist.map _)
  have hmem : ∀ p ∈ numbered c rows dbNow, ∀ t ∈ p.1.items, t ∈ rows := by
    intro p hp t ht
    exact (List.mem_filter.mp (hperm.mem_iff.mp (List.mem_flatMap.mpr ⟨p, hp, ht⟩))).1
  refine ⟨?_, ?_, ?_⟩
  · rw [List.pairwise_map]
    rw [List.map_flatMap, List.nodup_flatMap] at hnodup
    exact hnodup.2.imp fun hdisj i hi hi' => hdisj hi hi'
  · intro b hb t
    obtain ⟨p, -, rfl⟩ := List.mem_map.mp hb
    show ((match runVerdict c w p with
      | none => RegroupPending.consume (w.now p.2)
      | some e => RegroupPending.fail c e (w.now p.2) (w.retryAt p.2)) t).id = t.id
    cases runVerdict c w p with
    | none => rfl
    | some e => exact id_fail c e _ _ t
  · intro b hb t ht b' hb' hin
    obtain ⟨p, -, rfl⟩ := List.mem_map.mp hb
    obtain ⟨p', hp', rfl⟩ := List.mem_map.mp hb'
    obtain ⟨a, ha, hta⟩ := List.mem_flatMap.mp ht
    obtain ⟨u, hu, hid⟩ := List.mem_map.mp hin
    obtain ⟨k, hk⟩ := mem_attempted ha
    rw [hk] at hta
    exact hfresh p.2 k t hta u (hmem p' hp' u hu) hid.symm

/-- The last window of a run is committed, and then the comparison of the shadow mode raises. -/
def ComparedLate (p : Run RegroupPending Instant × ℕ) : Prop :=
  c.stage2.headLane = .shadow ∧ ∃ n, (windowsOf c p.1).length = n + 1 ∧
    (∀ k < n, raisedIn c (w.attempt p.2 k) = none) ∧
    (w.attempt p.2 n).plan = .ok true ∧ (w.attempt p.2 n).rebuild = none ∧ (w.attempt p.2 n).compare ≠ none

/-- A window is committed and raises all the same only in its comparison. -/
theorem outcome_late {mode : Mode} {a : WindowAttempt} :
    ((a.outcome mode).2.isSome = true ∧ (a.outcome mode).1 = true) ↔
      mode = .shadow ∧ a.plan = .ok true ∧ a.rebuild = none ∧ a.compare ≠ none := by
  obtain ⟨arrivals, plan, apply, rebuild, compare⟩ := a
  unfold WindowAttempt.outcome
  cases mode with
  | off => cases rebuild <;> simp
  | on =>
    cases plan with
    | error e => simp
    | ok ok => cases ok <;> cases apply <;> cases rebuild <;> simp
  | shadow =>
    cases plan with
    | error e => simp
    | ok ok => cases ok <;> cases rebuild <;> cases compare <;> simp

/-- **All windows of a run are committed when it raised nothing, or only in its last comparison.** -/
theorem committed_all_iff {p : Run RegroupPending Instant × ℕ} :
    committedOf c (attemptedIn c w p) = windowsOf c p.1 ↔ runVerdict c w p = none ∨ ComparedLate c w p := by
  have hdone : ∀ a : WindowAttempt, raisedIn c a = none → (a.outcome c.stage2.headLane).1 = true := by
    intro a h
    rw [outcome_committed h]
  unfold committedOf attemptedIn runVerdict ComparedLate
  refine (done_eq_iff hdone).trans (or_congr Iff.rfl ?_)
  simp only [Nat.zero_add]
  constructor
  · rintro ⟨n, hlen, hbefore, hlast⟩
    obtain ⟨hmode, hcompared⟩ := outcome_late.mp hlast
    exact ⟨hmode, n, hlen, hbefore, hcompared⟩
  · rintro ⟨hmode, n, hlen, hbefore, hcompared⟩
    exact ⟨n, hlen, hbefore, outcome_late.mpr ⟨hmode, hcompared⟩⟩

theorem ComparedLate.raised {p : Run RegroupPending Instant × ℕ} (h : ComparedLate c w p) :
    ∃ e, runVerdict c w p = some e := by
  obtain ⟨hmode, n, hlen, -, hcompared⟩ := h
  cases hverdict : runVerdict c w p with
  | some e => exact ⟨e, rfl⟩
  | none =>
    have hlast := (runVerdict_eq_none c w).mp hverdict n (hlen ▸ Nat.lt_succ_self n)
    have hsome := (outcome_late.mpr ⟨hmode, hcompared⟩).1
    rw [hlast] at hsome
    cases hsome

/-! ## §6. The tickets. -/

/-- What the accounting owes a ticket `t` of a run, of which the pass leaves `t'`. -/
structure Accounted (p : Run RegroupPending Instant × ℕ) (t t' : RegroupPending) : Prop where
  same : t'.id = t.id ∧ t'.rangeStart = t.rangeStart ∧ t'.rangeEnd = t.rangeEnd
  /-- consumed once every window of its run is committed -/
  consumed : t'.consumedAt.isSome = true ↔ committedOf c (attemptedIn c w p) = windowsOf c p.1
  kept : runVerdict c w p = none → t'.attempts = t.attempts ∧ t'.abandonedAt = none
  failed : ∀ e, runVerdict c w p = some e →
    t'.attempts = t.attempts + 1 ∧
      (t'.abandonedAt.isSome = true ↔ isTransient e = false ∨ c.logRegroupMaxAttempts ≤ t'.attempts)

/-- What a failure leaves of an open ticket. -/
theorem fail_open (e : Failure) (now retryAt : Instant) {t : RegroupPending} (hopen : t.consumedAt = none)
    (hlive : t.abandonedAt = none) :
    ((t.fail c e now retryAt).id = t.id ∧ (t.fail c e now retryAt).rangeStart = t.rangeStart ∧
        (t.fail c e now retryAt).rangeEnd = t.rangeEnd) ∧
      (t.fail c e now retryAt).consumedAt = none ∧ (t.fail c e now retryAt).attempts = t.attempts + 1 ∧
      ((t.fail c e now retryAt).abandonedAt.isSome = true ↔
        isTransient e = false ∨ c.logRegroupMaxAttempts ≤ t.attempts + 1) := by
  -- a failure counts once, whether or not the ticket is put back
  have hput : ∃ u : RegroupPending, t.fail c e now retryAt = u.abandon c e now ∧
      u.consumedAt = none ∧ u.abandonedAt = none ∧ u.attempts = t.attempts + 1 ∧
        u.id = t.id ∧ u.rangeStart = t.rangeStart ∧ u.rangeEnd = t.rangeEnd := by
    unfold RegroupPending.fail
    dsimp only
    split
    · exact ⟨_, rfl, hopen, hlive, rfl, rfl, rfl, rfl⟩
    · exact ⟨_, rfl, hopen, hlive, rfl, rfl, rfl, rfl⟩
  obtain ⟨u, hu, huopen, hulive, hatt, hid, hstart, hend⟩ := hput
  have hspent : u.isSpent c e = true ↔ isTransient e = false ∨ c.logRegroupMaxAttempts ≤ t.attempts + 1 := by
    unfold RegroupPending.isSpent
    rw [hatt]
    simp
  rw [hu, ← hspent]
  unfold RegroupPending.abandon
  by_cases h : u.isSpent c e = true
  · rw [if_pos h]
    exact ⟨⟨hid, hstart, hend⟩, huopen, hatt, fun _ => h, fun _ => rfl⟩
  · rw [if_neg h]
    refine ⟨⟨hid, hstart, hend⟩, huopen, hatt, fun hsome => ?_, fun hspent => absurd hspent h⟩
    rw [hulive] at hsome
    cases hsome

/-- A batch gives a due ticket what it is owed, unless its run was compared too late. -/
theorem accounted_change_iff {p : Run RegroupPending Instant × ℕ} {t : RegroupPending}
    (hdue : t.isDue dbNow = true) :
    Accounted c w p t ((batchOf c w p).change t) ↔ ¬ ComparedLate c w p := by
  simp only [RegroupPending.isDue, Bool.and_eq_true, Option.isNone_iff_eq_none] at hdue
  obtain ⟨⟨hopen, hlive⟩, -⟩ := hdue
  cases hverdict : runVerdict c w p with
  | none =>
    have hchange : (batchOf c w p).change t = t.consume (w.now p.2) := by
      unfold batchOf
      rw [hverdict]
    have hnot : ¬ ComparedLate c w p := by
      intro h
      obtain ⟨e, he⟩ := h.raised c w
      rw [hverdict] at he
      cases he
    rw [hchange]
    refine iff_of_true ⟨⟨rfl, rfl, rfl⟩, ⟨fun _ => ?_, fun _ => rfl⟩, fun _ => ⟨rfl, hlive⟩, fun e he => ?_⟩ hnot
    · exact (committed_all_iff c w).mpr (.inl hverdict)
    · rw [hverdict] at he
      cases he
  | some e =>
    have hchange : (batchOf c w p).change t = t.fail c e (w.now p.2) (w.retryAt p.2) := by
      unfold batchOf
      rw [hverdict]
    -- a failed run leaves the ticket open, so only a run whose windows all committed contradicts it
    obtain ⟨hsame, hkept, hcount, hspent⟩ := fail_open c e (w.now p.2) (w.retryAt p.2) hopen hlive
    rw [← hchange] at hsame hkept hcount hspent
    have hall := committed_all_iff c w (p := p)
    rw [hverdict] at hall
    constructor
    · intro haccounted hlate
      have hconsumed := haccounted.consumed.mpr (hall.mpr (.inr hlate))
      rw [hkept] at hconsumed
      cases hconsumed
    · intro hnot
      refine ⟨hsame, ⟨fun h => ?_, fun h => ?_⟩, fun h => ?_, fun e' he' => ⟨hcount, ?_⟩⟩
      · rw [hkept] at h
        cases h
      · cases hall.mp h with
        | inl hnone => cases hnone
        | inr hlate => exact absurd hlate hnot
      · rw [hverdict] at h
        cases h
      · cases Option.some.inj (hverdict.symm.trans he')
        rw [hspent, hcount]

variable (rows dbNow)

/-- **The pass leaves of each row what its batch makes of it**, and the published tickets. -/
theorem rows_finalize (hids : (rows.map RegroupPending.id).Nodup) (hfresh : FreshIds w rows) :
    ∃ after : RegroupPending → RegroupPending,
      (finalizePending c w rows dbNow).rows = rows.map after ++ published c w rows dbNow ∧
        (∀ p ∈ numbered c rows dbNow, ∀ t ∈ p.1.items, after t = (batchOf c w p).change t) ∧
        ∀ t ∈ rows, t.isDue dbNow = false → after t = t := by
  have hsep : Separate RegroupPending.id ((numbered c rows dbNow).map (batchOf c w)) :=
    separate_batches c w hids hfresh
  have hperm : ((numbered c rows dbNow).flatMap fun p => p.1.items).Perm (rows.filter fun t => t.isDue dbNow) :=
    runs_items_perm c
  have hinserted : ((numbered c rows dbNow).map (batchOf c w)).flatMap Batch.inserted = published c w rows dbNow :=
    List.flatMap_map ..
  refine ⟨changed RegroupPending.id ((numbered c rows dbNow).map (batchOf c w)), ?_, ?_, ?_⟩
  · rw [(finalizePending_eq c w rows dbNow).1, foldl_separate hsep, hinserted]
  · intro p hp t ht
    exact changed_eq hsep.keys (List.mem_map_of_mem hp) (List.mem_map_of_mem ht)
  · intro t ht hnot
    refine changed_of_none fun b hb hin => ?_
    obtain ⟨p, hp, rfl⟩ := List.mem_map.mp hb
    obtain ⟨u, hu, hid⟩ := List.mem_map.mp hin
    obtain ⟨hmem, hdue⟩ := List.mem_filter.mp (hperm.mem_iff.mp (List.mem_flatMap.mpr ⟨p, hp, hu⟩))
    rw [List.inj_on_of_nodup_map hids hmem ht hid, hnot] at hdue
    cases hdue

/-- The accounting of a pass: the due tickets are those of the runs, the committed windows are kept whatever the
    other runs do, each ticket of a run is given what it is owed, and every other one is left as it is. -/
structure TicketsAccounted : Prop where
  tickets : ((numbered c rows dbNow).flatMap fun p => p.1.items).Perm (rows.filter fun t => t.isDue dbNow)
  windows : (finalizePending c w rows dbNow).windows = (numbered c rows dbNow).flatMap fun p =>
    committedOf c (attemptedIn c w p)
  rows : ∃ after : RegroupPending → RegroupPending,
    (finalizePending c w rows dbNow).rows = rows.map after ++ published c w rows dbNow ∧
      (∀ p ∈ numbered c rows dbNow, ∀ t ∈ p.1.items, Accounted c w p t (after t)) ∧
      ∀ t ∈ rows, t.isDue dbNow = false → after t = t

/-- **The tickets are accounted for exactly when no run is compared too late.** -/
theorem tickets_accounted_iff (hids : (rows.map RegroupPending.id).Nodup) (hfresh : FreshIds w rows) :
    TicketsAccounted c w rows dbNow ↔ ∀ p ∈ numbered c rows dbNow, ¬ ComparedLate c w p := by
  have hperm : ((numbered c rows dbNow).flatMap fun p => p.1.items).Perm (rows.filter fun t => t.isDue dbNow) :=
    runs_items_perm c
  have hmem : ∀ p ∈ numbered c rows dbNow, ∀ t ∈ p.1.items, t ∈ rows ∧ t.isDue dbNow = true := by
    intro p hp t ht
    exact List.mem_filter.mp (hperm.mem_iff.mp (List.mem_flatMap.mpr ⟨p, hp, ht⟩))
  obtain ⟨after, hrows, hafter, hrest⟩ := rows_finalize c w rows dbNow hids hfresh
  constructor
  · rintro ⟨-, -, after', hrows', haccounted, -⟩ p hp
    obtain ⟨t, ht⟩ := List.exists_mem_of_ne_nil _ (items_ne_nil c hp)
    have hsame : after' t = after t := by
      refine List.map_eq_map_iff.mp (List.append_cancel_right (hrows'.symm.trans hrows)) t ?_
      exact (hmem p hp t ht).1
    have howed := haccounted p hp t ht
    rw [hsame, hafter p hp t ht] at howed
    exact (accounted_change_iff c w (hmem p hp t ht).2).mp howed
  · intro hnot
    refine ⟨hperm, (finalizePending_eq c w rows dbNow).2, after, hrows, fun p hp t ht => ?_, hrest⟩
    rw [hafter p hp t ht]
    exact (accounted_change_iff c w (hmem p hp t ht).2).mpr (hnot p hp)

end Table

/-- One open ticket. -/
def oneTicket : RegroupPending := { id := 1, rangeStart := 0, rangeEnd := 60 * second, availableAt := 0 }

/-- A window that commits, and whose comparison with the head lane's plan then times out. -/
def comparedLate : PassWorld where
  attempt _ _ :=
    { plan := .ok true, compare := some { chain := [{ transientType := true }], text := "TimeoutError" } }
  now _ := 100
  retryAt _ := 200

/-- In shadow mode the only window of a run is committed, and its ticket is put back. -/
theorem comparison_fails_run :
    (numbered {} [oneTicket] 50).map (fun p => windowsOf {} p.1) = [[(0, 60 * second)]] ∧
      (finalizePending {} comparedLate [oneTicket] 50).windows = [(0, 60 * second)] ∧
      (finalizePending {} comparedLate [oneTicket] 50).rows.map (fun t => (t.id, t.consumedAt, t.attempts)) =
        [(1, none, 1)] := by
  decide +kernel

/-- A second ticket, a day later. -/
def nextDay : RegroupPending :=
  { id := 2, rangeStart := 86400 * second, rangeEnd := 86460 * second, availableAt := 0 }

/-- The rebuild of the first run times out, and a third ticket is published in the second. -/
def rebuiltLate : PassWorld where
  attempt i _ :=
    if i = 0 then { plan := .ok true, rebuild := some { chain := [{ transientType := true }], text := "TimeoutError" } }
    else { plan := .ok true, arrivals := [{ nextDay with id := 3, availableAt := 100 }] }
  now _ := 100
  retryAt _ := 200

theorem tickets_accounted_iff_rebuiltLate :
    (finalizePending {} rebuiltLate [nextDay, oneTicket] 50).rows.map (fun t => (t.id, t.consumedAt, t.attempts)) =
        [(2, some 100, 0), (1, none, 1), (3, none, 0)] ∧
      TicketsAccounted {} rebuiltLate [nextDay, oneTicket] 50 := by
  have hruns : ((numbered {} [nextDay, oneTicket] 50).all fun p =>
      decide ((windowsOf {} p.1).length = 1) && (((rebuiltLate.attempt p.2 0).compare).isNone)) = true := by
    decide +kernel
  refine ⟨by decide +kernel, ?_⟩
  refine (tickets_accounted_iff {} rebuiltLate [nextDay, oneTicket] 50 (by decide) ?_).mpr ?_
  · intro i j t ht u hu
    unfold rebuiltLate at ht
    dsimp only at ht
    split at ht
    · exact absurd ht List.not_mem_nil
    · cases List.mem_singleton.mp ht
      have hknown : u.id = 2 ∨ u.id = 1 := by
        cases List.mem_cons.mp hu with
        | inl h => exact .inl (congrArg RegroupPending.id h)
        | inr h => exact .inr (congrArg RegroupPending.id (List.mem_singleton.mp h))
      cases hknown with
      | inl h => rw [h]; decide
      | inr h => rw [h]; decide
  · rintro p hp ⟨-, n, hlen, -, -, -, hcompare⟩
    have hp' := List.all_eq_true.mp hruns p hp
    rw [Bool.and_eq_true, decide_eq_true_eq, Option.isNone_iff_eq_none] at hp'
    obtain rfl : n = 0 := by omega
    exact hcompare hp'.2

end RagPipeline.Queueing
