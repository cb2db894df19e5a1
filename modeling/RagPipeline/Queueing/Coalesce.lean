/-
  RagPipeline.Queueing.Coalesce — the two queues of dirty ranges, before any work is done.

  Stage 2 and the analytics consumer take the same two steps with their open tickets: they coalesce the
  ranges into disjoint runs, each run keeping its tickets, and split a run into windows of bounded width.
  Stage 2 merges tickets that are less than two pads apart, the consumer those that overlap.

    * `coalescePending`  — the runs of `log_regroup_pending`;
    * `coalesce_runs`    — those of `analytics_pending_windows` are a sweep too;
    * `splitRun_cutting` — the loop of `_split_run` ends;
    * `work_partitioned` — the laws of both steps.
-/
import RagPipeline.Lib.Runs
import RagPipeline.Analytics.Tickets

namespace RagPipeline.Queueing

open RagPipeline.Lib RagPipeline.Stage2 RagPipeline.Analytics

/-! ## §1. Tickets. -/

/-- A row of `log_regroup_pending`. -/
structure RegroupPending where
  id : UUID
  rangeStart : Instant
  rangeEnd : Instant
  consumedAt : Option Instant := none
  attempts : ℕ := 0
  lastError : Option String := none
  lastAttemptAt : Option Instant := none
  abandonedAt : Option Instant := none
  availableAt : Instant
  deriving DecidableEq, Repr

/-- `_coalesce_pending`. -/
def coalescePending (pend : List RegroupPending) (gap : Duration) : List (Run RegroupPending Instant) :=
  sweep RegroupPending.rangeStart RegroupPending.rangeEnd gap pend

/-- A run of the consumer as a run. -/
def runOf (r : CoalescedRun) : Run PendingWindow Instant := ⟨r.lo, r.hi, r.tickets⟩

/-- `_coalesce` of the consumer is the same sweep. -/
theorem coalesce_runs (tickets : List PendingWindow) (gap : Duration) :
    (coalesce tickets gap).map runOf = sweep PendingWindow.rangeStart PendingWindow.rangeEnd gap tickets := by
  have hstep : ∀ (runs : List CoalescedRun) (t : PendingWindow), (coalesceStep gap runs t).map runOf =
      sweepStep PendingWindow.rangeStart PendingWindow.rangeEnd gap (runs.map runOf) t := by
    intro runs t
    cases runs with
    | nil => rfl
    | cons r rest =>
      rw [List.map_cons, sweepStep_cons]
      by_cases hnear : t.rangeStart ≤ r.hi + gap
      · have hnear' : t.rangeStart ≤ (runOf r).hi + gap := hnear
        rw [if_pos hnear']
        show (if t.rangeStart ≤ r.hi + gap then _ else _ : List CoalescedRun).map runOf = _
        rw [if_pos hnear]
        rfl
      · have hnear' : ¬ t.rangeStart ≤ (runOf r).hi + gap := hnear
        rw [if_neg hnear']
        show (if t.rangeStart ≤ r.hi + gap then _ else _ : List CoalescedRun).map runOf = _
        rw [if_neg hnear]
        rfl
  have hfold : ∀ (ts : List PendingWindow) (runs : List CoalescedRun),
      (ts.foldl (coalesceStep gap) runs).map runOf =
        ts.foldl (sweepStep PendingWindow.rangeStart PendingWindow.rangeEnd gap) (runs.map runOf) := by
    intro ts
    induction ts with
    | nil => exact fun _ => rfl
    | cons t ts ih =>
      intro runs
      rw [List.foldl_cons, ih, hstep, List.foldl_cons]
  unfold coalesce sweep
  rw [List.map_reverse, hfold]
  rfl

/-! ## §2. Windows. -/

/-- With enough rounds the loop ends by itself. -/
theorem slicesFrom_cutting {step hi : Instant} (hstep : 0 < step) {n : ℕ} {cur : Instant}
    (hfuel : hi - cur ≤ n * step) : Cutting step hi cur (slicesFrom step hi n cur) := by
  induction n generalizing cur with
  | zero =>
    have hend : ∀ a b s : ℤ, a - b ≤ ((0 : ℕ) : ℤ) * s → a ≤ b := by
      intro a b s h
      omega
    exact .done (hend hi cur step hfuel)
  | succ n ih =>
    unfold slicesFrom
    split
    case isTrue hend => exact .done hend
    case isFalse hmore =>
      refine .cut (not_le.mp hmore) (ih ?_)
      have hrest : ∀ a b s : ℤ, 0 < s → a - b ≤ ((n + 1 : ℕ) : ℤ) * s → a - min (b + s) a ≤ (n : ℤ) * s := by
        intro a b s hs h
        have hcast : ((n + 1 : ℕ) : ℤ) = n + 1 := by omega
        rw [hcast, Int.add_mul, Int.one_mul] at h
        have hpos : 0 ≤ (n : ℤ) * s := Int.mul_nonneg (Int.natCast_nonneg n) hs.le
        omega
      exact hrest hi cur step hstep hfuel

theorem splitRun_cutting {lo hi : Instant} {maxWidth : Duration} (hpos : 0 < maxWidth)
    (hwide : maxWidth < hi - lo) : Cutting maxWidth hi lo (splitRun lo hi maxWidth) := by
  have hnot : ¬ (maxWidth ≤ 0 ∨ hi - lo ≤ maxWidth) := by
    rw [not_or, not_le, not_le]
    exact ⟨hpos, hwide⟩
  unfold splitRun
  rw [if_neg hnot]
  refine slicesFrom_cutting hpos ?_
  have hrounds : ∀ a s : ℤ, 0 < s → s < a → a ≤ (((a / s).toNat + 1 : ℕ) : ℤ) * s := by
    intro a s hs ha
    have hquot : 0 ≤ a / s := Int.ediv_nonneg (hs.le.trans ha.le) hs.le
    have hcast : (((a / s).toNat + 1 : ℕ) : ℤ) = a / s + 1 := by omega
    rw [hcast]
    exact (Int.lt_ediv_add_one_mul_self a hs).le
  exact hrounds (hi - lo) maxWidth hpos hwide

/-- What `_split_run` makes of a run: windows end to end from its start to its end, none wider than the
    maximum and none backwards; and its loop, where it is entered, ends. -/
structure Split (lo hi : Instant) (maxWidth : Duration) (out : List (Instant × Instant)) : Prop where
  tiles : EndToEnd lo out hi
  narrow : ∀ p ∈ out, p.2 - p.1 ≤ maxWidth
  forward : lo ≤ hi → ∀ p ∈ out, p.1 ≤ p.2
  ends : maxWidth < hi - lo → Cutting maxWidth hi lo out

theorem splitRun_laws (lo hi : Instant) {maxWidth : Duration} (hpos : 0 < maxWidth) :
    Split lo hi maxWidth (splitRun lo hi maxWidth) := by
  by_cases hwide : maxWidth < hi - lo
  · have hcut := splitRun_cutting hpos hwide
    have hle : ∀ a b s : ℤ, 0 < s → s < a - b → b ≤ a := by
      intro a b s hs h
      omega
    obtain ⟨htiles, hpieces⟩ := cutting_laws hpos hcut (hle hi lo maxWidth hpos hwide)
    exact ⟨htiles, fun p hp => (hpieces p hp).2, fun _ p hp => (hpieces p hp).1.le, fun _ => hcut⟩
  · have hone : splitRun lo hi maxWidth = [(lo, hi)] := if_pos (Or.inr (not_lt.mp hwide))
    rw [hone]
    refine ⟨⟨rfl, rfl⟩, ?_, ?_, fun h => absurd h hwide⟩
    · intro p hp
      rw [List.mem_singleton.mp hp]
      exact not_lt.mp hwide
    · intro hle p hp
      rw [List.mem_singleton.mp hp]
      exact hle

/-! ## §3. Both steps. -/

/-- **The tickets are partitioned into runs and the runs into windows**, for Stage 2 and the consumer. -/
theorem work_partitioned (gap maxWidth : Duration) (hpos : 0 < maxWidth) (pend : List RegroupPending)
    (tickets : List PendingWindow) (lo hi : Instant) :
    Runs RegroupPending.rangeStart RegroupPending.rangeEnd gap pend (coalescePending pend gap) ∧
      Runs PendingWindow.rangeStart PendingWindow.rangeEnd gap tickets ((coalesce tickets gap).map runOf) ∧
      Split lo hi maxWidth (splitRun lo hi maxWidth) := by
  refine ⟨sweep_laws _ _ gap pend, ?_, splitRun_laws lo hi hpos⟩
  rw [coalesce_runs]
  exact sweep_laws _ _ gap tickets

/-- A long early ticket, one inside it, and one that stands apart. -/
def threeTickets : List PendingWindow := [⟨50, 60, false⟩, ⟨0, 40, false⟩, ⟨10, 20, false⟩]

theorem work_partitioned_three :
    Runs RegroupPending.rangeStart RegroupPending.rangeEnd 5 [] (coalescePending [] 5) ∧
      Runs PendingWindow.rangeStart PendingWindow.rangeEnd 5 threeTickets ((coalesce threeTickets 5).map runOf) ∧
      Split 0 40 15 (splitRun 0 40 15) :=
  work_partitioned 5 15 (by decide) [] threeTickets 0 40

end RagPipeline.Queueing
