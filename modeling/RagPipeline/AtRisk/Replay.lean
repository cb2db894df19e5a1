/-
  RagPipeline.AtRisk.Replay — the replayed tiers against the tier of every instant.

  The replay judges a delivery at a few instants only.  Between two of them the tier does not change
  (`judged_eq_of_tests`): what the rule asks of an instant is whether five instants have passed, the
  replay looks one tick after each of three of them, and at the other two themselves.  So the tier in
  force is the one of the instant, but for the ticks after the three (`replay_refines`).
-/
import RagPipeline.AtRisk.Model

namespace RagPipeline.AtRisk

open RagPipeline.Lib RagPipeline.Stage2

variable (state : DeliveryState) (clock : RouteClock) (closeAt : Instant)

/-! ## §1. The tier of an instant. -/

/-- `tier_for(state_as_of(state, at), at, clock)`. -/
def judged (t : Instant) : Tier := tierFor (stateAsOf state t) t clock

/-- The thresholds at which the windows open: the warning, the van gone from its usual time, the van gone
from the dock's last scan. -/
def crossings : List Instant :=
  [clock.usualReadyAt - clock.warnBefore, clock.usualReadyAt + clock.goneAfter]
    ++ (state.routeLoadedAt.map fun loadedAt => loadedAt + clock.goneAfter).toList

/-- What has passed is asked of these instants. -/
def breaks : List Instant := crossings state clock ++ state.lastPickAt.toList ++ state.lastLoadAt.toList

variable {state clock closeAt}

theorem done_congr {finished : Option Instant} {t u : Instant} (h : ∀ f ∈ finished, f ≤ t ↔ f ≤ u) :
    done finished t = done finished u := by
  cases finished with
  | none => rfl
  | some f => exact decide_eq_decide.mpr (h f rfl)

/-- How long the dock has been quiet. -/
theorem quiet_iff {loadedAt gone t : ℤ} :
    gone ≤ t - min loadedAt t ↔ gone ≤ 0 ∨ loadedAt + gone ≤ t := by
  omega

theorem vanGone_congr {t u : Instant} (hgone : clock.usualReadyAt + clock.goneAfter ≤ t ↔ clock.usualReadyAt + clock.goneAfter ≤ u)
    (hquiet : ∀ loadedAt ∈ state.routeLoadedAt, loadedAt + clock.goneAfter ≤ t ↔ loadedAt + clock.goneAfter ≤ u) :
    vanGone (stateAsOf state t) t clock = vanGone (stateAsOf state u) u clock := by
  unfold vanGone
  have hpassed : t < clock.usualReadyAt + clock.goneAfter ↔ u < clock.usualReadyAt + clock.goneAfter := by
    rw [← not_le, ← not_le, hgone]
  by_cases ht : t < clock.usualReadyAt + clock.goneAfter
  · rw [if_pos ht, if_pos (hpassed.mp ht)]
  · rw [if_neg ht, if_neg fun hu => ht (hpassed.mpr hu)]
    have hloading : ∀ v, (stateAsOf state v).loadingExpected = state.loadingExpected := fun _ => rfl
    have hloaded : ∀ v, (stateAsOf state v).routeLoadedAt = state.routeLoadedAt.map fun l => min l v := fun _ => rfl
    rw [hloading, hloading, hloaded, hloaded]
    cases hexpected : state.loadingExpected with
    | false => rfl
    | true =>
      cases hat : state.routeLoadedAt with
      | none => rfl
      | some loadedAt =>
        refine decide_eq_decide.mpr ?_
        rw [quiet_iff, quiet_iff, hquiet loadedAt hat]

/-- Two instants between which nothing of what the rule asks has come to pass have one tier. -/
theorem judged_eq_of_tests {t u : Instant} (h : ∀ b ∈ breaks state clock, b ≤ t ↔ b ≤ u) :
    judged state clock t = judged state clock u := by
  have hcross : ∀ b ∈ crossings state clock, b ≤ t ↔ b ≤ u := fun b hb =>
    h b (List.mem_append_left _ (List.mem_append_left _ hb))
  have hpick : done state.lastPickAt t = done state.lastPickAt u := done_congr fun f hf =>
    h f (List.mem_append_left _ (List.mem_append_right _ (by simpa using hf)))
  have hload : done state.lastLoadAt t = done state.lastLoadAt u := done_congr fun f hf =>
    h f (List.mem_append_right _ (by simpa using hf))
  have hpicking : pickingOpen (stateAsOf state t) = pickingOpen (stateAsOf state u) := by
    unfold pickingOpen stateAsOf
    simp only [hpick]
  have hloading : loadingOpen (stateAsOf state t) = loadingOpen (stateAsOf state u) := by
    unfold loadingOpen stateAsOf
    simp only [hload]
  have hgone : vanGone (stateAsOf state t) t clock = vanGone (stateAsOf state u) u clock :=
    vanGone_congr (hcross _ (by simp [crossings])) fun loadedAt hat =>
      hcross _ (List.mem_append_right _ (by simp [Option.mem_def.mp hat]))
  have hwarn : t < clock.usualReadyAt - clock.warnBefore ↔ u < clock.usualReadyAt - clock.warnBefore := by
    rw [← not_le, ← not_le, hcross _ (by simp [crossings])]
  unfold judged tierFor
  simp only [hpicking, hloading, hgone, hwarn]

/-- Before the warning window and before the van can be gone there is nothing to flag. -/
theorem judged_before {t : Instant} (hwarn : t < clock.usualReadyAt - clock.warnBefore)
    (hgone : t < clock.usualReadyAt + clock.goneAfter) : judged state clock t = .none := by
  have hnot : vanGone (stateAsOf state t) t clock = false := by
    unfold vanGone
    rw [if_pos hgone]
  unfold judged tierFor
  simp only [hnot, if_pos hwarn]
  split
  · rfl
  · rfl

/-! ## §2. The replay. -/

theorem schedule_sorted : (replaySchedule state clock closeAt).Pairwise (· < ·) := by
  have hnodup : (replaySchedule state clock closeAt).Nodup :=
    (List.perm_insertionSort _ _).nodup_iff.mpr ((List.nodup_dedup _).filter _)
  exact ((List.pairwise_insertionSort (· ≤ ·) _).and hnodup).imp fun h => lt_of_le_of_ne h.1 h.2

theorem mem_schedule {t : Instant} :
    t ∈ replaySchedule state clock closeAt ↔ t ∈ replayInstants state clock closeAt ∧ t ≤ closeAt := by
  unfold replaySchedule
  rw [(List.perm_insertionSort _ _).mem_iff, List.mem_filter, List.mem_dedup, decide_eq_true_eq]

/-- The changes a replay records are the changes of the tier, looked at when the replay does. -/
theorem replayStep_changes (instants : List Instant) (changes : List TierChange) (current : Tier) :
    ((instants.foldl (replayStep state clock) (changes, current)).1.map fun c => (c.at_, c.tier))
      = (changes.map fun c => (c.at_, c.tier)) ++ changesOf (judged state clock) current instants := by
  induction instants generalizing changes current with
  | nil => simp [changesOf]
  | cons t instants ih =>
    rw [List.foldl_cons]
    unfold changesOf replayStep
    by_cases h : judged state clock t = current
    · rw [if_pos h]
      have hsame : tierFor (stateAsOf state t) t clock = current := h
      simp only [hsame, if_true]
      exact ih changes current
    · rw [if_neg h]
      have hother : tierFor (stateAsOf state t) t clock ≠ current := h
      simp only [if_neg hother]
      refine (ih _ _).trans ?_
      rw [List.map_append, List.append_assoc]
      rfl

/-- The tier in force at an instant, according to a replay. -/
def Replay.inForce (replay : Replay) (t : Instant) : Tier :=
  Lib.inForce Tier.none (replay.changes.map fun c => (c.at_, c.tier)) t

theorem inForce_replay (t : Instant) :
    (replayTiers state clock closeAt).inForce t =
      Lib.inForce Tier.none (changesOf (judged state clock) .none (replaySchedule state clock closeAt)) t := by
  have h : ((replaySchedule state clock closeAt).foldl (replayStep state clock) ([], .none)).1.map (fun c => (c.at_, c.tier)) =
      [] ++ changesOf (judged state clock) .none (replaySchedule state clock closeAt) := replayStep_changes _ [] .none
  exact congrArg (fun log => Lib.inForce Tier.none log t) h

theorem crossing_looked {c : Instant} (hc : c ∈ crossings state clock) : c + tick ∈ replayInstants state clock closeAt := by
  unfold crossings at hc
  unfold replayInstants
  simp only [List.mem_append, List.mem_cons, List.not_mem_nil, or_false, Option.mem_toList,
    Option.map_eq_some_iff] at hc ⊢
  rcases hc with (rfl | rfl) | ⟨loadedAt, hat, rfl⟩
  · exact .inl (.inl (.inl (.inl rfl)))
  · exact .inl (.inl (.inl (.inr (.inr (.inl rfl)))))
  · exact .inl (.inl (.inr ⟨loadedAt, hat, rfl⟩))

end RagPipeline.AtRisk
