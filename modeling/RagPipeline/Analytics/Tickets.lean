/-
  RagPipeline.Analytics.Tickets — the tickets Stage 2 publishes, and the windows they are folded in.

    * `publish`   — a changed range, padded, as at most one ticket a day;
    * `coalesce`  — the due tickets of a tenant merged into disjoint runs;
    * `splitRun`  — a run in slices of bounded width.

  `publish_folds` says that the tickets of a range cover all of it, `splitRun_covers` that the slices of a run
  do, and `slice_covered` that what a slice covers was covered by a ticket.
-/
import Mathlib.Order.MinMax
import RagPipeline.Analytics.Fold

namespace RagPipeline.Analytics

open RagPipeline.Stage2

/-! ## §1. Publication. -/

/-- An open row of `analytics_pending_windows`. -/
structure PendingWindow where
  rangeStart : Instant
  rangeEnd : Instant
  refoldRollups : Bool := false
  deriving DecidableEq, Repr

/-- The instant lies in the ticket's range. -/
def PendingWindow.Holds (t : PendingWindow) (x : Instant) : Prop := t.rangeStart ≤ x ∧ x ≤ t.rangeEnd

/-- `_MAX_TICKET_SPAN`. -/
def maxTicketSpan : Duration := 86400 * second

/-- The loop of `publish`, from `cursor` on. -/
def ticketsFrom (refold : Bool) (stop : Instant) : Nat → Instant → List PendingWindow
  | 0, _ => []
  | n + 1, cursor =>
      if stop < cursor then []
      else if stop ≤ cursor + maxTicketSpan then [⟨cursor, stop, refold⟩]
      else
        ⟨cursor, cursor + maxTicketSpan, refold⟩ ::
          ticketsFrom refold stop n (cursor + maxTicketSpan)

/-- **`publish`**: the range, padded, a ticket for each day of it. -/
def publish (pad : Duration) (lo hi : Instant) (refold : Bool) : List PendingWindow :=
  ticketsFrom refold (hi + pad) (((hi + pad - (lo - pad)) / maxTicketSpan).toNat + 1) (lo - pad)

theorem ticketsFrom_within {refold : Bool} {stop : Instant} {n : Nat} {cursor : Instant}
    {t : PendingWindow} (ht : t ∈ ticketsFrom refold stop n cursor) :
    cursor ≤ t.rangeStart ∧ t.rangeEnd ≤ stop := by
  induction n generalizing cursor with
  | zero => exact absurd ht (by simp [ticketsFrom])
  | succ n ih =>
      unfold ticketsFrom at ht
      split at ht
      · exact absurd ht (by simp)
      · split at ht
        · rw [List.mem_singleton.mp ht]
          exact ⟨le_refl cursor, le_refl stop⟩
        · next hstop =>
          rcases List.mem_cons.mp ht with rfl | ht
          · exact ⟨le_refl cursor, le_of_lt (not_le.mp hstop)⟩
          · obtain ⟨hlo, hhi⟩ := ih ht
            have hspan : ∀ a b : Int, a + 86400 * 1000000 ≤ b → a ≤ b := by
              intro a b h
              omega
            exact ⟨hspan cursor t.rangeStart hlo, hhi⟩

/-- A ticket lies in the padded range. -/
theorem publish_within {pad : Duration} {lo hi : Instant} {refold : Bool} {t : PendingWindow}
    (ht : t ∈ publish pad lo hi refold) {x : Instant} (hx : t.Holds x) :
    lo - pad ≤ x ∧ x ≤ hi + pad := by
  obtain ⟨hlo, hhi⟩ := ticketsFrom_within ht
  exact ⟨le_trans hlo hx.1, le_trans hx.2 hhi⟩

/-! ## §2. Runs and slices. -/

/-- A coalesced run, with its tickets. -/
structure CoalescedRun where
  lo : Instant
  hi : Instant
  tickets : List PendingWindow

/-- One ticket, in the order of their starts; the newest run is in front. -/
def coalesceStep (gap : Duration) (runs : List CoalescedRun) (t : PendingWindow) : List CoalescedRun :=
  match runs with
  | r :: rest =>
      if t.rangeStart ≤ r.hi + gap then
        ⟨r.lo, max r.hi t.rangeEnd, r.tickets ++ [t]⟩ :: rest
      else ⟨t.rangeStart, t.rangeEnd, [t]⟩ :: r :: rest
  | [] => [⟨t.rangeStart, t.rangeEnd, [t]⟩]

/-- `_coalesce`. -/
def coalesce (tickets : List PendingWindow) (gap : Duration) : List CoalescedRun :=
  ((tickets.insertionSort fun a b => a.rangeStart ≤ b.rangeStart).foldl (coalesceStep gap) []).reverse

/-- The loop of `_split_run`. -/
def slicesFrom (step : Duration) (hi : Instant) : Nat → Instant → List (Instant × Instant)
  | 0, _ => []
  | n + 1, cur =>
      if hi ≤ cur then [] else (cur, min (cur + step) hi) :: slicesFrom step hi n (min (cur + step) hi)

/-- `_split_run`. -/
def splitRun (lo hi : Instant) (maxWidth : Duration) : List (Instant × Instant) :=
  if maxWidth ≤ 0 ∨ hi - lo ≤ maxWidth then [(lo, hi)]
  else slicesFrom maxWidth hi (((hi - lo) / maxWidth).toNat + 1) lo

/-- The windows `consume_tenant` folds for these tickets. -/
def slices (tickets : List PendingWindow) (maxWidth : Duration) : List UtcWindow :=
  (coalesce tickets 0).flatMap fun r => (splitRun r.lo r.hi maxWidth).map fun p => ⟨p.1, p.2⟩

/-- Every instant of a run lies in one of its tickets. -/
def CoalescedRun.Covered (r : CoalescedRun) : Prop :=
  ∀ x, r.lo ≤ x → x ≤ r.hi → ∃ t ∈ r.tickets, t.Holds x

theorem coalesceStep_covered {runs : List CoalescedRun} (h : ∀ r ∈ runs, r.Covered) (t : PendingWindow) :
    ∀ r ∈ coalesceStep 0 runs t, r.Covered := by
  have halone : CoalescedRun.Covered ⟨t.rangeStart, t.rangeEnd, [t]⟩ :=
    fun x hlo hhi => ⟨t, List.mem_singleton_self t, hlo, hhi⟩
  intro r hr
  unfold coalesceStep at hr
  split at hr
  · next r₀ rest =>
    split at hr
    · next htouch =>
      rcases List.mem_cons.mp hr with rfl | hr
      · intro x hlo hhi
        by_cases hx : x ≤ r₀.hi
        · obtain ⟨t', ht', hholds⟩ := h r₀ List.mem_cons_self x hlo hx
          exact ⟨t', List.mem_append.mpr (Or.inl ht'), hholds⟩
        · -- past the old end, so in the ticket that was merged
          have hafter : t.rangeStart ≤ x := by
            have hle : t.rangeStart ≤ r₀.hi := by simpa using htouch
            exact le_trans hle (le_of_lt (not_le.mp hx))
          have hbefore : x ≤ t.rangeEnd := by
            rcases le_max_iff.mp hhi with hold | hnew
            · exact absurd hold hx
            · exact hnew
          exact ⟨t, by simp, hafter, hbefore⟩
      · exact h r (List.mem_cons_of_mem _ hr)
    · rcases List.mem_cons.mp hr with rfl | hr
      · exact halone
      · exact h r hr
  · rw [List.mem_singleton.mp hr]
    exact halone

theorem coalesceStep_tickets {runs : List CoalescedRun} {t : PendingWindow} {r : CoalescedRun}
    {u : PendingWindow} {gap : Duration} (hr : r ∈ coalesceStep gap runs t) (hu : u ∈ r.tickets) :
    u = t ∨ ∃ r' ∈ runs, u ∈ r'.tickets := by
  unfold coalesceStep at hr
  split at hr
  · next r₀ rest =>
    split at hr
    · rcases List.mem_cons.mp hr with rfl | hr
      · rcases List.mem_append.mp hu with hu | hu
        · exact Or.inr ⟨r₀, List.mem_cons_self, hu⟩
        · exact Or.inl (List.mem_singleton.mp hu)
      · exact Or.inr ⟨r, List.mem_cons_of_mem _ hr, hu⟩
    · rcases List.mem_cons.mp hr with rfl | hr
      · exact Or.inl (List.mem_singleton.mp hu)
      · exact Or.inr ⟨r, hr, hu⟩
  · rw [List.mem_singleton.mp hr] at hu
    exact Or.inl (List.mem_singleton.mp hu)

/-- **Merging adds no instant**: what a run covers, one of the tickets covers. -/
theorem coalesce_covered {tickets : List PendingWindow} {r : CoalescedRun}
    (hr : r ∈ coalesce tickets 0) {x : Instant} (hlo : r.lo ≤ x) (hhi : x ≤ r.hi) :
    ∃ t ∈ tickets, t.Holds x := by
  have hfold : ∀ (ts : List PendingWindow) (runs : List CoalescedRun),
      (∀ r ∈ runs, r.Covered ∧ ∀ u ∈ r.tickets, u ∈ tickets) → (∀ u ∈ ts, u ∈ tickets) →
      ∀ r ∈ ts.foldl (coalesceStep 0) runs, r.Covered ∧ ∀ u ∈ r.tickets, u ∈ tickets := by
    intro ts
    induction ts with
    | nil => exact fun runs h _ => h
    | cons t ts ih =>
        intro runs h hts
        refine ih _ (fun r hr => ⟨?_, fun u hu => ?_⟩) fun u hu => hts u (List.mem_cons_of_mem _ hu)
        · exact coalesceStep_covered (fun r hr => (h r hr).1) t r hr
        · rcases coalesceStep_tickets hr hu with rfl | ⟨r', hr', hu'⟩
          · exact hts u List.mem_cons_self
          · exact (h r' hr').2 u hu'
  have hsorted : ∀ u ∈ tickets.insertionSort (fun a b => a.rangeStart ≤ b.rangeStart), u ∈ tickets :=
    fun u hu => (List.perm_insertionSort _ tickets).mem_iff.mp hu
  obtain ⟨hcov, hsub⟩ := hfold _ [] (by simp) hsorted r (List.mem_reverse.mp hr)
  obtain ⟨t, ht, hholds⟩ := hcov x hlo hhi
  exact ⟨t, hsub t ht, hholds⟩

theorem slicesFrom_within {step : Duration} {hi : Instant} (hstep : 0 ≤ step) {n : Nat} {cur : Instant}
    {p : Instant × Instant} (hp : p ∈ slicesFrom step hi n cur) : cur ≤ p.1 ∧ p.2 ≤ hi := by
  induction n generalizing cur with
  | zero => exact absurd hp (by simp [slicesFrom])
  | succ n ih =>
      unfold slicesFrom at hp
      split at hp
      · exact absurd hp (by simp)
      · next hcur =>
        rcases List.mem_cons.mp hp with rfl | hp
        · exact ⟨le_refl cur, min_le_right _ _⟩
        · obtain ⟨hlo, hhi⟩ := ih hp
          refine ⟨le_trans (le_min ?_ (le_of_lt (not_le.mp hcur))) hlo, hhi⟩
          exact Int.le_add_of_nonneg_right hstep

/-- A slice lies in its run. -/
theorem splitRun_within {lo hi : Instant} {maxWidth : Duration} {p : Instant × Instant}
    (hp : p ∈ splitRun lo hi maxWidth) : lo ≤ p.1 ∧ p.2 ≤ hi := by
  unfold splitRun at hp
  split at hp
  · rw [List.mem_singleton.mp hp]
    exact ⟨le_refl lo, le_refl hi⟩
  · next hwidth =>
    rw [not_or, not_le] at hwidth
    exact slicesFrom_within (le_of_lt hwidth.1) hp

/-- **Neither merging nor splitting adds an instant**: what a slice covers, a ticket covers. -/
theorem slice_covered {tickets : List PendingWindow} {maxWidth : Duration} {w : UtcWindow}
    (hw : w ∈ slices tickets maxWidth) {x : Instant} (hx : w.covers (some x) = true) :
    ∃ t ∈ tickets, t.Holds x := by
  obtain ⟨r, hr, hwr⟩ := List.mem_flatMap.mp hw
  obtain ⟨p, hp, rfl⟩ := List.mem_map.mp hwr
  obtain ⟨hlo, hhi⟩ := splitRun_within hp
  obtain ⟨hx₁, hx₂⟩ := of_decide_eq_true hx
  exact coalesce_covered hr (le_trans hlo hx₁) (le_trans (le_of_lt hx₂) hhi)

/-! ## §3. Nothing of a range is lost. -/

/-- The instant lies in the half-open window a ticket is folded in. -/
def PendingWindow.Folds (t : PendingWindow) (x : Instant) : Prop := t.rangeStart ≤ x ∧ x < t.rangeEnd

theorem ticketsFrom_folds {refold : Bool} {stop : Instant} {n : Nat} {cursor x : Instant}
    (hfuel : stop - cursor < (n : Int) * maxTicketSpan) (hlo : cursor ≤ x) (hhi : x < stop) :
    ∃ t ∈ ticketsFrom refold stop n cursor, t.Folds x := by
  induction n generalizing cursor with
  | zero =>
      have habsurd : ∀ a b c : Int, a - b < 0 * (86400 * 1000000) → b ≤ c → c < a → False := by
        intro a b c h h' h''
        omega
      exact absurd hhi fun h => habsurd stop cursor x (by simpa [maxTicketSpan, second] using hfuel) hlo h
  | succ n ih =>
      unfold ticketsFrom
      rw [if_neg (not_lt.mpr (le_trans hlo (le_of_lt hhi)))]
      split
      · exact ⟨_, List.mem_singleton_self _, hlo, hhi⟩
      · by_cases hx : x < cursor + maxTicketSpan
        · exact ⟨_, List.mem_cons_self, hlo, hx⟩
        · have hfuel' : stop - (cursor + maxTicketSpan) < (n : Int) * maxTicketSpan := by
            have harith : ∀ a b s m : Int, a - b < (m + 1) * s → a - (b + s) < m * s := by
              intro a b s m h
              rw [Int.add_mul, Int.one_mul] at h
              omega
            refine harith stop cursor maxTicketSpan n ?_
            simpa using hfuel
          -- one day of fuel is spent, so the rest of the range still has enough
          obtain ⟨t, ht, hfolds⟩ := ih hfuel' (not_lt.mp hx)
          exact ⟨t, List.mem_cons_of_mem _ ht, hfolds⟩

/-- Some ticket of a range is folded over every instant before its padded end. -/
theorem publish_folds {pad : Duration} {lo hi x : Instant} (refold : Bool) (hlo : lo - pad ≤ x)
    (hhi : x < hi + pad) : ∃ t ∈ publish pad lo hi refold, t.Folds x := by
  refine ticketsFrom_folds ?_ hlo hhi
  have hdiv : ∀ a : Int, 0 ≤ a →
      a < (((a / (86400 * 1000000)).toNat + 1 : Nat) : Int) * (86400 * 1000000) := by
    intro a ha
    omega
  have hnonneg : ∀ a b c : Int, b ≤ c → c < a → 0 ≤ a - b := by
    intro a b c h h'
    omega
  exact hdiv _ (hnonneg (hi + pad) (lo - pad) x hlo hhi)

theorem slicesFrom_covers {step : Duration} {hi : Instant} {n : Nat} {cur x : Instant}
    (hfuel : hi - cur < (n : Int) * step) (hlo : cur ≤ x) (hhi : x < hi) :
    ∃ p ∈ slicesFrom step hi n cur, p.1 ≤ x ∧ x < p.2 := by
  induction n generalizing cur with
  | zero =>
      have habsurd : ∀ a b c : Int, a - b < 0 → b ≤ c → c < a → False := by
        intro a b c h h' h''
        omega
      exact absurd hhi fun h => habsurd hi cur x (by simpa using hfuel) hlo h
  | succ n ih =>
      unfold slicesFrom
      rw [if_neg (not_le.mpr (lt_of_le_of_lt hlo hhi))]
      by_cases hx : x < min (cur + step) hi
      · exact ⟨_, List.mem_cons_self, hlo, hx⟩
      · have hmin : min (cur + step) hi ≤ x := not_lt.mp hx
        have hcut : min (cur + step) hi = cur + step := by
          rcases min_choice (cur + step) hi with h | h
          · exact h
          · exact absurd (h ▸ hmin) (not_le.mpr hhi)
        rw [hcut] at hmin ⊢
        have hfuel' : hi - (cur + step) < (n : Int) * step := by
          have harith : ∀ a b s m : Int, a - b < (m + 1) * s → a - (b + s) < m * s := by
            intro a b s m h
            rw [Int.add_mul, Int.one_mul] at h
            omega
          refine harith hi cur step n ?_
          simpa using hfuel
        -- the slice ends before the run does, so it is a full step wide
        obtain ⟨p, hp, hin⟩ := ih hfuel' hmin
        exact ⟨p, List.mem_cons_of_mem _ hp, hin⟩

theorem splitRun_covers {lo hi x : Instant} (maxWidth : Duration) (hlo : lo ≤ x) (hhi : x < hi) :
    ∃ p ∈ splitRun lo hi maxWidth, p.1 ≤ x ∧ x < p.2 := by
  unfold splitRun
  split
  · exact ⟨_, List.mem_singleton_self _, hlo, hhi⟩
  · next hwidth =>
    rw [not_or, not_le] at hwidth
    refine slicesFrom_covers ?_ hlo hhi
    have hdiv : ∀ a s : Int, 0 < s → 0 ≤ a → a < (((a / s).toNat + 1 : Nat) : Int) * s := by
      intro a s hs ha
      have hquot : 0 ≤ a / s := Int.ediv_nonneg ha (le_of_lt hs)
      have hcast : (((a / s).toNat + 1 : Nat) : Int) = a / s + 1 := by omega
      rw [hcast]
      exact Int.lt_ediv_add_one_mul_self a hs
    have hnonneg : ∀ a b c : Int, b ≤ c → c < a → 0 ≤ a - b := by
      intro a b c h h'
      omega
    exact hdiv _ _ hwidth.1 (hnonneg hi lo x hlo hhi)

/-- A run has a slice. -/
theorem splitRun_ne_nil (lo hi : Instant) (maxWidth : Duration) : splitRun lo hi maxWidth ≠ [] := by
  unfold splitRun
  split
  · exact List.cons_ne_nil _ _
  · next hwidth =>
    rw [not_or, not_le, not_le] at hwidth
    have hlt : ∀ a b q : Int, 0 < q → q < a - b → ¬ a ≤ b := by
      intro a b q hq h
      omega
    -- a run wider than the step is not empty, so its loop runs at least once
    unfold slicesFrom
    rw [if_neg (hlt hi lo maxWidth hwidth.1 hwidth.2)]
    exact List.cons_ne_nil _ _

end RagPipeline.Analytics
