/-
  RagPipeline.Analytics.Commits — what a commit of Stage 2 moves, and the tickets of its operation.

  `regroup_all` and `regroup_incremental` commit twice: first the deletion, with the tickets of the operation,
  then what the lines are grouped into, which publishes nothing more.  The other operations commit once.

    * `Operation`, `Commit` — the operations, and what they commit;
    * `Shifts`              — a row that is new or gone, or whose lines are others;
    * `Publishes`           — the condition on a commit and the tables before it;
    * `reached_of_publishes` — the tickets of the operation reach every row its commit shifts.
-/
import RagPipeline.Analytics.Tickets
import RagPipeline.Lib.OrderFree
import RagPipeline.Stage2.Interleaving

namespace RagPipeline.Analytics

open RagPipeline.Stage2 RagPipeline.Lib

variable {Fp : Type} [DecidableEq Fp]

/-! ## §1. Operations and commits. -/

/-- The operations of Stage 2. -/
inductive Operation (Fp : Type) where
  | regroupAll
  | regroupIncremental
  | regroupWindow (lo hi : Instant)
  | applyPlan (plan : ParkingPlan Fp)
  | reclassify (since : Instant) (stop : Option Instant) (parser : Reparse)

/-- Their commits. -/
inductive Commit (Fp : Type) where
  | clearAll
  | persistAll
  | freeUnsealed
  | persistTail
  | regroupWindow (lo hi : Instant)
  | applyPlan (plan : ParkingPlan Fp)
  | reclassify (since : Instant) (stop : Option Instant) (parser : Reparse)

/-- The first commit of an operation. -/
def Operation.first : Operation Fp → Commit Fp
  | .regroupAll => .clearAll
  | .regroupIncremental => .freeUnsealed
  | .regroupWindow lo hi => .regroupWindow lo hi
  | .applyPlan plan => .applyPlan plan
  | .reclassify since stop parser => .reclassify since stop parser

/-- The second one. -/
def Operation.second : Operation Fp → Option (Commit Fp)
  | .regroupAll => some .persistAll
  | .regroupIncremental => some .persistTail
  | .regroupWindow _ _ | .applyPlan _ | .reclassify _ _ _ => none

/-- The tables once `regroup_all` has deleted every transaction. -/
def emptied (st : Store Fp) : Store Fp := { st with assigned := fun _ => none, txns := [] }

/-- What a commit leaves and publishes; `none` when it raises.  The two commits of an operation, one right after
    the other, are the operation of the model of Stage 2. -/
def Commit.exec (w : World Fp) (c : Settings) (now : Instant) (st : Store Fp) :
    Commit Fp → Option (Committed Fp)
  | .clearAll => some ⟨emptied st, (Stage2.regroupAll w c now st).published⟩
  | .persistAll => some ⟨persistFresh w c st (readOrder st.entries), []⟩
  | .freeUnsealed => some ⟨st.freeUnsealed, (Stage2.regroupIncremental w c now st).published⟩
  | .persistTail => some ⟨persistFresh w c st (st.liveTail c), []⟩
  | .regroupWindow lo hi =>
      (Stage2.regroupWindow w c st lo hi).bind fun done =>
        (regroupSaved w c st lo hi).map fun st' => ⟨st', done.published⟩
  | .applyPlan plan =>
      (Stage2.applyPlan now st plan.writes).bind fun done =>
        (commitPlan now st plan).map fun st' => ⟨st', done.published⟩
  | .reclassify since stop parser => some (Stage2.reclassify st since stop parser)

/-- **The two commits of `regroup_all`** are the operation. -/
theorem regroupAll_commits (w : World Fp) (c : Settings) (now : Instant) (st : Store Fp) :
    (Commit.exec w c now (emptied st) .persistAll).map Committed.store = some (regroupAll w c now st).store := rfl

/-- **The two commits of `regroup_incremental`** are the operation. -/
theorem regroupIncremental_commits (w : World Fp) (c : Settings) (now : Instant) (st : Store Fp) :
    (Commit.exec w c now st.freeUnsealed .persistTail).map Committed.store =
      some (regroupIncremental w c now st).store := rfl

/-! ## §2. Tickets. -/

/-- The tickets of the published ranges. -/
def ticketsOf (c : Settings) (published : List (Instant × Instant)) : List PendingWindow :=
  published.flatMap fun p => publish c.pad p.1 p.2 false

/-- The start lies in the window the ticket is folded in; a row without a start is read by every window. -/
def PendingWindow.Reaches (k : PendingWindow) : Option Instant → Prop
  | some t => k.Folds t
  | none => True

/-- Some ticket reaches the start. -/
def Reached (tickets : List PendingWindow) (t : Option Instant) : Prop := ∃ k ∈ tickets, k.Reaches t

/-- The row is in one table and not in the other. -/
def Differs (txns txns' : List (TxnRow Fp)) (r : TxnRow Fp) : Prop := ¬(r ∈ txns ↔ r ∈ txns')

/-- The row is new or gone, or its lines are others: a changed row is one row gone and one row new. -/
def Shifts (st st' : Store Fp) (r : TxnRow Fp) : Prop :=
  Differs st.txns st'.txns r ∨ (r ∈ st.txns ∧ r ∈ st'.txns ∧ st'.linesOf r.id ≠ st.linesOf r.id)

/-- The start lies within a pad of some published range. -/
def InRange (c : Settings) (p : Instant × Instant) : Option Instant → Prop
  | some t => p.1 - c.pad ≤ t ∧ t < p.2 + c.pad
  | none => True

/-! ## §3. When a commit publishes enough. -/

/-- What a second commit relies on, where `own` are the tickets of the first: they reach every line that is
    grouped, no stored transaction owns one of these lines, and none has the id of a group. -/
structure FreshFits (w : World Fp) (c : Settings) (own : List PendingWindow) (st : Store Fp)
    (rows : List LogEntry) : Prop where
  lines : ∀ e ∈ rows, Reached own e.timestamp
  free : ∀ e ∈ rows, ∀ r ∈ st.txns, st.assigned.owner e.id ≠ some r.id
  ids : ∀ g ∈ freshGroups w c rows, ∀ r ∈ st.txns, r.id ≠ g.1

/-- What a window rebuild relies on: a stored row with the id of a freed one is freed itself, and so is a row with
    the id of a group. -/
structure WindowFits (w : World Fp) (c : Settings) (st : Store Fp) (floor hi : Instant) : Prop where
  freed : ∀ r ∈ st.txns, r.id ∈ st.freedIds floor hi → within floor hi r.startedAt = true
  ids : ∀ g ∈ windowGroups w c st floor hi (hi + c.pad), ∀ r ∈ st.txns, r.id = g.1 → r.id ∈ st.freedIds floor hi

/-- The ids a plan writes. -/
def planIds (p : HeadPlan Fp) : List UUID := p.assigns.map Write.owner

/-- What a plan relies on: nothing it writes starts a pad after its end, no other transaction owns a line of it,
    and a stored row with an id of it has a start of it. -/
structure PlanReaches (c : Settings) (st : Store Fp) (p : HeadPlan Fp) : Prop where
  ends : ∀ t, some t ∈ p.startedAts → t < p.hi + c.pad
  free : ∀ a ∈ p.assigns, ∀ i ∈ a.items, ∀ t ∈ st.assigned.owner i, t ∈ planIds p
  starts : ∀ r ∈ st.txns, r.id ∈ planIds p → r.startedAt ∈ p.startedAts

/-- The condition on a commit and the tables before it; `own` are the tickets of the first commit of the
    operation, where this one is the second.

    * `regroup_all` and `regroup_incremental` delete whole transactions: no sealed row has the id of an unsealed
      one;
    * what they group afterwards: `FreshFits`;
    * `regroup_window`: `WindowFits`;
    * `apply_plan`: `PlanReaches`;
    * `reclassify`: no stored transaction owns a line of the touched range. -/
def Publishes (w : World Fp) (c : Settings) (own : List PendingWindow) (st : Store Fp) : Commit Fp → Prop
  | .clearAll => True
  | .persistAll => FreshFits w c own st (readOrder st.entries)
  | .freeUnsealed => ∀ r ∈ st.txns, r.isSealed = true → r.id ∉ st.unsealed.map TxnRow.id
  | .persistTail => FreshFits w c own st (st.liveTail c)
  | .regroupWindow lo hi => ∀ floor, crossPadFloor c st (lo - c.pad) (hi + c.pad) = some floor →
      WindowFits w c st floor hi
  | .applyPlan plan => PlanReaches c st plan.writes
  | .reclassify since stop parser => ∀ lo hi,
      spanOf (stamps (st.misclassified since stop parser)) = some (lo, hi) → ∀ r ∈ st.txns, r.id ∉ st.owning lo hi

/-! ## §4. Spans and ranges. -/

theorem spanOf_spec {ts : List Instant} {p : Instant × Instant} (h : spanOf ts = some p) :
    (∀ t ∈ ts, p.1 ≤ t ∧ t ≤ p.2) ∧ p.1 ≤ p.2 := by
  obtain ⟨lo, hlo, hrest⟩ := Option.bind_eq_some_iff.mp h
  obtain ⟨hi, hhi, rfl⟩ := Option.map_eq_some_iff.mp hrest
  obtain ⟨hmem, hmin⟩ := List.min?_eq_some_iff.mp hlo
  obtain ⟨-, hmax⟩ := List.max?_eq_some_iff.mp hhi
  exact ⟨fun t ht => ⟨hmin t ht, hmax t ht⟩, hmax lo hmem⟩

theorem spanOf_ne_none {ts : List Instant} (h : ts ≠ []) : ∃ p, spanOf ts = some p := by
  obtain ⟨t, ht⟩ := List.exists_mem_of_ne_nil ts h
  cases hlo : ts.min? with
  | none => exact absurd (List.min?_eq_none_iff.mp hlo) h
  | some lo =>
    cases hhi : ts.max? with
    | none => exact absurd (List.max?_eq_none_iff.mp hhi) h
    | some hi => exact ⟨(lo, hi), by simp [spanOf, hlo, hhi]⟩

/-- Something to publish for is one range, which holds every start. -/
theorem publishForTransactions_eq (now : Instant) (starts : List (Option Instant)) (hne : starts ≠ []) :
    ∃ p, publishForTransactions now starts = [p] ∧ p.1 ≤ p.2 ∧ ∀ t, some t ∈ starts → p.1 ≤ t ∧ t ≤ p.2 := by
  have hreal : ∀ t, some t ∈ starts → t ∈ starts.filterMap id :=
    fun t ht => List.mem_filterMap.mpr ⟨some t, ht, rfl⟩
  unfold publishForTransactions
  rw [if_neg hne]
  split
  · next hnone =>
    refine ⟨_, rfl, le_refl now, fun t ht => ?_⟩
    obtain ⟨p, hp⟩ := spanOf_ne_none (List.ne_nil_of_mem (hreal t ht))
    exact absurd (hnone.symm.trans hp) (by simp)
  · next span hspan =>
    exact ⟨_, rfl, (spanOf_spec hspan).2, fun t ht => (spanOf_spec hspan).1 t (hreal t ht)⟩

theorem Reached.mono {ks ks' : List PendingWindow} (h : ∀ k ∈ ks, k ∈ ks') {t : Option Instant}
    (ht : Reached ks t) : Reached ks' t := by
  obtain ⟨k, hk, hreaches⟩ := ht
  exact ⟨k, h k hk, hreaches⟩

/-- A start within a pad of a published range is reached by its tickets. -/
theorem reached_of_inRange {c : Settings} (hpad : 0 < c.pad) {published : List (Instant × Instant)}
    {p : Instant × Instant} (hp : p ∈ published) (hle : p.1 ≤ p.2) {s : Option Instant} (hs : InRange c p s) :
    Reached (ticketsOf c published) s := by
  have hmem : ∀ k ∈ publish c.pad p.1 p.2 false, k ∈ ticketsOf c published :=
    fun k hk => List.mem_flatMap.mpr ⟨p, hp, hk⟩
  cases s with
  | some t =>
    obtain ⟨k, hk, hfolds⟩ := publish_folds false hs.1 hs.2
    exact ⟨k, hmem k hk, hfolds⟩
  | none =>
    -- the range has a ticket at its own start
    have harith : ∀ a b q : Int, a ≤ b → 0 < q → a - q ≤ a ∧ a < b + q := by
      intro a b q h h'
      omega
    obtain ⟨hlo, hhi⟩ := harith p.1 p.2 c.pad hle hpad
    obtain ⟨k, hk, -⟩ := publish_folds false hlo hhi
    exact ⟨k, hmem k hk, trivial⟩

/-- A start inside a range is within a pad of it. -/
theorem inRange_of_mem {c : Settings} (hpad : 0 < c.pad) {p : Instant × Instant} {s : Option Instant}
    (h : ∀ t, s = some t → p.1 ≤ t ∧ t ≤ p.2) : InRange c p s := by
  have harith : ∀ a b t q : Int, a ≤ t ∧ t ≤ b → 0 < q → a - q ≤ t ∧ t < b + q := by
    intro a b t q h h'
    omega
  cases s with
  | none => trivial
  | some t => exact harith p.1 p.2 t c.pad (h t rfl) hpad

omit [DecidableEq Fp] in
theorem differs_iff {txns txns' : List (TxnRow Fp)} {r : TxnRow Fp} :
    Differs txns txns' r ↔ (r ∈ txns ∧ r ∉ txns') ∨ (r ∉ txns ∧ r ∈ txns') := by
  unfold Differs
  by_cases h : r ∈ txns <;> by_cases h' : r ∈ txns' <;> simp [h, h']

omit [DecidableEq Fp] in
theorem Differs.trans {a b c : List (TxnRow Fp)} {r : TxnRow Fp} (h : Differs a c r) :
    Differs a b r ∨ Differs b c r := by
  by_contra hno
  rw [not_or] at hno
  unfold Differs at h hno
  rw [not_not, not_not] at hno
  exact h (hno.1.trans hno.2)

/-! ## §5. The lines of a transaction. -/

section Lines

variable {w : World Fp} {a : PersistArgs Fp} {st st' : Store Fp} {gs : List Group} {t : UUID}

omit [DecidableEq Fp] in
/-- A transaction whose lines are the same, each in its place. -/
theorem linesOf_eq (hlines : (st'.entries.filter fun e => decide (st'.assigned.owner e.id = some t)) =
      st.entries.filter fun e => decide (st.assigned.owner e.id = some t))
    (hseq : ∀ e ∈ st.entries, st.assigned.owner e.id = some t → st'.assigned e.id = st.assigned e.id) :
    st'.linesOf t = st.linesOf t := by
  unfold Store.linesOf
  rw [hlines]
  refine insertionSort_congr _ fun x hx y hy => ?_
  obtain ⟨hxin, hxown⟩ := List.mem_filter.mp hx
  obtain ⟨hyin, hyown⟩ := List.mem_filter.mp hy
  rw [hseq x hxin (of_decide_eq_true hxown), hseq y hyin (of_decide_eq_true hyown)]

omit [DecidableEq Fp] in
/-- Nobody gave the transaction a line, and nobody took one from it. -/
theorem linesOf_untouched (hentries : st'.entries = st.entries)
    (h : ∀ i n, st'.assigned i = some (t, n) ↔ st.assigned i = some (t, n)) : st'.linesOf t = st.linesOf t := by
  have howner : ∀ i, st'.assigned.owner i = some t ↔ st.assigned.owner i = some t := by
    intro i
    rw [Owners.owner_eq_some, Owners.owner_eq_some]
    exact exists_congr fun n => h i n
  refine linesOf_eq ?_ fun e _ hown => ?_
  · rw [hentries]
    exact List.filter_congr fun e _ => decide_eq_decide.mpr (howner e.id)
  · obtain ⟨n, hn⟩ := Owners.owner_eq_some.mp hown
    rw [hn]
    exact (h e.id n).mpr hn

omit [DecidableEq Fp] in
/-- The lines of other transactions are let go. -/
theorem linesOf_deleteAssignments {ids : List UUID} (ht : t ∉ ids) :
    (st.deleteAssignments ids).linesOf t = st.linesOf t := by
  refine linesOf_untouched rfl fun i n => ?_
  unfold Store.deleteAssignments
  rw [Owners.release_eq_some]
  exact and_iff_left (decide_eq_false ht)

/-- **`_persist` leaves the lines of a transaction**, where it neither stores nor writes it and takes no line of
    it. -/
theorem linesOf_persist (hstored : t ∉ a.stored.map TxnRow.id) (hids : ∀ g ∈ a.kept [] gs, g.1 ≠ t)
    (hfree : ∀ g ∈ a.kept [] gs, ∀ i ∈ g.ids, st.assigned.owner i ≠ some t) :
    (persist w a st gs).1.linesOf t = st.linesOf t := by
  refine linesOf_untouched (persist_rest w a st gs).1 fun i n => ?_
  by_cases hc : a.Claims w gs i
  · obtain ⟨pre, g, post, hsplit, hdiff, hmem, hpost⟩ := exists_last_claim hc
    have hg : g ∈ a.kept [] gs := by
      rw [hsplit]
      simp
    rw [persist_last hsplit hdiff hmem hpost]
    constructor
    · intro heq
      exact absurd (congrArg Prod.fst (Option.some.inj heq)) (hids g hg)
    · intro hold
      exact absurd (Owners.owner_eq_some.mpr ⟨n, hold⟩) (hfree g hg i hmem)
  · rw [persist_unclaimed hc, Owners.release_eq_some]
    refine and_iff_left ?_
    rw [Bool.or_eq_false_iff, decide_eq_false_iff_not]
    refine ⟨Bool.eq_false_iff.mpr fun hreleased => ?_, fun hgone => hstored (mem_gone.mp hgone).1⟩
    obtain ⟨x, hx, -, howner⟩ := Owners.releasedBy_eq_true.mp hreleased
    obtain ⟨g, hg, -, rfl⟩ := mem_writes.mp hx
    exact hids g hg howner

end Lines

/-! ## §6. One commit. -/

section Commits

variable {w : World Fp} {c : Settings} {now : Instant} {st st' : Store Fp} {own : List PendingWindow} {r : TxnRow Fp}

omit [DecidableEq Fp] in
/-- The streams have no part in it. -/
theorem Shifts.of_rest {st₁ : Store Fp} (hr : Shifts st st' r) (hentries : st'.entries = st₁.entries)
    (hassigned : st'.assigned = st₁.assigned) (htxns : st'.txns = st₁.txns) : Shifts st st₁ r := by
  have hlines : st'.linesOf r.id = st₁.linesOf r.id := by
    unfold Store.linesOf
    rw [hentries, hassigned]
  unfold Shifts at hr
  rwa [htxns, hlines] at hr

theorem reached_clearAll (hpad : 0 < c.pad) (hr : Shifts st (emptied st) r) :
    Reached (ticketsOf c (regroupAll w c now st).published) r.startedAt := by
  have hold : r ∈ st.txns := by
    rcases hr with hdiffers | ⟨hold, -⟩
    · rcases differs_iff.mp hdiffers with ⟨hold, -⟩ | ⟨-, hnew⟩
      · exact hold
      · exact absurd hnew List.not_mem_nil
    · exact hold
  have hne : st.txns ≠ [] := List.ne_nil_of_mem hold
  obtain ⟨p, hp, hle, hin⟩ := publishForTransactions_eq now
    [(spanOf (st.txns.filterMap TxnRow.startedAt)).map Prod.fst,
      (spanOf (st.txns.filterMap TxnRow.startedAt)).map Prod.snd] (by simp)
  have hpublished : p ∈ (regroupAll w c now st).published := by
    simp only [regroupAll, if_neg hne, hp, List.mem_append]
    exact Or.inl (List.mem_singleton_self p)
  refine reached_of_inRange hpad hpublished hle (inRange_of_mem hpad fun t ht => ?_)
  -- the range holds the starts of all stored rows
  have hmem : t ∈ st.txns.filterMap TxnRow.startedAt := List.mem_filterMap.mpr ⟨r, hold, ht⟩
  obtain ⟨q, hq⟩ := spanOf_ne_none (List.ne_nil_of_mem hmem)
  obtain ⟨hlo, hhi⟩ := (spanOf_spec hq).1 t hmem
  rw [hq] at hin
  exact ⟨le_trans (hin q.1 (by simp)).1 hlo, le_trans hhi (hin q.2 (by simp)).2⟩

/-- What a grouping that inherits nothing adds is the row of a group it kept; it takes nothing away. -/
theorem differs_persistFresh {rows : List LogEntry} (h : Differs st.txns (persistFresh w c st rows).txns r) :
    ∃ g ∈ (freshArgs w c st rows).kept [] (freshGroups w c rows), r = freshRow w (st.cutoffs c) g := by
  rcases differs_iff.mp h with ⟨hold, hgone⟩ | ⟨hold, hnew⟩
  · exact absurd (persist_lost hold hgone) (by simp [freshArgs])
  · rcases persist_new hnew with hmem | hg
    · exact absurd hmem hold
    · exact hg

omit [DecidableEq Fp] in
/-- A line of a group was read. -/
theorem read_of_fresh {rows : List LogEntry} (hids : (rows.map (·.id)).Nodup) {g : Group}
    (hg : g ∈ freshGroups w c rows) {i : UUID} (hi : i ∈ g.ids) : ∃ e ∈ rows, e.id = i := by
  obtain ⟨b, hb, hlines⟩ := mem_assignIds hg
  obtain ⟨e, he, hid⟩ := List.mem_map.mp hi
  rw [hlines] at he
  exact ⟨e, mem_of_mem_group hids hb ((sortEntries_perm _).mem_iff.mp he), hid⟩

theorem reached_persistFresh {rows : List LogEntry} (hids : (rows.map (·.id)).Nodup) (h : FreshFits w c own st rows)
    (hr : Shifts st (persistFresh w c st rows) r) : Reached own r.startedAt := by
  rcases hr with hdiffers | ⟨hold, -, hlines⟩
  · obtain ⟨g, hg, rfl⟩ := differs_persistFresh hdiffers
    cases hs : (freshRow w (st.cutoffs c) g).startedAt with
    | some t =>
      obtain ⟨e, he, hts⟩ := freshRow_start hids (mem_kept hg).1 hs
      exact hts ▸ h.lines e he
    | none =>
      -- a group has lines, so something was published
      have hrows : rows ≠ [] := by
        rintro rfl
        exact absurd (mem_kept hg).1 List.not_mem_nil
      obtain ⟨e, he⟩ := List.exists_mem_of_ne_nil rows hrows
      obtain ⟨k, hk, -⟩ := h.lines e he
      exact ⟨k, hk, trivial⟩
  · refine absurd (linesOf_persist (by simp [freshArgs]) (fun g hg heq => ?_) fun g hg i hi => ?_) hlines
    · exact h.ids g (mem_kept hg).1 r hold heq.symm
    · obtain ⟨e, he, rfl⟩ := read_of_fresh hids (mem_kept hg).1 hi
      exact h.free e he r hold

theorem reached_freeUnsealed (hpad : 0 < c.pad)
    (h : ∀ q ∈ st.txns, q.isSealed = true → q.id ∉ st.unsealed.map TxnRow.id) (hr : Shifts st st.freeUnsealed r) :
    Reached (ticketsOf c (regroupIncremental w c now st).published) r.startedAt := by
  have hunsealed : r ∈ st.unsealed := by
    rcases hr with hdiffers | ⟨hold, hkept, hlines⟩
    · rcases differs_iff.mp hdiffers with ⟨hold, hgone⟩ | ⟨hold, hnew⟩
      · refine List.mem_filter.mpr ⟨hold, ?_⟩
        by_contra hsealed
        exact hgone (List.mem_filter.mpr ⟨hold, by simpa using hsealed⟩)
      · exact absurd (List.mem_filter.mp hnew).1 hold
    · have hid := h r hold (List.mem_filter.mp hkept).2
      exact absurd (linesOf_deleteAssignments hid) hlines
  have hstart : r.startedAt ∈ st.unsealed.map TxnRow.startedAt := List.mem_map_of_mem hunsealed
  obtain ⟨p, hp, hle, hin⟩ := publishForTransactions_eq now _ (List.ne_nil_of_mem hstart)
  refine reached_of_inRange hpad (p := p) ?_ hle (inRange_of_mem hpad fun t ht => hin t (ht ▸ hstart))
  show p ∈ publishForTransactions now (st.unsealed.map TxnRow.startedAt)
  rw [hp]
  exact List.mem_singleton_self p

omit [DecidableEq Fp] in
theorem storedRows_freed {floor hi : Instant} {t : UUID} (ht : t ∈ (st.storedRows c floor hi).map TxnRow.id) :
    t ∈ st.freedIds floor hi := by
  obtain ⟨q, hq, rfl⟩ := List.mem_map.mp ht
  unfold Store.storedRows at hq
  split at hq
  · exact of_decide_eq_true (List.mem_filter.mp hq).2
  · exact absurd hq List.not_mem_nil

/-- What a window rebuild takes away has the id of a freed transaction. -/
theorem rebuild_lost {floor hi hiP : Instant} (hold : r ∈ st.txns) (hgone : r ∉ (rebuild w c st floor hi hiP).txns) :
    r.id ∈ st.freedIds floor hi := by
  by_contra hid
  have hstored : r.id ∉ (st.storedRows c floor hi).map TxnRow.id := fun hmem => hid (storedRows_freed hmem)
  have hcleared : r ∈ (st.cleared c floor hi).txns := by
    unfold Store.cleared
    split
    · exact hold
    · exact List.mem_filter.mpr ⟨hold, by simpa using hid⟩
  apply hgone
  unfold rebuild
  split
  · exact List.mem_filter.mpr ⟨hcleared, by simpa using hstored⟩
  · by_contra hlost
    exact hstored (persist_lost hcleared hlost)

/-- What it adds starts at a line it read. -/
theorem rebuild_new {floor hi hiP : Instant} (hids : (st.entries.map (·.id)).Nodup) (hold : r ∉ st.txns)
    (hnew : r ∈ (rebuild w c st floor hi hiP).txns) :
    floor ≤ hiP ∧ ∀ t, r.startedAt = some t → floor ≤ t ∧ t ≤ hiP := by
  have hcleared : ∀ r' ∈ (st.cleared c floor hi).txns, r' ∈ st.txns := by
    intro r' hr'
    unfold Store.cleared at hr'
    split at hr'
    · exact hr'
    · exact (List.mem_filter.mp hr').1
  have hread : ∀ e ∈ st.windowRows c floor hi hiP, ∃ t, e.timestamp = some t ∧ floor ≤ t ∧ t ≤ hiP := by
    intro e he
    have hin := (List.mem_filter.mp ((readOrder_perm _).mem_iff.mp he)).2
    rw [Bool.and_eq_true] at hin
    exact within_iff.mp hin.1
  unfold rebuild at hnew
  split at hnew
  · exact absurd (hcleared r (List.mem_filter.mp hnew).1) hold
  · next hrows =>
    obtain ⟨e, he⟩ := List.exists_mem_of_ne_nil _ hrows
    obtain ⟨t, -, hlo, hhi⟩ := hread e he
    refine ⟨le_trans hlo hhi, ?_⟩
    rcases persist_new hnew with hmem | ⟨g, hg, rfl⟩
    · exact absurd (hcleared r hmem) hold
    · intro t' ht'
      obtain ⟨e', he', hts⟩ := freshRow_start (readOrder_nodup hids _) (mem_kept hg).1 ht'
      obtain ⟨u, hu, hin⟩ := hread e' he'
      obtain rfl := Option.some.inj (hts.symm.trans hu)
      exact hin

omit [DecidableEq Fp] in
theorem linesOf_cleared {floor hi : Instant} {t : UUID} (ht : t ∉ st.freedIds floor hi) :
    (st.cleared c floor hi).linesOf t = st.linesOf t := by
  unfold Store.cleared
  split
  · rfl
  · exact linesOf_deleteAssignments ht

/-- A rebuild leaves the lines of a transaction it does not free. -/
theorem linesOf_rebuild {floor hi : Instant} (hids : (st.entries.map (·.id)).Nodup) (h : WindowFits w c st floor hi)
    (hold : r ∈ st.txns) (hfreed : r.id ∉ st.freedIds floor hi) :
    (rebuild w c st floor hi (hi + c.pad)).linesOf r.id = st.linesOf r.id := by
  have hstored : r.id ∉ (st.storedRows c floor hi).map TxnRow.id := fun hmem => hfreed (storedRows_freed hmem)
  unfold rebuild
  split
  · exact (linesOf_deleteAssignments hstored).trans (linesOf_cleared hfreed)
  · refine (linesOf_persist hstored (fun g hg heq => ?_) fun g hg i hi' hown => ?_).trans (linesOf_cleared hfreed)
    · exact hfreed (h.ids g (mem_kept hg).1 r hold heq.symm)
    · -- a line that is read is free, or that of a row that is rebuilt
      obtain ⟨e, he, rfl, hwin, heligible⟩ := read_of_kept hids hg hi'
      unfold Store.eligible at heligible
      cases hk : st.keepsRows c floor hi with
      | true =>
        rw [cleared_eq hk] at hown
        -- cleared frees nothing here: the line is eligible because its owner is a freed row
        rw [if_pos hk, owner_in_window he hwin, hown] at heligible
        exact hfreed (of_decide_eq_true heligible)
      | false =>
        -- here the freed rows have lost their lines, and only lines without an owner are read
        rw [hk, if_neg Bool.false_ne_true] at heligible
        rw [Owners.owner_eq_none.mpr (Option.isNone_iff_eq_none.mp heligible)] at hown
        cases hown

theorem reached_rebuild (hpad : 0 < c.pad) (hids : (st.entries.map (·.id)).Nodup) {floor hi : Instant}
    (h : WindowFits w c st floor hi) (hr : Shifts st (rebuild w c st floor hi (hi + c.pad)) r) :
    Reached (ticketsOf c [(floor, hi + c.pad)]) r.startedAt := by
  have hpublished : (floor, hi + c.pad) ∈ [(floor, hi + c.pad)] := List.mem_singleton_self _
  have harith : ∀ a q : Int, 0 < q → a ≤ a + q := by
    intro a q h
    omega
  have hfreed : r ∈ st.txns → r.id ∈ st.freedIds floor hi →
      Reached (ticketsOf c [(floor, hi + c.pad)]) r.startedAt := by
    intro hold hid
    obtain ⟨t, hs, hlo, hhi⟩ := within_iff.mp (h.freed r hold hid)
    have hend : t ≤ hi + c.pad := le_trans hhi (harith hi c.pad hpad)
    refine reached_of_inRange hpad hpublished (le_trans hlo hend) (inRange_of_mem hpad fun t' ht' => ?_)
    obtain rfl := Option.some.inj (hs.symm.trans ht')
    exact ⟨hlo, hend⟩
  rcases hr with hdiffers | ⟨hold, -, hlines⟩
  · rcases differs_iff.mp hdiffers with ⟨hold, hgone⟩ | ⟨hold, hnew⟩
    · exact hfreed hold (rebuild_lost hold hgone)
    · obtain ⟨hle, hin⟩ := rebuild_new hids hold hnew
      exact reached_of_inRange hpad hpublished hle (inRange_of_mem hpad hin)
  · by_cases hid : r.id ∈ st.freedIds floor hi
    · exact hfreed hold hid
    · exact absurd (linesOf_rebuild hids h hold hid) hlines

/-- A continuation moves the rows of its own start only. -/
theorem continueOne_differs {x : Continuation Fp} (hx : x.values.startedAt = x.startedAt)
    (h : continueOne st x = some st') (hr : Differs st.txns st'.txns r) : r.startedAt = x.startedAt := by
  unfold continueOne at h
  simp only at h
  split at h
  · obtain rfl := Option.some.inj h
    rcases differs_iff.mp hr with ⟨hold, hgone⟩ | ⟨hold, hnew⟩
    · by_contra hs
      exact hgone (List.mem_map.mpr ⟨r, hold, if_neg fun hc => hs hc.2⟩)
    · obtain ⟨r', hr', heq⟩ := List.mem_map.mp hnew
      split at heq
      · rw [← heq]
        exact hx
      · exact absurd (heq ▸ hr') hold
  · cases h

theorem continued_differs (xs : List (Continuation Fp)) (hxs : ∀ x ∈ xs, x.values.startedAt = x.startedAt)
    {st st' : Store Fp} (h : xs.foldlM continueOne st = some st') (hr : Differs st.txns st'.txns r) :
    r.startedAt ∈ xs.map Continuation.startedAt := by
  induction xs generalizing st with
  | nil =>
    obtain rfl : st = st' := by simpa using h
    exact absurd Iff.rfl hr
  | cons x xs ih =>
    rw [List.foldlM_cons] at h
    obtain ⟨mid, hmid, hrest⟩ := Option.bind_eq_some_iff.mp h
    rw [List.map_cons, List.mem_cons]
    rcases hr.trans (b := mid.txns) with hhead | htail
    · exact Or.inl (continueOne_differs (hxs x List.mem_cons_self) hmid hhead)
    · exact Or.inr (ih (fun y hy => hxs y (List.mem_cons_of_mem _ hy)) hrest htail)

/-- A plan moves the rows of its own starts only. -/
theorem applied_differs {p : HeadPlan Fp} {done : Committed Fp} (hdone : applyPlan now st p = some done)
    (hr : Differs st.txns done.store.txns r) : r.startedAt ∈ p.startedAts := by
  obtain ⟨mid, hmid, hrest⟩ := Option.bind_eq_some_iff.mp hdone
  obtain ⟨least, -, hlast⟩ := Option.bind_eq_some_iff.mp hrest
  cases hlast
  -- a plan writes twice: the continued rows are changed in place, then the created ones are appended
  rcases hr.trans (b := mid.txns) with hcontinued | hcreated
  · exact List.mem_append.mpr (Or.inl (continued_differs _ p.starts hmid hcontinued))
  · have hrows := (@rows_created _ mid p.created).2
    rcases differs_iff.mp hcreated with ⟨hold, hgone⟩ | ⟨hold, hnew⟩
    · exact absurd (hrows ▸ List.mem_append_left _ hold) hgone
    · rcases List.mem_append.mp (hrows ▸ hnew) with hmem | hmem
      · exact absurd hmem hold
      · obtain ⟨x, hx, rfl⟩ := List.mem_map.mp hmem
        exact List.mem_append.mpr (Or.inr (List.mem_map_of_mem hx))

/-- It leaves the lines of a transaction it does not write. -/
theorem linesOf_applied {p : HeadPlan Fp} (h : PlanReaches c st p) {done : Committed Fp}
    (hdone : applyPlan now st p = some done) {t : UUID} (ht : t ∉ planIds p) :
    done.store.linesOf t = st.linesOf t := by
  refine linesOf_untouched (rows_applyPlan hdone).1 fun i n => ?_
  rw [assigned_applyPlan hdone]
  refine Owners.writeAll_other _ (fun _ => fresh_assigns) (fun x hx heq => ht (heq ▸ List.mem_map_of_mem hx)) ?_
  intro x hx hi hown
  exact ht (h.free x hx i hi t hown)

theorem reached_applyPlan (hpad : 0 < c.pad) {p : HeadPlan Fp} (h : PlanReaches c st p) {done : Committed Fp}
    (hdone : applyPlan now st p = some done) (hr : Shifts st done.store r) :
    Reached (ticketsOf c done.published) r.startedAt := by
  have hstart : r.startedAt ∈ p.startedAts := by
    rcases hr with hdiffers | ⟨hold, -, hlines⟩
    · exact applied_differs hdone hdiffers
    · by_cases hid : r.id ∈ planIds p
      · exact h.starts r hold hid
      · exact absurd (linesOf_applied h hdone hid) hlines
  -- what is published runs from the least start the plan writes to its end
  obtain ⟨mid, -, hrest⟩ := Option.bind_eq_some_iff.mp hdone
  obtain ⟨least, hleast, hlast⟩ := Option.bind_eq_some_iff.mp hrest
  cases hlast
  rw [if_neg (List.ne_nil_of_mem hstart)] at hleast
  obtain ⟨q, hq, hle, hin⟩ := publishForTransactions_eq now [some least, some p.hi] (by simp)
  have hmem : q ∈ publishForTransactions now [some least, some p.hi] := by
    rw [hq]
    exact List.mem_singleton_self q
  refine reached_of_inRange hpad hmem hle ?_
  have harith : ∀ l t u q e : Int, l ≤ t → 0 < q → t < u + q → u ≤ e → l - q ≤ t ∧ t < e + q := by
    intro l t u q e h1 h2 h3 h4
    omega
  cases hs : r.startedAt with
  | none => trivial
  | some t =>
    rw [hs] at hstart
    have hmin : least ≤ t := (List.min?_eq_some_iff.mp hleast).2 t (List.mem_filterMap.mpr ⟨some t, hstart, rfl⟩)
    exact harith q.1 t p.hi c.pad q.2 (le_trans (hin least (by simp)).1 hmin) hpad (h.ends t hstart)
      (hin p.hi (by simp)).2

omit [DecidableEq Fp] in
/-- Parsing lines again does not tell whom they belong to. -/
theorem owning_fixed (st : Store Fp) (since : Instant) (stop : Option Instant) (parser : Reparse) (lo hi : Instant) :
    Store.owning { st with entries := st.entries.map (parser.fix since stop) } lo hi = st.owning lo hi := by
  unfold Store.owning
  rw [List.filter_map, List.filterMap_map]
  have hfilter : ((fun e : LogEntry => within lo hi e.timestamp) ∘ parser.fix since stop) =
      fun e => within lo hi e.timestamp := by
    funext e
    show within lo hi (parser.fix since stop e).timestamp = _
    rw [(parser.fix_same since stop e).2]
  have howner : ((fun e : LogEntry => st.assigned.owner e.id) ∘ parser.fix since stop) =
      fun e => st.assigned.owner e.id := by
    funext e
    show st.assigned.owner (parser.fix since stop e).id = _
    rw [(parser.fix_same since stop e).1]
  rw [hfilter]
  exact congrFun (congrArg List.filterMap howner) _

omit [DecidableEq Fp] in
/-- A line that is parsed otherwise lies in the touched range. -/
theorem fix_eq {since : Instant} {stop : Option Instant} {parser : Reparse} {lo hi : Instant}
    (hspan : spanOf (stamps (st.misclassified since stop parser)) = some (lo, hi)) {e : LogEntry}
    (he : e ∈ st.entries) (hout : within lo hi e.timestamp = false) : parser.fix since stop e = e := by
  unfold Reparse.fix
  cases hts : e.timestamp with
  | none => rfl
  | some t =>
    simp only
    split
    · next hrange =>
      cases hparsed : parser.reparse e with
      | none => rfl
      | some e' =>
        have hmis : e ∈ st.misclassified since stop parser := by
          refine List.mem_filter.mpr ⟨he, ?_⟩
          rw [hparsed, hts]
          simpa using hrange
        have hin := (spanOf_spec hspan).1 t (List.mem_filterMap.mpr ⟨e, hmis, hts⟩)
        rw [within_iff.mpr ⟨t, hts, hin⟩] at hout
        cases hout
    · rfl

omit [DecidableEq Fp] in
/-- **`reclassify` shifts the transactions that own a line of its range**, and no other. -/
theorem reclassify_shifts {since : Instant} {stop : Option Instant} {parser : Reparse}
    (hr : Shifts st (Stage2.reclassify st since stop parser).store r) :
    r ∈ st.txns ∧ ∃ lo hi, spanOf (stamps (st.misclassified since stop parser)) = some (lo, hi) ∧
      r.id ∈ st.owning lo hi := by
  unfold Stage2.reclassify at hr
  split at hr
  · rcases hr with hdiffers | ⟨-, -, hlines⟩
    · exact absurd Iff.rfl hdiffers
    · exact absurd rfl hlines
  · next lo hi hspan =>
    have howning := owning_fixed st since stop parser lo hi
    rcases hr with hdiffers | ⟨hold, -, hlines⟩
    · rcases differs_iff.mp hdiffers with ⟨hold, hgone⟩ | ⟨hold, hnew⟩
      · refine ⟨hold, lo, hi, hspan, ?_⟩
        by_contra hid
        refine hgone (List.mem_filter.mpr ⟨hold, decide_eq_true ?_⟩)
        rwa [howning]
      · exact absurd (List.mem_filter.mp hnew).1 hold
    · refine ⟨hold, lo, hi, hspan, ?_⟩
      by_contra hid
      -- a line of the row lies outside the range, so it is parsed as it was
      have hsame : ∀ e ∈ st.entries, st.assigned.owner e.id = some r.id → parser.fix since stop e = e := by
        intro e he hown
        refine fix_eq hspan he (Bool.eq_false_iff.mpr fun hin => hid ?_)
        exact List.mem_filterMap.mpr ⟨e, List.mem_filter.mpr ⟨he, hin⟩, hown⟩
      -- the deletion asks for the owners after the lines were parsed again, which are the same
      rw [← howning] at hid
      refine hlines (linesOf_eq ?_ fun e _ hown => ?_)
      · show ((st.entries.map (parser.fix since stop)).filter fun e => decide
          ((st.assigned.release fun t => decide (t ∈ _)).owner e.id = some r.id)) = _
        rw [List.filter_map]
        have hfilter : ((fun e : LogEntry => decide ((st.assigned.release fun t => decide (t ∈
            Store.owning { st with entries := st.entries.map (parser.fix since stop) } lo hi)).owner e.id =
              some r.id)) ∘ parser.fix since stop) = fun e => decide (st.assigned.owner e.id = some r.id) := by
          funext e
          refine decide_eq_decide.mpr ?_
          rw [(parser.fix_same since stop e).1, owner_release]
          exact and_iff_left (decide_eq_false hid)
        rw [hfilter]
        refine (List.map_congr_left fun e he => ?_).trans (List.map_id _)
        obtain ⟨hmem, hown⟩ := List.mem_filter.mp he
        exact hsame e hmem (of_decide_eq_true hown)
      · refine Owners.release_of_not fun t ht => decide_eq_false ?_
        rw [Option.some.inj (ht.symm.trans hown)]
        exact hid

/-- The commit with the saves of the shadow comparison. -/
theorem exec_regroupWindow {lo hi : Instant} {done : Committed Fp}
    (h : Commit.exec w c now st (.regroupWindow lo hi) = some done) :
    ∃ floor, crossPadFloor c st (lo - c.pad) (hi + c.pad) = some floor ∧
      done.published = [(floor, hi + c.pad)] ∧
      done.store.entries = (rebuild w c st floor hi (hi + c.pad)).entries ∧
      done.store.assigned = (rebuild w c st floor hi (hi + c.pad)).assigned ∧
      done.store.txns = (rebuild w c st floor hi (hi + c.pad)).txns := by
  obtain ⟨first, hfirst, hrest⟩ := Option.bind_eq_some_iff.mp h
  obtain ⟨floor, hfloor, rfl⟩ := Option.map_eq_some_iff.mp hfirst
  obtain ⟨st', hsaved, rfl⟩ := Option.map_eq_some_iff.mp hrest
  obtain ⟨floor', hfloor', hentries, hassigned, htxns⟩ := rest_regroupSaved hsaved
  obtain rfl := Option.some.inj (hfloor.symm.trans hfloor')
  exact ⟨floor, hfloor, rfl, hentries, hassigned, htxns⟩

/-- The commit with the saves of the head lane. -/
theorem exec_applyPlan {plan : ParkingPlan Fp} {done : Committed Fp}
    (h : Commit.exec w c now st (.applyPlan plan) = some done) :
    ∃ first, applyPlan now st plan.writes = some first ∧ done.published = first.published ∧
      done.store.entries = first.store.entries ∧ done.store.assigned = first.store.assigned ∧
      done.store.txns = first.store.txns := by
  obtain ⟨first, hfirst, hrest⟩ := Option.bind_eq_some_iff.mp h
  obtain ⟨st', hsaved, rfl⟩ := Option.map_eq_some_iff.mp hrest
  refine ⟨first, hfirst, rfl, ?_⟩
  unfold commitPlan at hsaved
  rw [hfirst] at hsaved
  exact rest_saveStreams hsaved

/-- **One commit**: what meets its condition leaves no row shifted that the tickets of its operation do not
    reach. -/
theorem reached_of_publishes (hpad : 0 < c.pad) (hids : (st.entries.map (·.id)).Nodup) {cm : Commit Fp}
    (h : Publishes w c own st cm) {done : Committed Fp} (hdone : cm.exec w c now st = some done)
    (hr : Shifts st done.store r) : Reached (own ++ ticketsOf c done.published) r.startedAt := by
  have hown : Reached own r.startedAt → Reached (own ++ ticketsOf c done.published) r.startedAt :=
    Reached.mono fun k hk => List.mem_append_left _ hk
  have hnew : Reached (ticketsOf c done.published) r.startedAt →
      Reached (own ++ ticketsOf c done.published) r.startedAt :=
    Reached.mono fun k hk => List.mem_append_right _ hk
  cases cm with
  | clearAll =>
    have hpublished : done.published = (regroupAll w c now st).published := (Option.some.inj hdone) ▸ rfl
    have hstore : done.store = emptied st := (Option.some.inj hdone) ▸ rfl
    rw [hstore] at hr
    refine hnew ?_
    rw [hpublished]
    exact reached_clearAll hpad hr
  -- the second commits publish nothing: the tickets are those of the first
  | persistAll =>
    obtain rfl := Option.some.inj hdone
    exact hown (reached_persistFresh (((readOrder_perm _).map _).nodup_iff.mpr hids) h hr)
  | freeUnsealed =>
    have hpublished : done.published = (regroupIncremental w c now st).published := (Option.some.inj hdone) ▸ rfl
    have hstore : done.store = st.freeUnsealed := (Option.some.inj hdone) ▸ rfl
    rw [hstore] at hr
    refine hnew ?_
    rw [hpublished]
    exact reached_freeUnsealed hpad h hr
  | persistTail =>
    obtain rfl := Option.some.inj hdone
    exact hown (reached_persistFresh (readOrder_nodup hids _) h hr)
  | regroupWindow lo hi =>
    obtain ⟨floor, hfloor, hpublished, hentries, hassigned, htxns⟩ := exec_regroupWindow hdone
    refine hnew ?_
    rw [hpublished]
    exact reached_rebuild hpad hids (h floor hfloor) (hr.of_rest hentries hassigned htxns)
  | applyPlan plan =>
    obtain ⟨first, hfirst, hpublished, hentries, hassigned, htxns⟩ := exec_applyPlan hdone
    refine hnew ?_
    rw [hpublished]
    exact reached_applyPlan hpad h hfirst (hr.of_rest hentries hassigned htxns)
  | reclassify since stop parser =>
    obtain rfl := Option.some.inj hdone
    obtain ⟨hold, lo, hi, hspan, howner⟩ := reclassify_shifts hr
    exact absurd howner (h lo hi hspan r hold)

/-- No commit makes two lines of one. -/
theorem exec_ids {cm : Commit Fp} {done : Committed Fp} (h : cm.exec w c now st = some done) :
    done.store.entries.map (·.id) = st.entries.map (·.id) := by
  cases cm with
  | clearAll =>
    obtain rfl := Option.some.inj h
    rfl
  | persistAll =>
    obtain rfl := Option.some.inj h
    exact congrArg _ (persist_rest _ _ _ _).1
  | freeUnsealed =>
    obtain rfl := Option.some.inj h
    rfl
  | persistTail =>
    obtain rfl := Option.some.inj h
    exact congrArg _ (persist_rest _ _ _ _).1
  | regroupWindow lo hi =>
    obtain ⟨floor, -, -, hentries, -⟩ := exec_regroupWindow h
    rw [hentries, rebuild_entries]
  | applyPlan plan =>
    obtain ⟨first, hfirst, -, hentries, -⟩ := exec_applyPlan h
    rw [hentries, (rows_applyPlan hfirst).1]
  | reclassify since stop parser =>
    obtain rfl := Option.some.inj h
    show ((Stage2.reclassify st since stop parser).store.entries).map (·.id) = _
    unfold Stage2.reclassify
    split
    · rfl
    · show (st.entries.map (parser.fix since stop)).map (·.id) = _
      rw [List.map_map]
      exact List.map_congr_left fun e _ => (parser.fix_same since stop e).1

end Commits

end RagPipeline.Analytics
