/-
  RagPipeline.Stage2.Sealer — a transaction is sealed because it is time.

  A rebuild decides `sealed` of the rows it writes; the sealer decides it of all rows of a tenant, by the same
  rule as a condition over columns.

    * `selects_due`     — the condition selects the rows the rule calls sealed, within the horizon;
    * `OnTime`          — no row is sealed that the rule does not call sealed now, and no plan in flight would
                          write one;
    * `sealed_on_time`  — over every run of both lanes, the full rebuilds, the reparse and the sealer;
    * `tick_exact`      — after a tick the sealed rows within the horizon are those of the rule, and nothing but
                          the flag and `updated_at` of the rows it sealed has changed.
-/
import RagPipeline.Lib.Groups
import RagPipeline.Lib.OptionLoops
import RagPipeline.Lib.ThreeValued
import RagPipeline.Stage2.Identity
import RagPipeline.Stage2.Interleaving

namespace RagPipeline.Stage2

open RagPipeline.Lib

variable {Fp : Type} [DecidableEq Fp]

/-! ## §1. The rule, twice. -/

/-- `_is_sealed`, for a status that may be missing. -/
def isSealedOf (cutoffs : Option (Instant × Instant)) (ended : Option Instant) (status : Option TxnStatus) : Bool :=
  match ended, cutoffs with
  | some ended, some (sealCutoff, abandonCutoff) =>
      if status = some .incomplete then decide (ended < abandonCutoff) else decide (ended < sealCutoff)
  | _, _ => false

/-- The columns of a row the sealer reads. -/
structure SealColumns where
  isSealed : Bool
  endedAt : Option Instant
  status : Option TxnStatus

/-- `_due`, over columns that may be null. -/
def due (sealCutoff abandonCutoff horizon : Instant) (r : SealColumns) : Truth :=
  .and (some !r.isSealed) <|
  .and (.isNotNull r.endedAt) <|
  .and (.compare (fun a b => decide (a ≥ b)) r.endedAt (some horizon)) <|
  .or
    (.and (.isDistinctFrom r.status (some .incomplete))
      (.compare (fun a b => decide (a < b)) r.endedAt (some sealCutoff)))
    (.and (.compare (fun a b => decide (a = b)) r.status (some .incomplete))
      (.compare (fun a b => decide (a < b)) r.endedAt (some abandonCutoff)))

/-- **The two rules are one, nulls included.** -/
theorem selects_due (sealCutoff abandonCutoff horizon : Instant) (r : SealColumns) :
    (due sealCutoff abandonCutoff horizon r).selects =
      (!r.isSealed && (r.endedAt.any fun ended => decide (horizon ≤ ended)) &&
        isSealedOf (some (sealCutoff, abandonCutoff)) r.endedAt r.status) := by
  obtain ⟨isSealed, endedAt, status⟩ := r
  unfold due isSealedOf
  simp only [Truth.selects_and, Truth.selects_or, Truth.selects_some, Truth.selects_isNotNull,
    Truth.selects_isDistinctFrom]
  cases endedAt with
  | none => simp
  | some ended =>
    -- a missing status goes with the ended ones
    cases status with
    | none => simp [Truth.compare, Truth.selects, Bool.and_assoc]
    | some status =>
      by_cases hstatus : status = .incomplete
      · simp [Truth.compare, hstatus, Bool.and_assoc]
      · simp [Truth.compare, hstatus, Bool.and_assoc]

/-- The columns of a row. -/
def TxnRow.sealColumns (r : TxnRow Fp) : SealColumns := ⟨r.isSealed, r.values.endedAt, some r.values.status⟩

omit [DecidableEq Fp] in
theorem isSealedOf_values (cutoffs : Option (Instant × Instant)) (v : TxnValues) :
    isSealedOf cutoffs v.endedAt (some v.status) = isSealedBy cutoffs v := by
  unfold isSealedOf isSealedBy
  cases v.endedAt with
  | none => rfl
  | some ended =>
    cases cutoffs with
    | none => rfl
    | some cut => simp only [Option.some.injEq]

/-! ## §2. The sealer. -/

/-- The row is to be sealed. -/
def Store.isDue (c : Settings) (st : Store Fp) (horizon : Instant) (r : TxnRow Fp) : Bool :=
  match st.cutoffs c with
  | none => false
  | some (sealCutoff, abandonCutoff) => (due sealCutoff abandonCutoff horizon r.sealColumns).selects

/-- `seal_customer`: the tables, and how many rows changed. -/
def sealCustomer (c : Settings) (horizon : Instant) (st : Store Fp) : Store Fp × ℕ :=
  ({ st with txns := st.txns.map fun r => if st.isDue c horizon r then { r with isSealed := true } else r },
    st.txns.countP (st.isDue c horizon))

/-- What the tick makes of `updated_at`, a column kept beside the rows: the database clock at each row it seals. -/
def sealedStamps (c : Settings) (horizon : Instant) (clock : ℕ → Instant) (st : Store Fp) (updatedAt : List Instant) :
    List Instant :=
  (st.txns.zip updatedAt).mapIdx fun i p => if st.isDue c horizon p.1 then clock i else p.2

omit [DecidableEq Fp] in
theorem isDue_eq (c : Settings) (st : Store Fp) (horizon : Instant) (r : TxnRow Fp) :
    st.isDue c horizon r = (!r.isSealed && (r.values.endedAt.any fun ended => decide (horizon ≤ ended)) &&
      isSealedBy (st.cutoffs c) r.values) := by
  unfold Store.isDue
  cases h : st.cutoffs c with
  | none => simp [isSealedBy]
  | some cut => simp only [selects_due, ← isSealedOf_values, TxnRow.sealColumns]

/-- What commits for a tenant: a step of the two lanes, a full rebuild, a rebuild of the unsealed tail, a reparse,
    or the sealer at some reading of the database clock. -/
inductive SealEvent where
  | lane (ev : Event)
  | regroupAll (now : Instant)
  | regroupIncremental (now : Instant)
  | reclassify (since : Instant) (stop : Option Instant) (parser : Reparse)
  | tick (horizon : Instant)

/-- One step; `none` commits nothing. -/
def sealStep (w : World Fp) (c : Settings) (s : Tenant Fp) : SealEvent → Option (Tenant Fp)
  | .lane ev => step w c s ev
  | .regroupAll now => some { s with store := (regroupAll w c now s.store).store }
  | .regroupIncremental now => some { s with store := (regroupIncremental w c now s.store).store }
  | .reclassify since stop parser => some { s with store := (reclassify s.store since stop parser).store }
  | .tick horizon => some { s with store := (sealCustomer c horizon s.store).1 }

/-! ## §3. The log's clock. -/

section Clock

variable {c : Settings} {st st' : Store Fp}

omit [DecidableEq Fp] in
/-- More lines do not turn the log's clock back. -/
theorem maxEntryTs_mono (h : ∀ t ∈ stamps st.entries, t ∈ stamps st'.entries) {t : Instant}
    (ht : st.maxEntryTs = some t) : ∃ t', st'.maxEntryTs = some t' ∧ t ≤ t' := by
  have hmem : t ∈ stamps st'.entries := h t (List.max?_mem ht)
  cases hmax : (stamps st'.entries).max? with
  | none => exact absurd (List.max?_eq_none_iff.mp hmax) (List.ne_nil_of_mem hmem)
  | some t' => exact ⟨t', hmax, (List.max?_eq_some_iff.mp hmax).2 t hmem⟩

omit [DecidableEq Fp] in
/-- **What is sealed by the rule stays so, as the log grows.** -/
theorem isSealedBy_mono (h : ∀ t ∈ stamps st.entries, t ∈ stamps st'.entries) {v : TxnValues}
    (hv : isSealedBy (st.cutoffs c) v = true) : isSealedBy (st'.cutoffs c) v = true := by
  unfold Store.cutoffs at hv ⊢
  cases hmax : st.maxEntryTs with
  | none => simp [isSealedBy, hmax] at hv
  | some t =>
    obtain ⟨t', hmax', hle⟩ := maxEntryTs_mono h hmax
    rw [hmax] at hv
    rw [hmax']
    unfold isSealedBy at hv ⊢
    cases hended : v.endedAt with
    | none => simp [hended] at hv
    | some ended =>
      simp only [hended, Option.map_some] at hv ⊢
      split
      · rename_i hincomplete
        simp only [hincomplete, if_true, decide_eq_true_eq] at hv ⊢
        exact lt_of_lt_of_le hv (Int.sub_le_sub_right hle _)
      · rename_i hincomplete
        simp only [hincomplete, if_false, decide_eq_true_eq] at hv ⊢
        exact lt_of_lt_of_le hv (Int.sub_le_sub_right hle _)

omit [DecidableEq Fp] in
theorem cutoffs_congr (h : st'.entries = st.entries) : st'.cutoffs c = st.cutoffs c := by
  unfold Store.cutoffs Store.maxEntryTs
  rw [h]

end Clock

/-! ## §4. What is sealed was due. -/

/-- Every sealed row, and every row a plan in flight would seal, is sealed by the rule at the log's clock. -/
structure OnTime (c : Settings) (s : Tenant Fp) : Prop where
  rows : ∀ r ∈ s.store.txns, r.isSealed = true → isSealedBy (s.store.cutoffs c) r.values = true
  continued : ∀ plan ∈ s.flights, ∀ x ∈ plan.writes.continued,
    x.isSealed = true → isSealedBy (s.store.cutoffs c) x.values = true
  created : ∀ plan ∈ s.flights, ∀ x ∈ plan.writes.created,
    x.isSealed = true → isSealedBy (s.store.cutoffs c) x.values = true

section Steps

variable {w : World Fp} {c : Settings} {s s' : Tenant Fp} {st : Store Fp} {lo hi : Instant}

/-- The row of a verdict is sealed by the rule. -/
theorem judge_sealed {parked : List OpenStream} {b : TxnBuilder} {v : Verdict Fp}
    (h : judge w c st parked hi b = .ok v) :
    (∀ y ∈ v.continuation?, y.1.isSealed = isSealedBy (st.cutoffs c) y.1.values) ∧
      ∀ x ∈ v.creation?, x.isSealed = isSealedBy (st.cutoffs c) x.values := by
  unfold judge at h
  dsimp only at h
  obtain ⟨-, h⟩ := guard_ok h
  obtain ⟨-, h⟩ := guard_ok h
  split at h
  · split at h
    · cases h
    · split at h
      · split at h
        · cases h
          exact ⟨fun y hy => absurd hy (Option.not_mem_none y), fun x hx => absurd hx (Option.not_mem_none x)⟩
        · cases h
          exact ⟨fun y hy => Option.mem_some_iff.mp hy ▸ rfl, fun x hx => absurd hx (Option.not_mem_none x)⟩
      · cases h
  · cases h
    exact ⟨fun y hy => absurd hy (Option.not_mem_none y), fun x hx => Option.mem_some_iff.mp hx ▸ rfl⟩

theorem buildPlan_sealed {plan : ParkingPlan Fp} (h : buildPlan w c st lo hi = .ok plan) :
    (∀ x ∈ plan.writes.continued, x.isSealed = isSealedBy (st.cutoffs c) x.values) ∧
      ∀ x ∈ plan.writes.created, x.isSealed = isSealedBy (st.cutoffs c) x.values := by
  obtain ⟨parked, vs, -, -, hall, rfl⟩ := buildPlan_spec h
  constructor
  · intro x hx
    obtain ⟨y, hy, rfl⟩ := List.mem_map.mp hx
    obtain ⟨p, hp, hv⟩ := List.mem_filterMap.mp hy
    exact (judge_sealed (hall p hp)).1 y hv
  · intro x hx
    obtain ⟨p, hp, hv⟩ := List.mem_filterMap.mp hx
    exact (judge_sealed (hall p hp)).2 x hv

omit [DecidableEq Fp] in
/-- The tables change, the log only grows, and a row that is sealed was so before or is by the rule. -/
theorem OnTime.of_rows (hs : OnTime c s) (hflights : s'.flights = s.flights)
    (hgrow : ∀ t ∈ stamps s.store.entries, t ∈ stamps s'.store.entries)
    (hrows : ∀ r ∈ s'.store.txns, r.isSealed = true →
      (∃ r₀ ∈ s.store.txns, r₀.isSealed = true ∧ r₀.values = r.values) ∨
        isSealedBy (s'.store.cutoffs c) r.values = true) : OnTime c s' where
  rows r hr hsealed := by
    obtain ⟨r₀, hr₀, hsealed₀, hvalues⟩ | hdue := hrows r hr hsealed
    · rw [← hvalues]
      exact isSealedBy_mono hgrow (hs.rows r₀ hr₀ hsealed₀)
    · exact hdue
  continued plan hplan x hx hsealed :=
    isSealedBy_mono hgrow (hs.continued plan (hflights ▸ hplan) x hx hsealed)
  created plan hplan x hx hsealed :=
    isSealedBy_mono hgrow (hs.created plan (hflights ▸ hplan) x hx hsealed)

/-- A row that `_persist` leaves was there, or is sealed as the rule has it. -/
theorem persist_sealed {a : PersistArgs Fp} {gs : List Group} {r : TxnRow Fp}
    (h : r ∈ (persist w a st gs).1.txns) : r ∈ st.txns ∨ r.isSealed = isSealedBy a.cutoffs r.values := by
  obtain hold | ⟨g, -, rfl⟩ := persist_new h
  · exact .inl hold
  · exact .inr rfl

/-- The same of a full rebuild, which leaves the lines as they are. -/
theorem persistFresh_sealed {rows : List LogEntry} {r : TxnRow Fp} (h : r ∈ (persistFresh w c st rows).txns) :
    r ∈ st.txns ∨ r.isSealed = isSealedBy (st.cutoffs c) r.values :=
  persist_sealed (a := freshArgs w c st rows) h

theorem persistFresh_entries (w : World Fp) (c : Settings) (st : Store Fp) (rows : List LogEntry) :
    (persistFresh w c st rows).entries = st.entries :=
  (persist_rest w (freshArgs w c st rows) st (freshGroups w c rows)).1

theorem rebuild_sealed {floor hiP : Instant} {r : TxnRow Fp} (h : r ∈ (rebuild w c st floor hi hiP).txns) :
    r ∈ st.txns ∨ r.isSealed = isSealedBy (st.cutoffs c) r.values := by
  have hcleared : ∀ r ∈ (st.cleared c floor hi).txns, r ∈ st.txns := by
    intro r hr
    unfold Store.cleared at hr
    split at hr
    · exact hr
    · exact List.mem_of_mem_filter hr
  unfold rebuild at h
  split at h
  · exact .inl (hcleared r (List.mem_of_mem_filter h))
  · exact (persist_sealed h).imp_left (hcleared r)

theorem onTime_lane {ev : Event} (hs : OnTime c s) (hstep : step w c s ev = some s') : OnTime c s' := by
  cases ev with
  | plan lo hi =>
    unfold step at hstep
    dsimp only at hstep
    split at hstep
    · next plan hplan =>
      cases hstep
      -- a plan is sealed by the rule of the moment it is built in; lines that arrive later only move the cutoff on
      obtain ⟨hcont, hcreate⟩ := buildPlan_sealed hplan
      refine ⟨hs.rows, fun p hp x hx hsealed => ?_, fun p hp x hx hsealed => ?_⟩
      · cases List.mem_append.mp hp with
        | inl hold => exact hs.continued p hold x hx hsealed
        | inr hnew =>
          obtain rfl := List.mem_singleton.mp hnew
          exact hcont x hx ▸ hsealed
      · cases List.mem_append.mp hp with
        | inl hold => exact hs.created p hold x hx hsealed
        | inr hnew =>
          obtain rfl := List.mem_singleton.mp hnew
          exact hcreate x hx ▸ hsealed
    · cases hstep
  | apply flight now =>
    obtain ⟨plan, hplan, hcommit⟩ := Option.bind_eq_some_iff.mp hstep
    obtain ⟨st, hst, rfl⟩ := Option.map_eq_some_iff.mp hcommit
    -- what is committed comes from the plan in flight or was there; the saved streams are no rows
    obtain ⟨done, hdone, hsaved⟩ := Option.bind_eq_some_iff.mp hst
    obtain ⟨hsame, -, htxns⟩ := rest_saveStreams hsaved
    have hin : plan ∈ s.flights := List.mem_of_getElem? hplan
    obtain ⟨hentries, -, hrows⟩ := rows_applyPlan hdone
    have hcut : st.cutoffs c = s.store.cutoffs c := cutoffs_congr (hsame.trans hentries)
    have hrest : ∀ p ∈ s.flights.eraseIdx flight, p ∈ s.flights := fun p hp =>
      (List.eraseIdx_sublist s.flights flight).subset hp
    refine ⟨fun r hr hsealed => ?_, fun p hp x hx hsealed => ?_, fun p hp x hx hsealed => ?_⟩
    · show isSealedBy (st.cutoffs c) r.values = true
      rw [hcut]
      obtain ⟨x, hx, rfl⟩ | ⟨x, hx, rfl⟩ | ⟨hold, -⟩ := hrows r (htxns ▸ hr)
      · exact hs.continued plan hin x hx hsealed
      · exact hs.created plan hin x hx hsealed
      · exact hs.rows r hold hsealed
    · show isSealedBy (st.cutoffs c) x.values = true
      rw [hcut]
      exact hs.continued p (hrest p hp) x hx hsealed
    · show isSealedBy (st.cutoffs c) x.values = true
      rw [hcut]
      exact hs.created p (hrest p hp) x hx hsealed
  | rebuild lo hi =>
    obtain ⟨st, hst, rfl⟩ := Option.map_eq_some_iff.mp hstep
    obtain ⟨floor, -, hsame, -, htxns⟩ := rest_regroupSaved hst
    have hentries : st.entries = s.store.entries := hsame.trans rebuild_entries
    refine hs.of_rows rfl (fun t ht => ?_) (fun r hr hsealed => ?_)
    · show t ∈ stamps st.entries
      rw [hentries]
      exact ht
    · obtain hold | hrule := rebuild_sealed (htxns ▸ hr)
      · exact .inl ⟨r, hold, hsealed, rfl⟩
      · refine .inr ?_
        rw [cutoffs_congr hentries]
        exact hrule ▸ hsealed
  | arrive es =>
    cases hstep
    refine hs.of_rows rfl (fun t ht => ?_) (fun r hr hsealed => .inl ⟨r, hr, hsealed, rfl⟩)
    show t ∈ (s.store.entries ++ es).filterMap _
    rw [List.filterMap_append]
    exact List.mem_append.mpr (.inl ht)
  | advance hi =>
    cases hstep
    exact ⟨hs.rows, hs.continued, hs.created⟩

end Steps

/-! ## §5. Every run. -/

section Runs

variable {w : World Fp} {c : Settings} {s s' : Tenant Fp}

/-- Parsing again keeps every timestamp. -/
theorem stamps_fix (p : Reparse) (since : Instant) (stop : Option Instant) (es : List LogEntry) :
    stamps (es.map (p.fix since stop)) = stamps es := by
  unfold stamps
  rw [List.filterMap_map]
  exact List.filterMap_congr fun e _ => (p.fix_same since stop e).2

theorem onTime_step {ev : SealEvent} (hs : OnTime c s) (hstep : sealStep w c s ev = some s') : OnTime c s' := by
  cases ev with
  | lane ev => exact onTime_lane hs hstep
  | regroupAll now =>
    obtain rfl := Option.some.inj hstep
    -- every row is written anew by the derive path, under the cutoffs of this moment
    have hentries := persistFresh_entries w c { s.store with assigned := fun _ => none, txns := [] }
      (readOrder s.store.entries)
    refine hs.of_rows rfl (fun t ht => ?_) (fun r hr hsealed => ?_)
    · exact (congrArg (t ∈ stamps ·) hentries).mpr ht
    · obtain hold | hrule := persistFresh_sealed hr
      · exact absurd hold List.not_mem_nil
      · exact .inr ((cutoffs_congr (c := c) hentries).symm ▸ hrule ▸ hsealed)
  | regroupIncremental now =>
    obtain rfl := Option.some.inj hstep
    have hentries := persistFresh_entries w c s.store.freeUnsealed (s.store.freeUnsealed.liveTail c)
    refine hs.of_rows rfl (fun t ht => ?_) (fun r hr hsealed => ?_)
    · exact (congrArg (t ∈ stamps ·) hentries).mpr ht
    · obtain hold | hrule := persistFresh_sealed hr
      · exact .inl ⟨r, List.mem_of_mem_filter hold, hsealed, rfl⟩
      · exact .inr ((cutoffs_congr (c := c) hentries).symm ▸ hrule ▸ hsealed)
  | reclassify since stop parser =>
    cases hstep
    unfold reclassify
    split
    · exact ⟨hs.rows, hs.continued, hs.created⟩
    · refine hs.of_rows rfl (fun t ht => ?_)
        (fun r hr hsealed => .inl ⟨r, List.mem_of_mem_filter hr, hsealed, rfl⟩)
      show t ∈ stamps (s.store.entries.map (parser.fix since stop))
      rw [stamps_fix]
      exact ht
  | tick horizon =>
    cases hstep
    refine hs.of_rows rfl (fun t ht => ht) (fun r hr hsealed => ?_)
    -- a row the tick seals passes the rule, any other keeps its flag
    obtain ⟨r₀, hr₀, rfl⟩ := List.mem_map.mp hr
    by_cases hdue : s.store.isDue c horizon r₀ = true
    · rw [if_pos hdue]
      rw [isDue_eq, Bool.and_eq_true] at hdue
      exact .inr hdue.2
    · rw [if_neg hdue] at hsealed ⊢
      exact .inl ⟨r₀, hr₀, hsealed, rfl⟩

omit [DecidableEq Fp] in
theorem onTime_empty (c : Settings) : OnTime c ({} : Tenant Fp) where
  rows _ hr := absurd hr List.not_mem_nil
  continued _ hp := absurd hp List.not_mem_nil
  created _ hp := absurd hp List.not_mem_nil

theorem onTime_reachable {evs : List SealEvent} (hrun : evs.foldlM (sealStep w c) ({} : Tenant Fp) = some s) :
    OnTime c s :=
  foldlM_induct (P := OnTime c) (fun _ _ _ hs hstep => onTime_step hs hstep) evs (onTime_empty c) hrun

/-- **No row is ever sealed before its time**: over every run from empty tables, whatever plans are applied late
    and however the clock of the database reads, a sealed row is one the rule calls sealed at the log's clock. -/
theorem sealed_on_time {evs : List SealEvent} (hrun : evs.foldlM (sealStep w c) ({} : Tenant Fp) = some s) :
    ∀ r ∈ s.store.txns, r.isSealed = true → isSealedBy (s.store.cutoffs c) r.values = true :=
  (onTime_reachable hrun).rows

/-- A conversation without an answer is written, and two hours later there is another line. -/
def quietRun : List SealEvent :=
  [.lane (.arrive twoLines.entries), .regroupAll 0,
    .lane (.arrive [{ stampedOf 3 .request (7200 * second) with lineNumber := some 100 }])]

theorem quietRun_runs : (quietRun.foldlM (sealStep plainWorld {}) ({} : Tenant Nat)).isSome = true := by
  decide

def quietTenant : Tenant Nat := (quietRun.foldlM (sealStep plainWorld {}) {}).get quietRun_runs

/-- And the sealer comes by. -/
def sealedRun : List SealEvent := quietRun ++ [.tick 0]

theorem sealedRun_runs : (sealedRun.foldlM (sealStep plainWorld {}) ({} : Tenant Nat)).isSome = true := by
  decide

def sealedTenant : Tenant Nat := (sealedRun.foldlM (sealStep plainWorld {}) {}).get sealedRun_runs

theorem sealed_on_time_quiet :
    (sealedTenant.store.txns.all fun r => !r.isSealed || isSealedBy (sealedTenant.store.cutoffs {}) r.values) = true ∧
      sealedTenant.store.txns.any TxnRow.isSealed = true := by
  refine ⟨List.all_eq_true.mpr fun r hr => ?_, by decide⟩
  cases hsealed : r.isSealed with
  | false => rfl
  | true => exact sealed_on_time (Option.some_get sealedRun_runs).symm r hr hsealed

/-- Within the horizon. -/
def TxnRow.recent (horizon : Instant) (r : TxnRow Fp) : Bool :=
  r.values.endedAt.any fun ended => decide (horizon ≤ ended)

/-- **After a tick the sealed rows within the horizon are those of the rule**: no other table and no column but the
    flag and `updated_at` has changed, `updated_at` has where the flag has, that is as often as the count says, older
    rows are as they were, and a second tick finds nothing to do. -/
theorem tick_exact {evs : List SealEvent} (hrun : evs.foldlM (sealStep w c) ({} : Tenant Fp) = some s)
    (horizon : Instant) :
    (∀ r ∈ (sealCustomer c horizon s.store).1.txns, r.recent horizon = true →
      r.isSealed = isSealedBy ((sealCustomer c horizon s.store).1.cutoffs c) r.values) ∧
    { (sealCustomer c horizon s.store).1 with txns := s.store.txns } = s.store ∧
    (sealCustomer c horizon s.store).1.txns.map (fun r => { r with isSealed := false }) =
      s.store.txns.map (fun r => { r with isSealed := false }) ∧
    (∀ (clock : ℕ → Instant) (updatedAt : List Instant) (i : ℕ) (r r' : TxnRow Fp) (old : Instant),
      s.store.txns[i]? = some r → (sealCustomer c horizon s.store).1.txns[i]? = some r' → updatedAt[i]? = some old →
      (sealedStamps c horizon clock s.store updatedAt)[i]? = some (if r'.isSealed = r.isSealed then old else clock i)) ∧
    (∀ r ∈ (sealCustomer c horizon s.store).1.txns, r.recent horizon = false → r ∈ s.store.txns) ∧
    (sealCustomer c horizon s.store).1.txns.countP TxnRow.isSealed =
      s.store.txns.countP TxnRow.isSealed + (sealCustomer c horizon s.store).2 ∧
    ∀ later, horizon ≤ later → sealCustomer c later (sealCustomer c horizon s.store).1 =
      ((sealCustomer c horizon s.store).1, 0) := by
  have hdue := fun r => isDue_eq c s.store horizon r
  have hrule := (onTime_reachable hrun).rows
  have hcut : (sealCustomer c horizon s.store).1.cutoffs c = s.store.cutoffs c := rfl
  -- what the tick makes of a row
  have hcases : ∀ r ∈ (sealCustomer c horizon s.store).1.txns, ∃ r₀ ∈ s.store.txns,
      (s.store.isDue c horizon r₀ = true ∧ r = { r₀ with isSealed := true }) ∨
        (s.store.isDue c horizon r₀ = false ∧ r = r₀) := by
    intro r hr
    obtain ⟨r₀, hr₀, rfl⟩ := List.mem_map.mp hr
    cases h : s.store.isDue c horizon r₀ with
    | true => exact ⟨r₀, hr₀, .inl ⟨h, rfl⟩⟩
    | false => exact ⟨r₀, hr₀, .inr ⟨h, rfl⟩⟩
  have hexact : ∀ r ∈ (sealCustomer c horizon s.store).1.txns, r.recent horizon = true →
      r.isSealed = isSealedBy (s.store.cutoffs c) r.values := by
    intro r hr hrecent
    obtain ⟨r₀, hr₀, ⟨h, rfl⟩ | ⟨h, rfl⟩⟩ := hcases r hr
    · rw [hdue, Bool.and_eq_true] at h
      exact h.2.symm
    · rw [hdue] at h
      unfold TxnRow.recent at hrecent
      rw [hrecent, Bool.and_true] at h
      cases hsealed : r.isSealed with
      | true => exact (hrule r hr₀ hsealed).symm
      | false => simpa [hsealed] using h
  refine ⟨fun r hr hrecent => hcut ▸ hexact r hr hrecent, rfl, ?_, ?_, ?_, ?_, ?_⟩
  · show (s.store.txns.map _).map _ = _
    rw [List.map_map]
    refine List.map_congr_left fun r _ => ?_
    cases h : s.store.isDue c horizon r <;> simp [h]
  · intro clock updatedAt i r r' old hr hr' hold
    have hafter : r' = if s.store.isDue c horizon r then { r with isSealed := true } else r := by
      have hmap : (s.store.txns.map fun r => if s.store.isDue c horizon r then { r with isSealed := true } else r)[i]? =
          some r' := hr'
      rw [List.getElem?_map, hr] at hmap
      exact (Option.some.inj hmap).symm
    have hzip : (s.store.txns.zip updatedAt)[i]? = some (r, old) := by
      rw [List.getElem?_zip_eq_some]
      exact ⟨hr, hold⟩
    unfold sealedStamps
    rw [List.getElem?_mapIdx, hzip, hafter, Option.map_some]
    cases h : s.store.isDue c horizon r with
    | false => simp
    | true =>
      -- a row that is due is not sealed yet
      rw [hdue, Bool.and_eq_true, Bool.and_eq_true, Bool.not_eq_true'] at h
      simp [h.1.1]
  · intro r hr hold
    obtain ⟨r₀, hr₀, ⟨h, rfl⟩ | ⟨h, rfl⟩⟩ := hcases r hr
    · rw [hdue, Bool.and_eq_true, Bool.and_eq_true] at h
      exact absurd h.1.2 (by simpa [TxnRow.recent] using hold)
    · exact hr₀
  · -- a row that is due is not sealed yet
    have happart : ∀ r ∈ s.store.txns, ¬(r.isSealed = true ∧ s.store.isDue c horizon r = true) := by
      rintro r - ⟨hsealed, h⟩
      rw [hdue, hsealed] at h
      simp at h
    have hsum := (filter_append_filter s.store.txns happart).length_eq
    rw [List.length_append] at hsum
    show (s.store.txns.map _).countP _ = _ + s.store.txns.countP _
    rw [List.countP_map, List.countP_eq_length_filter, List.countP_eq_length_filter,
      List.countP_eq_length_filter, hsum]
    congr 1
    refine List.filter_congr fun r _ => ?_
    cases h : s.store.isDue c horizon r <;> simp [h]
  · intro later hlater
    have hnone : ∀ r ∈ (sealCustomer c horizon s.store).1.txns,
        (sealCustomer c horizon s.store).1.isDue c later r = false := by
      intro r hr
      rw [isDue_eq, hcut]
      cases hl : r.values.endedAt.any fun ended => decide (later ≤ ended) with
      | false => simp
      | true =>
        have hrecent : r.recent horizon = true := by
          unfold TxnRow.recent
          cases hended : r.values.endedAt with
          | none => simp [hended] at hl
          | some ended =>
            simp only [hended, Option.any_some, decide_eq_true_eq] at hl ⊢
            exact le_trans hlater hl
        rw [← hexact r hr hrecent]
        simp
    have hmap : (sealCustomer c horizon s.store).1.txns.map (fun r =>
        if (sealCustomer c horizon s.store).1.isDue c later r then { r with isSealed := true } else r) =
        (sealCustomer c horizon s.store).1.txns := by
      refine (List.map_congr_left fun r hr => ?_).trans (List.map_id _)
      rw [hnone r hr]
      rfl
    have hzero : (sealCustomer c horizon s.store).1.txns.countP
        ((sealCustomer c horizon s.store).1.isDue c later) = 0 :=
      List.countP_eq_zero.mpr fun r hr => by simp [hnone r hr]
    generalize (sealCustomer c horizon s.store).1 = after at hmap hzero ⊢
    unfold sealCustomer
    rw [hmap, hzero]

example : (sealCustomer {} 0 quietTenant.store).2 = 1 := by decide

/-- The conversation is sealed once. -/
theorem tick_exact_quiet : sealCustomer {} 5 (sealCustomer {} 0 quietTenant.store).1 =
    ((sealCustomer {} 0 quietTenant.store).1, 0) :=
  (tick_exact (Option.some_get quietRun_runs).symm 0).2.2.2.2.2.2 5 (by decide)

end Runs

end RagPipeline.Stage2
