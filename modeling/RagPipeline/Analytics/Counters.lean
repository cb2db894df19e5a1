/-
  RagPipeline.Analytics.Counters — the volume counters of a tenant's state row.

  A fold does not recount its tables: it moves `facts_total` by what it inserted less what it reversed, and
  `record_facts_total` by the record rows it wrote less those it deleted, in its own transaction.  The first
  fold of a tenant inserts the row, with a negative figure raised to zero.  Watermarks, frontier and
  settledness are not modelled.

    * `Slice.run`          — one slice: all of it, or nothing when anything in it raises;
    * `counted_run`        — the counters stay the sizes of the tables;
    * `counters_equal_tables` — after every sequence of slices.
-/
import RagPipeline.Analytics.Ledger
import RagPipeline.Analytics.Records

namespace RagPipeline.Analytics

open RagPipeline.Stage2 RagPipeline.Lib

variable {Fp : Type} {fw : FoldWorld Fp}

/-- A row of `analytics_tenant_state`: its counters. -/
structure TenantState where
  factsTotal : ℤ
  recordFactsTotal : ℤ
  quarantinedRows : ℤ
  revision : ℕ
  deriving DecidableEq, Repr

/-- The counters of `_apply`. -/
structure FoldStats where
  inserted : ℕ
  reversed : ℕ

/-- What `_apply` counts of its verdicts. -/
def foldStats (os : List (Outcome FactKey (Fact fw) (Built fw))) : FoldStats where
  inserted := (os.map Outcome.inserts).sum
  reversed := (os.map Outcome.reverses).sum

/-- **`_update_state`**: INSERT … ON CONFLICT DO UPDATE. -/
def updateState (folded : FoldStats) (quarantined : ℕ) (recordsNet : ℤ) (state : Option TenantState) : TenantState :=
  let netFacts : ℤ := folded.inserted - folded.reversed
  match state with
  | none =>
      { factsTotal := max netFacts 0
        recordFactsTotal := max recordsNet 0
        quarantinedRows := quarantined
        revision := 1 }
  | some st =>
      { factsTotal := st.factsTotal + netFacts
        recordFactsTotal := st.recordFactsTotal + recordsNet
        quarantinedRows := st.quarantinedRows + quarantined
        revision := st.revision + 1 }

/-- The tables of a tenant the fold keeps. -/
structure Tenant (fw : FoldWorld Fp) where
  grains : Grains fw := {}
  state : Option TenantState := none

variable [DecidableEq Fp]

/-- A slice: what it reads, the switches of the record grain, and whether something after the facts raises. -/
structure Slice (Fp : Type) where
  read : Run Fp
  switches : RecordSwitches
  raises : Bool := false

/-- **One slice** of `_consume_run`: facts, records and counters, or none of them. -/
def Slice.run (p : Slice Fp) (t : Tenant fw) : Tenant fw :=
  let j := p.read.expanding p.switches t.grains.facts t.grains.records
  match j.fold t.grains.facts with
  | none => t
  | some facts =>
      if p.raises then t
      else
        let recordStats := expandRecords p.switches j t.grains.facts t.grains.records
        { grains := ⟨facts, recordStats.rows⟩
          state := some (updateState (foldStats (j.outcomes t.grains.facts)) (j.issues t.grains.facts).length
            (recordStats.records - recordStats.deleted) t.state) }

/-- The counters are the sizes of the tables; without a state row both are empty. -/
def Counted (t : Tenant fw) : Prop :=
  match t.state with
  | none => t.grains.facts.rows = [] ∧ t.grains.records = []
  | some st => st.factsTotal = t.grains.facts.rows.length ∧ st.recordFactsTotal = t.grains.records.length

/-- The facts change by what `_apply` counts. -/
theorem length_fold {j : Run Fp} {facts facts' : Facts fw} (h : j.fold facts = some facts') :
    facts'.rows.length + (foldStats (j.outcomes facts)).reversed =
      facts.rows.length + (foldStats (j.outcomes facts)).inserted :=
  length_applyAll diff_nodup (diff_keyed (want_keyed j facts)) (outcomes_fit h) h

/-- The record rows change by what `_expand_records` counts: every row it deletes is counted, those of
    reversed facts and those it writes anew. -/
theorem length_expandRecords (s : RecordSwitches) (j : Run Fp) (facts : Facts fw) (records : List RecordFact) :
    (expandRecords s j facts records).rows.length + (expandRecords s j facts records).deleted =
      records.length + (expandRecords s j facts records).records := by
  have hkept := (deleteAll_spec RecordFact.key records (reversedKeys (j.outcomes facts))).2
  unfold expandRecords
  dsimp only
  by_cases hoff : s.expanded.isEmpty = true
  · rw [if_pos hoff]
    exact hkept
  · rw [if_neg hoff]
    dsimp only
    have hcleared := (deleteAll_spec RecordFact.key
      (deleteAll RecordFact.key records (reversedKeys (j.outcomes facts))).1
      (((j.expandedFacts s facts).filter fun c =>
        !(payloadRecords (j.linesRead facts c.sourceTransactionId)).isEmpty).map FactContent.key)).2
    rw [List.length_append]
    omega

/-- **One slice keeps the counters equal to the tables.** -/
theorem counted_run (p : Slice Fp) {t : Tenant fw} (h : Counted t) : Counted (p.run t) := by
  unfold Slice.run
  dsimp only
  cases hfold : (p.read.expanding p.switches t.grains.facts t.grains.records).fold t.grains.facts with
  | none => exact h
  | some facts =>
    dsimp only
    by_cases hraises : p.raises = true
    · rw [if_pos hraises]
      exact h
    · rw [if_neg hraises]
      have hfacts := length_fold hfold
      have hrecords := length_expandRecords p.switches
        (p.read.expanding p.switches t.grains.facts t.grains.records) t.grains.facts t.grains.records
      unfold Counted updateState
      unfold Counted at h
      cases hstate : t.state with
      | none =>
        -- the tables were empty, so neither figure is negative
        rw [hstate] at h
        have hnofacts : t.grains.facts.rows.length = 0 := congrArg List.length h.1
        have hnorecords : t.grains.records.length = 0 := congrArg List.length h.2
        dsimp only
        omega
      | some st =>
        rw [hstate] at h
        obtain ⟨hf, hr⟩ := h
        dsimp only
        omega

/-- **The counters equal the tables**, after every sequence of slices. -/
theorem counters_equal_tables (ps : List (Slice Fp)) :
    Counted (ps.foldl (fun t p => p.run t) ({} : Tenant fw)) := by
  have hfrom : ∀ t : Tenant fw, Counted t → Counted (ps.foldl (fun t p => p.run t) t) := by
    induction ps with
    | nil => exact fun _ h => h
    | cons p ps ih => exact fun t h => ih (p.run t) (counted_run p h)
  exact hfrom {} ⟨rfl, rfl⟩

end RagPipeline.Analytics
