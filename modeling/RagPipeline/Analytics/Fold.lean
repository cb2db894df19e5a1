/-
  RagPipeline.Analytics.Fold — one run of the consumer: read the source range, normalise, read the
  stored range, diff, apply.

    * `sourceRows` / `storedRows` — the two reads: ONE window and ONE set of suppressed names, but the
                                    source is gated by the transaction's name today and the facts by
                                    the name they were stored under;
    * `needs`                     — the transactions whose response lines are read: no fact yet, another
                                    digest, another version, or the record grain asks;
    * `build`                     — the others carry their stored fact on verbatim;
    * `fold`                      — the diff, applied; nothing when an insert violates
                                    `uq_analytics_facts_source`.

  Everything but the facts is written after them in the same transaction and is left out.
-/
import RagPipeline.Analytics.Normalise
import RagPipeline.Lib.RangeDiff

namespace RagPipeline.Analytics

open RagPipeline.Stage2 RagPipeline.Lib

/-! ## §1. The inputs of a run. -/

/-- `UtcWindow`: half-open. -/
structure UtcWindow where
  start : Instant
  stop : Instant
  deriving DecidableEq, Repr

/-- `covers(column, include_null=True)`. -/
def UtcWindow.covers (w : UtcWindow) : Option Instant → Bool
  | none => true
  | some t => decide (w.start ≤ t ∧ t < w.stop)

/-- `is_captured`, and the two predicates: a name that is missing always passes. -/
def isCaptured (suppressed : List String) : Option String → Bool
  | none => true
  | some name => decide (name ∉ suppressed)

/-- The log tables, with the uniqueness constraint of `log_transactions`. -/
structure Source (Fp : Type) where
  store : Store Fp
  unique : (store.txns.map rowKey).Nodup

/-- What one run reads besides the facts; `refresh` is what `_records_needing_expansion` answers. -/
structure Run (Fp : Type) where
  source : Source Fp
  window : UtcWindow
  suppressed : List String := []
  zone : Zone
  config : FieldConfig
  refresh : List UUID := []

/-- `analytics_facts` of one tenant, with `uq_analytics_facts_source`. -/
abbrev Facts {Fp : Type} (fw : FoldWorld Fp) := Table (@Fact.key Fp fw)

variable {Fp : Type} {fw : FoldWorld Fp}

/-! ## §2. The reads. -/

/-- `_read_source`. -/
def Run.sourceRows (j : Run Fp) : List (TxnRow Fp) :=
  j.source.store.txns.filter fun r =>
    j.window.covers r.startedAt && isCaptured j.suppressed r.values.transactionName

/-- `_read_stored`. -/
def Run.storedRows (j : Run Fp) (facts : Facts fw) : List (Fact fw) :=
  facts.rows.filter fun f =>
    j.window.covers f.content.eventTime && isCaptured j.suppressed f.content.transactionName

/-- `stored_by_txn`: by the id ALONE, the last row of an id. -/
def Run.storedByTxn (j : Run Fp) (facts : Facts fw) (tid : UUID) : Option (Fact fw) :=
  ((j.storedRows facts).filter fun f => decide (f.content.sourceTransactionId = tid)).getLast?

/-- The lines the response half is read from. -/
def isResponse (e : LogEntry) : Bool := decide (e.entryType = .response ∨ e.entryType = .miResult)

/-- Every `response` and `mi_result` line of a transaction, by `seq`. -/
def Source.responses (s : Source Fp) (tid : UUID) : List LogEntry :=
  (s.store.linesOf tid).filter isResponse

/-- `_read_response_entries`: those of them the window covers. -/
def Run.responses (j : Run Fp) (tid : UUID) : List LogEntry :=
  (j.source.responses tid).filter fun e => j.window.covers e.timestamp

variable [DecidableEq Fp]

/-- `_needs_entries`. -/
def needsEntries (row : TxnRow Fp) (prior : Option (Fact fw)) : Bool :=
  match prior with
  | none => true
  | some p =>
      match row.rowFingerprint with
      | none => true
      | some fp =>
          decide (p.content.srcFp ≠ some fp ∨ p.content.normVersion ≠ some normaliseVersion)

/-- `needs`: a set of ids. -/
def Run.needs (j : Run Fp) (facts : Facts fw) (tid : UUID) : Bool :=
  (j.sourceRows.any fun r =>
      decide (r.id = tid) && needsEntries r (j.storedByTxn facts r.id)) ||
    decide (tid ∈ j.refresh)

/-! ## §3. The facts of a run. -/

/-- The transaction as this run normalises it. -/
def Run.normalised (fw : FoldWorld Fp) (j : Run Fp) (row : TxnRow Fp) :
    Except QualityIssue (FactContent Fp) :=
  fw.normalise j.zone j.config (j.responses row.id) row

/-- The fact of one source row: the stored one when nothing moved, else a new one or an issue. -/
def Run.build (j : Run Fp) (facts : Facts fw) (row : TxnRow Fp) : Except QualityIssue (Built fw) :=
  match j.needs facts row.id, j.storedByTxn facts row.id with
  | false, some prior => .ok prior.toBuilt
  | _, _ => (j.normalised fw row).map fw.build

/-- `facts`. -/
def Run.facts (j : Run Fp) (facts : Facts fw) : List (Built fw) :=
  j.sourceRows.filterMap fun r => (j.build facts r).toOption

/-- `issues`. -/
def Run.issues (j : Run Fp) (facts : Facts fw) : List QualityIssue :=
  j.sourceRows.filterMap fun r =>
    match j.build facts r with
    | .ok _ => none
    | .error issue => some issue

/-- How the fold compares and writes facts. -/
def folding (fw : FoldWorld Fp) : Folding (@Fact.key Fp fw) (@Built.key Fp fw) where
  same stored new := decide (stored.sourceVersionHash = new.sourceVersionHash)
  fresh new := { new with revision := 1 }
  revise stored new := { new with revision := stored.revision + 1 }
  key_fresh _ := rfl
  key_revise _ _ := rfl

/-- `diff(stored, facts)`. -/
def Run.outcomes (j : Run Fp) (facts : Facts fw) : List (Outcome FactKey (Fact fw) (Built fw)) :=
  diff (folding fw) (byKey Fact.key (j.storedRows facts)) (byKey Built.key (j.facts facts))

/-- **One run**: all of it, or none when the constraint is violated. -/
def Run.fold (j : Run Fp) (facts : Facts fw) : Option (Facts fw) :=
  applyAll (folding fw) facts (j.outcomes facts)

/-- A run that fails is rolled back. -/
def Run.after (j : Run Fp) (facts : Facts fw) : Facts fw := (j.fold facts).getD facts

/-! ## §4. What the reads contain. -/

omit [DecidableEq Fp] in
theorem mem_storedRows {j : Run Fp} {facts : Facts fw} {f : Fact fw} :
    f ∈ j.storedRows facts ↔
      f ∈ facts.rows ∧ j.window.covers f.content.eventTime = true ∧
        isCaptured j.suppressed f.content.transactionName = true := by
  simp [Run.storedRows]

omit [DecidableEq Fp] in
theorem mem_sourceRows {j : Run Fp} {r : TxnRow Fp} :
    r ∈ j.sourceRows ↔
      r ∈ j.source.store.txns ∧ j.window.covers r.startedAt = true ∧
        isCaptured j.suppressed r.values.transactionName = true := by
  simp [Run.sourceRows]

omit [DecidableEq Fp] in
/-- The stored side shows exactly the facts in the window whose stored name is captured. -/
theorem stored_get? {j : Run Fp} {facts : Facts fw} {k : FactKey} {f : Fact fw} :
    (byKey Fact.key (j.storedRows facts)).get? k = some f ↔
      facts.find k = some f ∧ j.window.covers k.2 = true ∧
        isCaptured j.suppressed f.content.transactionName = true := by
  constructor
  · intro h
    obtain ⟨hmem, rfl⟩ := byKey_sound h
    obtain ⟨hrow, hw, hc⟩ := mem_storedRows.mp hmem
    exact ⟨Table.find_of_mem hrow, hw, hc⟩
  · rintro ⟨hfind, hw, hc⟩
    obtain ⟨hrow, rfl⟩ := Table.find_eq_some.mp hfind
    have hn : ((j.storedRows facts).map Fact.key).Nodup :=
      facts.unique.sublist (List.filter_sublist.map _)
    exact byKey_of_nodup hn (mem_storedRows.mpr ⟨hrow, hw, hc⟩)

omit [DecidableEq Fp] in
theorem stored_within (j : Run Fp) (facts : Facts fw) :
    Within (byKey Fact.key (j.storedRows facts)) facts :=
  fun _ _ h => (stored_get?.mp h).1

omit [DecidableEq Fp] in
/-- The prior fact of an id is one of the stored rows, and has that id. -/
theorem storedByTxn_eq_some {j : Run Fp} {facts : Facts fw} {tid : UUID} {p : Fact fw}
    (h : j.storedByTxn facts tid = some p) :
    p ∈ j.storedRows facts ∧ p.content.sourceTransactionId = tid := by
  have hmem := List.mem_of_getLast? h
  simpa using hmem

theorem want_keyed (j : Run Fp) (facts : Facts fw) :
    ∀ k w, (byKey Built.key (j.facts facts)).get? k = some w → w.key = k :=
  fun _ _ h => (byKey_sound h).2

/-- What a row contributes: its stored fact, or its normalisation. -/
theorem mem_facts {j : Run Fp} {facts : Facts fw} {b : Built fw} :
    b ∈ j.facts facts ↔ ∃ r ∈ j.sourceRows, j.build facts r = .ok b := by
  unfold Run.facts
  rw [List.mem_filterMap]
  constructor
  · rintro ⟨r, hr, hb⟩
    refine ⟨r, hr, ?_⟩
    cases hbr : j.build facts r with
    | error i => simp [hbr, Except.toOption] at hb
    | ok b' => simpa [hbr, Except.toOption] using hb
  · rintro ⟨r, hr, hb⟩
    exact ⟨r, hr, by simp [hb, Except.toOption]⟩

/-- A row that is carried on. -/
theorem build_of_carried {j : Run Fp} {facts : Facts fw} {r : TxnRow Fp} {p : Fact fw}
    (hn : j.needs facts r.id = false) (hp : j.storedByTxn facts r.id = some p) :
    j.build facts r = .ok p.toBuilt := by
  simp [Run.build, hn, hp]

/-- A row whose lines are read. -/
theorem build_of_needs {j : Run Fp} {facts : Facts fw} {r : TxnRow Fp} (hn : j.needs facts r.id = true) :
    j.build facts r = (j.normalised fw r).map fw.build := by
  simp [Run.build, hn]

/-- A source row without a stored fact is always read. -/
theorem prior_of_not_needs {j : Run Fp} {facts : Facts fw} {r : TxnRow Fp} (hr : r ∈ j.sourceRows)
    (hn : j.needs facts r.id = false) :
    ∃ p, j.storedByTxn facts r.id = some p ∧ r.rowFingerprint ≠ none ∧
      p.content.srcFp = r.rowFingerprint ∧ p.content.normVersion = some normaliseVersion := by
  simp only [Run.needs, Bool.or_eq_false_iff, List.any_eq_false] at hn
  have hread := hn.1 r hr
  cases hp : j.storedByTxn facts r.id with
  | none => simp [needsEntries, hp] at hread
  | some p =>
      cases hfp : r.rowFingerprint with
      | none => simp [needsEntries, hp, hfp] at hread
      | some fp =>
          simp only [needsEntries, hp, hfp] at hread
          refine ⟨p, rfl, by simp, ?_⟩
          simpa using hread

/-- The fact a row of the window builds lies in the window. -/
theorem covers_of_mem_facts {j : Run Fp} {facts : Facts fw} {b : Built fw} (hb : b ∈ j.facts facts) :
    j.window.covers b.key.2 = true := by
  obtain ⟨r, hr, hbr⟩ := mem_facts.mp hb
  cases hn : j.needs facts r.id with
  | true =>
      rw [build_of_needs hn] at hbr
      cases hnr : j.normalised fw r with
      | error i => simp [hnr, Except.map] at hbr
      | ok c =>
          simp only [hnr, Except.map, Except.ok.injEq] at hbr
          subst hbr
          show j.window.covers c.key.2 = true
          rw [(normalise_ok hnr).1]
          exact (mem_sourceRows.mp hr).2.1
  | false =>
      obtain ⟨p, hp, -⟩ := prior_of_not_needs hr hn
      rw [build_of_carried hn hp] at hbr
      obtain rfl := Except.ok.inj hbr
      exact (mem_storedRows.mp (storedByTxn_eq_some hp).1).2.1

/-- **When a run fails**: a fact it builds has the key of a fact it does not see. -/
theorem fold_eq_none {j : Run Fp} {facts : Facts fw} :
    j.fold facts = none ↔
      ∃ b ∈ j.facts facts, (byKey Fact.key (j.storedRows facts)).get? b.key = none ∧
        facts.find b.key ≠ none := by
  unfold Run.fold Run.outcomes
  rw [applyAll_diff_eq_none (stored_within j facts) (want_keyed j facts)]
  constructor
  · rintro ⟨k, hk, hs, hf⟩
    obtain ⟨b, hb⟩ := Option.ne_none_iff_exists'.mp hk
    obtain ⟨hmem, rfl⟩ := byKey_sound hb
    exact ⟨b, hmem, hs, hf⟩
  · rintro ⟨b, hb, hs, hf⟩
    exact ⟨b.key, byKey_complete hb, hs, hf⟩

/-- **What every key holds after a run.** -/
theorem find_fold {j : Run Fp} {facts facts' : Facts fw} (h : j.fold facts = some facts') (k : FactKey) :
    facts'.find k =
      resolved (folding fw) (byKey Fact.key (j.storedRows facts)) (byKey Built.key (j.facts facts))
        facts k :=
  find_applyAll_diff (stored_within j facts) (want_keyed j facts) h k

/-- **Outside its window a run changes nothing**, and when it fails it changes nothing anywhere. -/
theorem find_after_outside {j : Run Fp} {facts : Facts fw} {k : FactKey}
    (hk : j.window.covers k.2 = false) : (j.after facts).find k = facts.find k := by
  cases h : j.fold facts with
  | none => simp [Run.after, h]
  | some facts' =>
      have hw : (byKey Built.key (j.facts facts)).get? k = none := by
        cases hg : (byKey Built.key (j.facts facts)).get? k with
        | none => rfl
        | some b =>
            obtain ⟨hb, rfl⟩ := byKey_sound hg
            rw [covers_of_mem_facts hb] at hk
            exact absurd hk (by simp)
      have hs : (byKey Fact.key (j.storedRows facts)).get? k = none := by
        cases hg : (byKey Fact.key (j.storedRows facts)).get? k with
        | none => rfl
        | some f =>
            rw [(stored_get?.mp hg).2.1] at hk
            exact absurd hk (by simp)
      rw [Run.after, h, Option.getD_some, find_fold h, resolved, hw, hs]

/-- A key that was not there comes from a row of the source. -/
theorem mem_source_of_new {j : Run Fp} {facts : Facts fw} {k : FactKey} (hk : facts.find k = none)
    (hk' : (j.after facts).find k ≠ none) : ∃ r ∈ j.source.store.txns, rowKey r = k := by
  cases h : j.fold facts with
  | none => simp [Run.after, h, hk] at hk'
  | some facts' =>
      rw [Run.after, h, Option.getD_some, find_fold h, resolved] at hk'
      have hs : (byKey Fact.key (j.storedRows facts)).get? k = none := by
        cases hg : (byKey Fact.key (j.storedRows facts)).get? k with
        | none => rfl
        | some f =>
            rw [(stored_get?.mp hg).1] at hk
            exact absurd hk (by simp)
      rw [hs] at hk'
      cases hw : (byKey Built.key (j.facts facts)).get? k with
      | none => simp [hw, hk] at hk'
      | some b =>
          -- the key is new, so the row was built by this run
          obtain ⟨hb, rfl⟩ := byKey_sound hw
          obtain ⟨r, hr, hbr⟩ := mem_facts.mp hb
          refine ⟨r, (mem_sourceRows.mp hr).1, ?_⟩
          cases hn : j.needs facts r.id with
          | false =>
              obtain ⟨p, hp, -⟩ := prior_of_not_needs hr hn
              rw [build_of_carried hn hp] at hbr
              obtain rfl := Except.ok.inj hbr
              have hrow := (mem_storedRows.mp (storedByTxn_eq_some hp).1).1
              have hthere : facts.find p.key = some p := Table.find_of_mem hrow
              have habsent : facts.find p.key = none := hk
              rw [hthere] at habsent
              exact absurd habsent (by simp)
          | true =>
              rw [build_of_needs hn] at hbr
              cases hc : j.normalised fw r with
              | error i => simp [hc, Except.map] at hbr
              | ok c =>
                  simp only [hc, Except.map, Except.ok.injEq] at hbr
                  subst hbr
                  exact (normalise_ok hc).1.symm

/-! ## §5. The world of the examples. -/

/-- A digest: Stage 2's of a row, or that of a fact. -/
inductive Print where
  | row (n : Nat)
  | fact (c : FactContent Print)

noncomputable instance : DecidableEq Print := fun a b =>
  match a, b with
  | .row m, .row n => decidable_of_iff (m = n) (by simp)
  | _, _ => Classical.propDecidable _

/-- A payload is its own digest; every instant is on one day; only "1" is a number. -/
def printWorld : FoldWorld Print where
  digest := .fact
  localDate := fun _ _ => 0
  parseDecimal := fun s => if s = "1" then some 1 else none

theorem printWorld_collisionFree : printWorld.CollisionFree := fun _ _ h => Print.fact.inj h

/-- No switch is on: nothing of a response is kept. -/
def requestOnly : FieldConfig := ⟨fun _ _ => [], fun _ => 0⟩

/-- A transaction of this name that starts at this instant. -/
def namedValues (name : String) (t : Instant) : TxnValues where
  jobId := 0
  customerCode := ""
  sourceFileStart := ""
  sourceFileEnd := ""
  startedAt := some t
  endedAt := some t
  date := none
  durationMs := none
  userName := none
  userId := none
  employeeName := none
  company := none
  warehouse := none
  warehouseId := none
  division := none
  facility := none
  deviceId := none
  deviceName := none
  reqid := none
  method := none
  httpMethod := "POST"
  endpointUrl := none
  transactionName := some name
  transactionType := none
  route := none
  itemNumber := none
  deliveryNumber := none
  picklistSuffix := none
  orderNumber := none
  reportingNumber := none
  status := .success
  errorText := none
  entryCount := 1
  miProgramCount := 0
  requestSummary := none
  responseSummary := none
  attributes := []

/-- Its row, with a digest of its own. -/
def namedRow (id : UUID) (name : String) (t : Instant) (fp : Nat) : TxnRow Print :=
  ⟨id, namedValues name t, true, some (.row fp), none⟩

/-- The tenant with one transaction and these lines of it. -/
def oneTransaction (row : TxnRow Print) (lines : List LogEntry) : Source Print where
  store :=
    { entries := lines
      txns := [row]
      assigned := fun e => if e ∈ lines.map (·.id) then some (row.id, e) else none }
  unique := List.nodup_singleton _

end RagPipeline.Analytics
