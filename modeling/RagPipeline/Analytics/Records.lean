/-
  RagPipeline.Analytics.Records — the record grain: one row for each M3 record of an expanded transaction.

  The rows of a transaction are replaced as a set.  Two things drive that: the fact diff's inserts and
  updates, and the settled transactions whose rows are missing or were written under other rules.  A fact
  that is reversed takes its rows along first.

    * `payloadRecords`             — the records in a transaction's response lines;
    * `recordsNeedingExpansion`    — the settled transactions to expand again;
    * `expandRecords`              — what a fold does to the rows;
    * `rows_expandRecords`         — the rows of each transaction afterwards;
    * `records_exact_iff`          — when they are its records.  A transaction without records is passed over
                                     before its old rows are deleted, and a fact that is reversed in the fold
                                     that refreshes it gets its rows back.
-/
import Mathlib.Data.String.Basic
import RagPipeline.Analytics.Capture
import RagPipeline.Lib.KeyedRows

namespace RagPipeline.Analytics

open RagPipeline.Stage2 RagPipeline.Lib

variable {Fp : Type} {fw : FoldWorld Fp}

/-! ## §1. Records. -/

/-- A record, with the call that answered it. -/
structure MiRecord where
  miProgram : Option Json
  miTransaction : Option Json
  attributes : JObject

/-- `fields.get(k)` when it is a scalar. -/
def scalarField (fields : JObject) (k : String) : Option Json :=
  match JObject.get? fields k with
  | some v => if v.isContainer then none else some v
  | none => none

/-- One element of `records[]`: an object's scalars, under `rec.`; anything else is dropped. -/
def recordOf (fields : JObject) : Json → Option MiRecord
  | .obj kvs =>
      some
        { miProgram := scalarField fields "program"
          miTransaction := scalarField fields "transaction"
          attributes := (kvs.filter fun p => !p.2.isContainer).map fun p => ("rec." ++ p.1, p.2) }
  | .null | .bool _ | .int _ | .float _ | .str _ | .arr _ => none

/-- `payload.records`. -/
def payloadRecords (lines : List LogEntry) : List MiRecord :=
  lines.flatMap fun e =>
    match e.entryType, JObject.get? e.fields "records" with
    | .miResult, some (.arr recs) => recs.filterMap (recordOf e.fields)
    | _, _ => []

/-- A row of `analytics_record_facts`; `id` and `created_at` are not read by the fold. -/
structure RecordFact where
  sourceTransactionId : UUID
  sourceStartedAt : Option Instant
  recordIndex : ℕ
  eventTime : Option Instant
  businessDate : Option Day
  method : Option String
  transactionName : Option String
  miProgram : Option Json
  miTransaction : Option Json
  attributes : JObject

/-- The fact a row belongs to. -/
def RecordFact.key (r : RecordFact) : FactKey := (r.sourceTransactionId, r.eventTime)

/-- The switches of the record grain: the names that are expanded, the approved fields, and
    `_expansion_version` of the approved record fields. -/
structure RecordSwitches where
  expanded : List String
  approved : List String
  expVersion : String

/-- `fact["transaction_name"] in expanded`. -/
def RecordSwitches.expands (s : RecordSwitches) (c : FactContent Fp) : Bool :=
  match c.transactionName with
  | some name => decide (name ∈ s.expanded)
  | none => false

/-- The row of the `index`-th record of a transaction. -/
def recordRow (s : RecordSwitches) (c : FactContent Fp) (p : MiRecord × ℕ) : RecordFact where
  sourceTransactionId := c.sourceTransactionId
  sourceStartedAt := c.sourceStartedAt
  recordIndex := p.2
  eventTime := c.eventTime
  businessDate := c.businessDate
  method := c.method
  transactionName := c.transactionName
  miProgram := p.1.miProgram
  miTransaction := p.1.miTransaction
  attributes := (p.1.attributes.filter fun q => decide (q.1 ∈ s.approved)) ++ [("_exp_v", .str s.expVersion)]

/-- The rows of a transaction with these records: one for each, in order. -/
def expansion (s : RecordSwitches) (c : FactContent Fp) (recs : List MiRecord) : List RecordFact :=
  recs.zipIdx.map (recordRow s c)

/-! ## §2. Which transactions. -/

/-- `_predicts_records`: the fact says that its response carried records. -/
def predictsRecords (f : Fact fw) : Bool := decide (0 < f.content.miRecords)

/-- `attributes["_exp_v"]`. -/
def RecordFact.expVersion (r : RecordFact) : Option String :=
  match JObject.get? r.attributes "_exp_v" with
  | some v => some v.pyStr
  | none => none

/-- The least version among a transaction's rows in the window, if there are any. -/
def Run.presentVersion (j : Run Fp) (records : List RecordFact) (tid : UUID) : Option String :=
  ((records.filter fun r => j.window.covers r.eventTime && decide (r.sourceTransactionId = tid)).filterMap
    RecordFact.expVersion).min?

/-- `_records_needing_expansion`: stored facts that predict records, and whose rows are missing or stale. -/
def recordsNeedingExpansion (s : RecordSwitches) (j : Run Fp) (facts : Facts fw) (records : List RecordFact) :
    List UUID :=
  (((j.storedRows facts).map fun f => f.content.sourceTransactionId).dedup.filter fun tid =>
    match j.storedByTxn facts tid with
    | some f => s.expands f.content && predictsRecords f
    | none => false).filter fun tid => decide (j.presentVersion records tid ≠ some s.expVersion)

/-- The run, with the transactions the record grain asks for. -/
def Run.expanding (s : RecordSwitches) (j : Run Fp) (facts : Facts fw) (records : List RecordFact) : Run Fp :=
  { j with refresh := recordsNeedingExpansion s j facts records }

/-- The facts a diff inserts or updates. -/
def changedFacts (os : List (Outcome FactKey (Fact fw) (Built fw))) : List (FactContent Fp) :=
  os.filterMap fun
    | .insert _ b | .update _ _ b => some b.content
    | .unchanged _ _ | .reverse _ _ => none

/-- The facts it reverses. -/
def reversedKeys (os : List (Outcome FactKey (Fact fw) (Built fw))) : List FactKey :=
  os.filterMap fun
    | .reverse _ old => some old.key
    | .insert _ _ | .update _ _ _ | .unchanged _ _ => none

variable [DecidableEq Fp]

/-- `by_txn`: the lines that were read. -/
def Run.linesRead (j : Run Fp) (facts : Facts fw) (tid : UUID) : List LogEntry :=
  if j.needs facts tid then j.responses tid else []

/-- `refresh_facts`: what is stored of the transactions to expand again, but for those that changed. -/
def Run.refreshedFacts (j : Run Fp) (facts : Facts fw) : List (FactContent Fp) :=
  j.refresh.filterMap fun tid =>
    if tid ∈ (changedFacts (j.outcomes facts)).map FactContent.sourceTransactionId then none
    else (j.storedByTxn facts tid).map fun f => f.content

/-- The facts that are inserted, updated or refreshed, and whose name is expanded. -/
def Run.expandedFacts (s : RecordSwitches) (j : Run Fp) (facts : Facts fw) : List (FactContent Fp) :=
  (changedFacts (j.outcomes facts) ++ j.refreshedFacts facts).filter s.expands

/-! ## §3. What a fold does. -/

/-- The rows after the fold, and the counters of its result. -/
structure Expansion where
  rows : List RecordFact
  records : ℕ := 0
  transactions : ℕ := 0
  deleted : ℕ := 0

/-- **`_expand_records`.** -/
def expandRecords (s : RecordSwitches) (j : Run Fp) (facts : Facts fw) (records : List RecordFact) : Expansion :=
  let (kept, deleted) := deleteAll RecordFact.key records (reversedKeys (j.outcomes facts))
  if s.expanded.isEmpty then { rows := kept, deleted := deleted }
  else
    let recordsOf := fun c : FactContent Fp => payloadRecords (j.linesRead facts c.sourceTransactionId)
    -- no records, nothing to do: the rows of an earlier version are not touched either
    let touched := (j.expandedFacts s facts).filter fun c => !(recordsOf c).isEmpty
    let new := touched.flatMap fun c => expansion s c (recordsOf c)
    let (cleared, replaced) := deleteAll RecordFact.key kept (touched.map FactContent.key)
    { rows := cleared ++ new
      records := new.length
      transactions := touched.length
      deleted := deleted + replaced }

/-- Both grains of a tenant. -/
structure Grains (fw : FoldWorld Fp) where
  facts : Facts fw := Table.empty
  records : List RecordFact := []

/-- **One run**, both grains. -/
def Run.foldGrains (s : RecordSwitches) (j : Run Fp) (g : Grains fw) : Option (Grains fw) :=
  ((j.expanding s g.facts g.records).fold g.facts).map fun facts =>
    ⟨facts, (expandRecords s (j.expanding s g.facts g.records) g.facts g.records).rows⟩

/-- After a run: every fact that was inserted, updated or refreshed and is expanded has the rows of its
    records, all that its transaction has; and a fact that was reversed has none. -/
structure RecordsExact (s : RecordSwitches) (j : Run Fp) (facts : Facts fw) (records : List RecordFact) :
    Prop where
  expanded : ∀ c ∈ j.expandedFacts s facts, c.key ∉ reversedKeys (j.outcomes facts) →
    rowsOf RecordFact.key c.key records =
      expansion s c (payloadRecords (j.source.responses c.sourceTransactionId))
  reversed : ∀ k ∈ reversedKeys (j.outcomes facts), rowsOf RecordFact.key k records = []

/-- Before a run: where the window shows no records of a fact to expand, the stored rows are those of its
    records already; where it shows some, it shows all; and no fact that is refreshed and reversed has any. -/
structure RecordsReady (s : RecordSwitches) (j : Run Fp) (facts : Facts fw) (records : List RecordFact) :
    Prop where
  empty : ∀ c ∈ j.expandedFacts s facts, c.key ∉ reversedKeys (j.outcomes facts) →
    payloadRecords (j.responses c.sourceTransactionId) = [] →
      rowsOf RecordFact.key c.key records =
        expansion s c (payloadRecords (j.source.responses c.sourceTransactionId))
  whole : ∀ c ∈ j.expandedFacts s facts, c.key ∉ reversedKeys (j.outcomes facts) →
    payloadRecords (j.responses c.sourceTransactionId) ≠ [] →
      expansion s c (payloadRecords (j.responses c.sourceTransactionId)) =
        expansion s c (payloadRecords (j.source.responses c.sourceTransactionId))
  gone : ∀ c ∈ j.expandedFacts s facts, c.key ∈ reversedKeys (j.outcomes facts) →
    payloadRecords (j.responses c.sourceTransactionId) = []

/-! ## §4. The facts that are expanded. -/

section Facts

variable {s : RecordSwitches} {j : Run Fp} {facts : Facts fw}

omit [DecidableEq Fp] in
/-- A fact that is inserted or updated has the key of its verdict. -/
theorem mem_changedFacts {os : List (Outcome FactKey (Fact fw) (Built fw))} {c : FactContent Fp}
    (h : c ∈ changedFacts os) :
    ∃ b : Built fw, b.content = c ∧ ((∃ k, Outcome.insert k b ∈ os) ∨ ∃ k old, Outcome.update k old b ∈ os) := by
  obtain ⟨o, ho, hc⟩ := List.mem_filterMap.mp h
  cases o with
  | insert k b => exact ⟨b, Option.some.inj hc, .inl ⟨k, ho⟩⟩
  | update k old b => exact ⟨b, Option.some.inj hc, .inr ⟨k, old, ho⟩⟩
  | unchanged k old => cases hc
  | reverse k old => cases hc

/-- **Its lines were read**: a fact that is carried on is unchanged. -/
theorem needs_of_changed {c : FactContent Fp} (h : c ∈ changedFacts (j.outcomes facts)) :
    j.needs facts c.sourceTransactionId = true := by
  obtain ⟨b, rfl, hverdict⟩ := mem_changedFacts h
  have hbuilt : b ∈ j.facts facts := by
    cases hverdict with
    | inl hins =>
      obtain ⟨k, hk⟩ := hins
      exact (byKey_sound (mem_diff_insert.mp hk).1).1
    | inr hupd =>
      obtain ⟨k, old, hk⟩ := hupd
      exact (byKey_sound (mem_diff_update hk).1).1
  obtain ⟨r, hr, hbr⟩ := mem_facts.mp hbuilt
  cases hn : j.needs facts r.id with
  | true =>
    rw [build_of_needs hn] at hbr
    cases hc : j.normalised fw r with
    | error i =>
      rw [hc] at hbr
      cases hbr
    | ok c =>
      rw [hc] at hbr
      cases hbr
      have hid : c.sourceTransactionId = r.id := congrArg Prod.fst (normalise_ok hc).1
      show j.needs facts c.sourceTransactionId = true
      rw [hid]
      exact hn
  | false =>
    obtain ⟨p, hp, -⟩ := prior_of_not_needs hr hn
    rw [build_of_carried hn hp] at hbr
    cases hbr
    -- the stored side shows it, with the same hash
    obtain ⟨hrow, hw, hcap⟩ := mem_storedRows.mp (storedByTxn_eq_some hp).1
    have hshown := stored_get?.mpr ⟨Table.find_of_mem hrow, hw, hcap⟩
    cases hverdict with
    | inl hins =>
      obtain ⟨k, hk⟩ := hins
      obtain ⟨hwant, hnone⟩ := mem_diff_insert.mp hk
      have hkey : p.key = k := (byKey_sound hwant).2
      rw [← hkey, hshown] at hnone
      cases hnone
    | inr hupd =>
      obtain ⟨k, old, hk⟩ := hupd
      obtain ⟨hwant, hold, hdiff⟩ := mem_diff_update hk
      have hkey : p.key = k := (byKey_sound hwant).2
      rw [← hkey, hshown] at hold
      cases hold
      have hsame : decide (p.sourceVersionHash = p.toBuilt.sourceVersionHash) = false := hdiff
      rw [decide_eq_true rfl] at hsame
      cases hsame

theorem mem_refreshedFacts {c : FactContent Fp} (h : c ∈ j.refreshedFacts facts) :
    c.sourceTransactionId ∈ j.refresh ∧
      c.sourceTransactionId ∉ (changedFacts (j.outcomes facts)).map FactContent.sourceTransactionId := by
  obtain ⟨tid, htid, hc⟩ := List.mem_filterMap.mp h
  split at hc
  · cases hc
  · next hfree =>
    obtain ⟨f, hf, hcf⟩ := Option.map_eq_some_iff.mp hc
    have hid : c.sourceTransactionId = tid := by
      rw [← hcf]
      exact (storedByTxn_eq_some hf).2
    rw [hid]
    exact ⟨htid, hfree⟩

/-- The lines of every fact that is expanded were read. -/
theorem linesRead_expanded {c : FactContent Fp} (h : c ∈ j.expandedFacts s facts) :
    j.linesRead facts c.sourceTransactionId = j.responses c.sourceTransactionId := by
  have hneeds : j.needs facts c.sourceTransactionId = true := by
    cases List.mem_append.mp (List.mem_filter.mp h).1 with
    | inl hchanged => exact needs_of_changed hchanged
    | inr hrefreshed =>
      unfold Run.needs
      rw [decide_eq_true (mem_refreshedFacts hrefreshed).1, Bool.or_true]
  unfold Run.linesRead
  rw [if_pos hneeds]

/-- The facts that changed have distinct keys. -/
theorem changedFacts_nodup : ((changedFacts (j.outcomes facts)).map FactContent.key).Nodup := by
  have hkeyed : ∀ o ∈ j.outcomes facts, o.Keyed Built.key := diff_keyed (want_keyed j facts)
  have htargets : (j.outcomes facts).Pairwise fun a b => a.target ≠ b.target :=
    List.pairwise_map.mp diff_nodup
  -- each verdict changes at most the fact of its own target, and the targets differ
  have hkey : ∀ o ∈ j.outcomes facts, ∀ c ∈ changedFacts [o], c.key = o.target := by
    intro o ho c hc
    obtain ⟨b, rfl, hverdict⟩ := mem_changedFacts hc
    cases hverdict with
    | inl hins =>
      obtain ⟨k, hk⟩ := hins
      rw [← List.mem_singleton.mp hk] at ho ⊢
      exact hkeyed _ ho
    | inr hupd =>
      obtain ⟨k, old, hk⟩ := hupd
      rw [← List.mem_singleton.mp hk] at ho ⊢
      exact hkeyed _ ho
  have hflat : changedFacts (j.outcomes facts) = (j.outcomes facts).flatMap fun o => changedFacts [o] := by
    unfold changedFacts
    rw [List.filterMap_eq_flatMap_toList]
    refine congrArg (List.flatMap · _) (funext fun o => ?_)
    cases o <;> rfl
  rw [hflat, List.map_flatMap, List.nodup_flatMap]
  constructor
  · intro o ho
    cases o <;> simp [changedFacts]
  · refine htargets.imp_of_mem fun ha hb hne => ?_
    intro k hk hk'
    obtain ⟨c, hc, rfl⟩ := List.mem_map.mp hk
    obtain ⟨c', hc', hcc⟩ := List.mem_map.mp hk'
    exact hne ((hkey _ ha c hc).symm.trans (hcc.symm.trans (hkey _ hb c' hc')))

omit [DecidableEq Fp] in
/-- What is looked up keeps the order of its keys. -/
theorem map_filterMap_sublist {α β γ : Type*} {f : α → Option β} {g : β → γ} {h : α → γ}
    (hf : ∀ a b, f a = some b → g b = h a) (as : List α) : ((as.filterMap f).map g).Sublist (as.map h) := by
  induction as with
  | nil => exact List.Sublist.slnil
  | cons a as ih =>
    cases hfa : f a with
    | none =>
      rw [List.filterMap_cons_none hfa]
      exact ih.cons (h a)
    | some b =>
      rw [List.filterMap_cons_some hfa, List.map_cons, hf a b hfa]
      exact ih.cons_cons (h a)

/-- **The facts that are expanded have distinct keys**, when no id is asked for twice. -/
theorem expandedFacts_nodup (hrefresh : j.refresh.Nodup) : ((j.expandedFacts s facts).map FactContent.key).Nodup := by
  have hids : ((j.refreshedFacts facts).map FactContent.sourceTransactionId).Nodup := by
    have hall : (j.refresh.map id).Nodup := by rwa [List.map_id]
    refine hall.sublist (map_filterMap_sublist (fun tid c hc => ?_) j.refresh)
    split at hc
    · cases hc
    · obtain ⟨f, hf, hcf⟩ := Option.map_eq_some_iff.mp hc
      rw [← hcf]
      exact (storedByTxn_eq_some hf).2
  have hrefreshed : ((j.refreshedFacts facts).map FactContent.key).Nodup := by
    refine List.Nodup.of_map Prod.fst ?_
    rw [List.map_map]
    exact hids
  have hall : ((changedFacts (j.outcomes facts) ++ j.refreshedFacts facts).map FactContent.key).Nodup := by
    rw [List.map_append, List.nodup_append]
    refine ⟨changedFacts_nodup, hrefreshed, fun k hk k' hk' heq => ?_⟩
    obtain ⟨c, hc, rfl⟩ := List.mem_map.mp hk
    obtain ⟨c', hc', rfl⟩ := List.mem_map.mp hk'
    have hid : c.sourceTransactionId = c'.sourceTransactionId := congrArg Prod.fst heq
    exact (mem_refreshedFacts hc').2 (hid ▸ List.mem_map_of_mem hc)
  exact hall.sublist (List.filter_sublist.map _)

end Facts

/-! ## §5. The rows afterwards. -/

section Rows

variable {s : RecordSwitches} {j : Run Fp} {facts : Facts fw} {records : List RecordFact}

omit [DecidableEq Fp] in
theorem key_expansion {c : FactContent Fp} {recs : List MiRecord} {r : RecordFact} (h : r ∈ expansion s c recs) :
    r.key = c.key := by
  obtain ⟨p, -, rfl⟩ := List.mem_map.mp h
  rfl

omit [DecidableEq Fp] in
theorem expansion_ne_nil {c : FactContent Fp} {recs : List MiRecord} (h : recs ≠ []) : expansion s c recs ≠ [] := by
  cases recs with
  | nil => exact absurd rfl h
  | cons r recs => exact List.cons_ne_nil _ _

omit [DecidableEq Fp] in
/-- With no name expanded, no fact is. -/
theorem not_expands (h : s.expanded.isEmpty = true) (c : FactContent Fp) : s.expands c = false := by
  rw [List.isEmpty_iff] at h
  unfold RecordSwitches.expands
  cases c.transactionName with
  | none => rfl
  | some name =>
    rw [h]
    rfl

/-- The records a fact is expanded to. -/
def Run.recordsRead (j : Run Fp) (c : FactContent Fp) : List MiRecord :=
  payloadRecords (j.responses c.sourceTransactionId)

variable (s facts records) in
/-- **The rows of a key**: those of the expanded fact that shows records and has it; none, when such a key was
    reversed; else those stored before. -/
theorem rows_expandRecords (hrefresh : j.refresh.Nodup) (k : FactKey) :
    (∀ c ∈ j.expandedFacts s facts, c.key = k → j.recordsRead c ≠ [] →
        rowsOf RecordFact.key k (expandRecords s j facts records).rows = expansion s c (j.recordsRead c)) ∧
      ((∀ c ∈ j.expandedFacts s facts, c.key = k → j.recordsRead c = []) →
        rowsOf RecordFact.key k (expandRecords s j facts records).rows =
          if k ∈ reversedKeys (j.outcomes facts) then [] else rowsOf RecordFact.key k records) := by
  have hkept : rowsOf RecordFact.key k (deleteAll RecordFact.key records (reversedKeys (j.outcomes facts))).1 =
      if k ∈ reversedKeys (j.outcomes facts) then [] else rowsOf RecordFact.key k records := by
    by_cases hk : k ∈ reversedKeys (j.outcomes facts)
    · rw [if_pos hk, rowsOf_deleteAll_of_mem hk]
    · rw [if_neg hk, rowsOf_deleteAll_of_not_mem hk]
  -- with no name expanded nothing is read, and only the reversed facts lose their rows
  by_cases hoff : s.expanded.isEmpty = true
  · have hnone : ∀ c, c ∉ j.expandedFacts s facts := by
      intro c hc
      have hexp := (List.mem_filter.mp hc).2
      rw [not_expands hoff c] at hexp
      cases hexp
    refine ⟨fun c hc => absurd hc (hnone c), fun _ => ?_⟩
    unfold expandRecords
    dsimp only
    rw [if_pos hoff]
    exact hkept
  · -- the facts that are touched, by what was read of them
    have htouched : ((j.expandedFacts s facts).filter fun c =>
          !(payloadRecords (j.linesRead facts c.sourceTransactionId)).isEmpty) =
        (j.expandedFacts s facts).filter fun c => !(j.recordsRead c).isEmpty := by
      refine List.filter_congr fun c hc => ?_
      rw [linesRead_expanded hc]
      rfl
    have hnew : ((j.expandedFacts s facts).filter fun c => !(j.recordsRead c).isEmpty).flatMap (fun c =>
          expansion s c (payloadRecords (j.linesRead facts c.sourceTransactionId))) =
        ((j.expandedFacts s facts).filter fun c => !(j.recordsRead c).isEmpty).flatMap fun c =>
          expansion s c (j.recordsRead c) := by
      refine List.flatMap_congr fun c hc => ?_
      rw [linesRead_expanded (List.mem_filter.mp hc).1]
      rfl
    have hrows : (expandRecords s j facts records).rows =
        (deleteAll RecordFact.key (deleteAll RecordFact.key records (reversedKeys (j.outcomes facts))).1
            (((j.expandedFacts s facts).filter fun c => !(j.recordsRead c).isEmpty).map FactContent.key)).1 ++
          ((j.expandedFacts s facts).filter fun c => !(j.recordsRead c).isEmpty).flatMap fun c =>
            expansion s c (j.recordsRead c) := by
      unfold expandRecords
      dsimp only
      rw [if_neg hoff, htouched, hnew]
    have hshown : ∀ c : FactContent Fp, (!(j.recordsRead c).isEmpty) = true ↔ j.recordsRead c ≠ [] := by
      intro c
      rw [Bool.not_eq_true', List.isEmpty_eq_false_iff]
    -- the touched facts have a key each, so a delete and an insert of one do not meet those of another
    have hn : (((j.expandedFacts s facts).filter fun c => !(j.recordsRead c).isEmpty).map
        FactContent.key).Nodup := (expandedFacts_nodup hrefresh).sublist (List.filter_sublist.map _)
    rw [hrows, rowsOf_append]
    constructor
    · intro c hc hkey hsome
      have hmem : c ∈ (j.expandedFacts s facts).filter fun c => !(j.recordsRead c).isEmpty :=
        List.mem_filter.mpr ⟨hc, (hshown c).mpr hsome⟩
      rw [← hkey, rowsOf_deleteAll_of_mem (List.mem_map_of_mem hmem), List.nil_append]
      exact rowsOf_flatMap hn (fun d _ r hr => key_expansion hr) hmem
    · intro hempty
      have hother : ∀ c ∈ (j.expandedFacts s facts).filter fun c => !(j.recordsRead c).isEmpty, c.key ≠ k := by
        intro c hc hkey
        obtain ⟨hmem, hsome⟩ := List.mem_filter.mp hc
        exact (hshown c).mp hsome (hempty c hmem hkey)
      have hnot : k ∉ ((j.expandedFacts s facts).filter fun c => !(j.recordsRead c).isEmpty).map
          FactContent.key := by
        intro hin
        obtain ⟨c, hc, hkey⟩ := List.mem_map.mp hin
        exact hother c hc hkey
      rw [rowsOf_deleteAll_of_not_mem hnot, hkept, rowsOf_flatMap_other (fun d _ r hr => key_expansion hr) hother,
        List.append_nil]

/-- **When the rows are exact.** -/
theorem exact_expandRecords_iff (hrefresh : j.refresh.Nodup) :
    RecordsExact s j facts (expandRecords s j facts records).rows ↔ RecordsReady s j facts records := by
  have hkeys : ((j.expandedFacts s facts).map FactContent.key).Nodup := expandedFacts_nodup hrefresh
  -- a key is that of one expanded fact
  have halone : ∀ c ∈ j.expandedFacts s facts, ∀ d ∈ j.expandedFacts s facts, d.key = c.key → d = c :=
    fun c hc d hd h => List.inj_on_of_nodup_map hkeys hd hc h
  have hempty : ∀ c ∈ j.expandedFacts s facts, c.key ∉ reversedKeys (j.outcomes facts) → j.recordsRead c = [] →
      rowsOf RecordFact.key c.key (expandRecords s j facts records).rows = rowsOf RecordFact.key c.key records := by
    intro c hc hrev hnone
    have hrows := (rows_expandRecords s facts records hrefresh c.key).2
      fun d hd hkey => by rw [halone c hc d hd hkey]; exact hnone
    rw [hrows, if_neg hrev]
  have hwhole : ∀ c ∈ j.expandedFacts s facts, j.recordsRead c ≠ [] →
      rowsOf RecordFact.key c.key (expandRecords s j facts records).rows = expansion s c (j.recordsRead c) := by
    intro c hc hsome
    exact (rows_expandRecords s facts records hrefresh c.key).1 c hc rfl hsome
  constructor
  · intro h
    refine ⟨fun c hc hrev hnone => ?_, fun c hc hrev hsome => ?_, fun c hc hrev => ?_⟩
    · exact (hempty c hc hrev hnone).symm.trans (h.expanded c hc hrev)
    · exact (hwhole c hc hsome).symm.trans (h.expanded c hc hrev)
    · by_contra hsome
      have hrows := hwhole c hc hsome
      rw [h.reversed c.key hrev] at hrows
      exact expansion_ne_nil hsome hrows.symm
  · intro h
    refine ⟨fun c hc hrev => ?_, fun k hk => ?_⟩
    · by_cases hnone : j.recordsRead c = []
      · exact (hempty c hc hrev hnone).trans (h.empty c hc hrev hnone)
      · exact (hwhole c hc hnone).trans (h.whole c hc hrev hnone)
    · have hrows := (rows_expandRecords s facts records hrefresh k).2
        fun c hc hkey => h.gone c hc (hkey ▸ hk)
      rw [hrows, if_pos hk]

end Rows

/-- **The record grain is exact after a run exactly when it was ready for it**, for every state of both
    tables. -/
theorem records_exact_iff (s : RecordSwitches) (j : Run Fp) (g g' : Grains fw)
    (h : j.foldGrains s g = some g') :
    RecordsExact s (j.expanding s g.facts g.records) g.facts g'.records ↔
      RecordsReady s (j.expanding s g.facts g.records) g.facts g.records := by
  obtain ⟨facts', -, hg⟩ := Option.map_eq_some_iff.mp h
  have hrefresh : (j.expanding s g.facts g.records).refresh.Nodup :=
    ((List.nodup_dedup _).filter _).filter _
  rw [← hg]
  exact exact_expandRecords_iff hrefresh

/-! ## §6. Fewer records, down to none. -/

/-- A fact is hashed by the digest of its row; every instant is on one day. -/
def stampWorld : FoldWorld ℕ where
  digest c := c.srcFp.getD 0
  localDate _ _ := 0
  parseDecimal _ := none

/-- One name is expanded, and one field is approved. -/
def expandA : RecordSwitches := ⟨["A"], ["rec.ITNO"], "v1"⟩

/-- The fold of one transaction of "A" with this digest and these response lines. -/
def foldLines (fp : ℕ) (lines : List LogEntry) : Run ℕ where
  source :=
    { store :=
        { entries := lines
          txns := [⟨1, namedValues "A" 5, true, some fp, none⟩]
          assigned := fun e => if e ∈ lines.map (·.id) then some (1, e) else none }
      unique := List.nodup_singleton _ }
  window := ⟨0, 10⟩
  zone := ⟨"UTC", utc_named⟩
  config := ⟨fun _ _ => [], fun lines => (payloadRecords lines).length⟩

/-- A call that answered with one record. -/
def oneRecord : LogEntry where
  id := 7
  sourceFile := ""
  timestamp := some 6
  entryType := .miResult
  fields := [("program", .str "MMS200MI"), ("records", .arr [.obj [("ITNO", .str "X")]])]

/-- The empty tables. -/
def noGrains : Grains stampWorld := {}

/-- The tables after the fold of the transaction with its record. -/
def afterOne : Grains stampWorld := ((foldLines 1 [oneRecord]).foldGrains expandA noGrains).getD noGrains

/-- The transaction is rebuilt without the call; its fact is updated, its record row stays. -/
theorem rebuiltWithoutRecords_not_exact :
    ¬ ∀ g g' : Grains stampWorld, (foldLines 2 []).foldGrains expandA g = some g' →
      RecordsExact expandA ((foldLines 2 []).expanding expandA g.facts g.records) g.facts g'.records := by
  intro h
  have hrows : ((foldLines 2 []).foldGrains expandA afterOne).map (fun g =>
      (rowsOf RecordFact.key (1, some 5) g.records).length) = some 1 := by
    decide +kernel
  have hexpanded : (((foldLines 2 []).expanding expandA afterOne.facts afterOne.records).expandedFacts expandA
      afterOne.facts).map FactContent.key = [(1, some 5)] := by
    decide +kernel
  have hreversed : reversedKeys (((foldLines 2 []).expanding expandA afterOne.facts afterOne.records).outcomes
      afterOne.facts) = [] := by
    decide +kernel
  obtain ⟨g', hg, hlength⟩ := Option.map_eq_some_iff.mp hrows
  obtain ⟨c, hc, hkey⟩ := List.mem_map.mp (hexpanded ▸ List.mem_singleton_self ((1, some 5) : FactKey))
  have hexact := (h afterOne g' hg).expanded c hc (by rw [hreversed]; exact List.not_mem_nil)
  have hnone : payloadRecords (((foldLines 2 []).expanding expandA afterOne.facts
      afterOne.records).source.responses c.sourceTransactionId) = [] := rfl
  rw [hkey, hnone] at hexact
  rw [hexact] at hlength
  cases hlength

theorem records_exact_iff_oneRecord :
    ∃ g', (foldLines 1 [oneRecord]).foldGrains expandA noGrains = some g' ∧
      (RecordsExact expandA ((foldLines 1 [oneRecord]).expanding expandA noGrains.facts noGrains.records)
          noGrains.facts g'.records ↔
        RecordsReady expandA ((foldLines 1 [oneRecord]).expanding expandA noGrains.facts noGrains.records)
          noGrains.facts noGrains.records) := by
  have hsome : ((foldLines 1 [oneRecord]).foldGrains expandA noGrains).isSome = true := by
    decide +kernel
  obtain ⟨g', hg⟩ := Option.isSome_iff_exists.mp hsome
  exact ⟨g', hg, records_exact_iff expandA (foldLines 1 [oneRecord]) noGrains g' hg⟩

end RagPipeline.Analytics
