/-
  RagPipeline.Retention.Purge — a log space is deleted, with everything that is kept under its code.

  The statements delete by the code, table by table; what has no code goes with the row it refers to, where the
  foreign key cascades; the vectors, which have neither, go by the ids of the chunks.

    * `deleteWhere`   — one statement, with what it takes along and what it sets to NULL;
    * `deleteWhere_of_tables` — such a statement takes a tenant's rows of some tables, and nothing else;
    * `purge_exact`   — the whole purge: all rows of the tenant but those of five tables, and no row of another.
-/
import Mathlib.Data.List.Nodup
import Mathlib.Logic.Function.Iterate

namespace RagPipeline.Retention.Purge

/-! ## §1. The tables. -/

/-- The tables of the models, and that of the vector store. -/
inductive TableName
  | customers | jobs | chunks | chunksEntity | embeddingQueue | embeddings
  | logEntries | logTransactions | logEntryAssignment | logSourceObjects | logRegroupRuns | logRegroupPending
  | logSshSources | logSshFileCheckpoints | logSshFetchRuns | savedViews
  | logOpenStream | logPendingRequest | logStitchCheckpoint
  | customerDisplayNames | logspacePresence | teamsTenantBindings | teamsConversationTurns
  | notificationEvents | notificationDeliveries | notificationRules | customerNotificationChannels
  | idempotencyKeys | consumerCursors
  | analyticsQualityIssues | analyticsMonthlyRollups | analyticsDailyRollups | analyticsHourlyRollups
  | analyticsFactLedger | analyticsFacts | analyticsTenantState | analyticsMetrics | analyticsPendingWindows
  | analyticsTransactionRegistry | analyticsFieldRegistry | analyticsFieldMeanings | analyticsRecordFacts
  | analyticsPredictions | analyticsFeatureSets | analyticsForecastAccuracy | analyticsForecastSeries
  | analyticsForecastRuns | analyticsSettledRows | analyticsSettlements | analyticsLookupValues | analyticsLookups
  | analyticsAtRiskChecks | analyticsAtRiskDeliveries | analyticsAtRiskRouteProfiles | analyticsAtRiskSettings
  | analyticsAtRiskTenantState
  deriving DecidableEq

inductive OnDelete
  | cascade
  | setNull
  deriving DecidableEq

/-- A foreign key: what it refers to, and what happens when that is deleted. -/
structure ForeignKey where
  target : TableName
  onDelete : OnDelete
  nullable : Bool
  deriving DecidableEq

/-- The foreign keys of a table. -/
def foreignKeys : TableName → List ForeignKey
  | .chunks => [⟨.jobs, .cascade, false⟩, ⟨.chunks, .cascade, true⟩]
  | .chunksEntity | .logEntries | .logTransactions => [⟨.jobs, .cascade, false⟩]
  | .embeddingQueue => [⟨.chunks, .cascade, true⟩, ⟨.chunksEntity, .cascade, true⟩, ⟨.jobs, .cascade, false⟩]
  | .customerDisplayNames | .logspacePresence | .teamsTenantBindings => [⟨.customers, .cascade, false⟩]
  | .logSshFileCheckpoints => [⟨.logSshSources, .cascade, false⟩]
  | .notificationDeliveries =>
    [⟨.notificationEvents, .cascade, false⟩, ⟨.customerNotificationChannels, .setNull, true⟩]
  | _ => []

/-- A row, as far as a purge can see it: its code, if the table has one, and the rows it refers to. -/
structure DbRow where
  table : TableName
  id : ℕ
  customerCode : Option String
  refs : List (TableName × ℕ)
  deriving DecidableEq

abbrev Db := List DbRow

def DbRow.key (r : DbRow) : TableName × ℕ := (r.table, r.id)

/-! ## §2. Statements. -/

/-- The row refers to one of these by a key that does this. -/
def DbRow.refersTo (r : DbRow) (rule : OnDelete) (gone : Db) : Bool :=
  gone.any fun s => decide (s.key ∈ r.refs) &&
    (foreignKeys r.table).any fun fk => decide (fk.target = s.table ∧ fk.onDelete = rule)

/-- What goes with these. -/
def spread (db gone : Db) : Db := db.filter fun r => decide (r ∈ gone) || r.refersTo .cascade gone

/-- A key that is set to NULL. -/
def DbRow.nulled (r : DbRow) (gone : Db) : DbRow :=
  { r with refs := r.refs.filter fun p => !(gone.any fun s => decide (s.key = p) &&
      (foreignKeys r.table).any fun fk => decide (fk.target = s.table ∧ fk.onDelete = .setNull)) }

/-- `DELETE … WHERE`. -/
def deleteWhere (p : DbRow → Bool) (db : Db) : Db :=
  let gone := (spread db)^[db.length] (db.filter p)
  (db.filter fun r => decide (r ∉ gone)).map fun r => r.nulled gone

/-- `DELETE FROM table WHERE customer_code = code`. -/
def deleteTenant (code : String) (db : Db) (table : TableName) : Db :=
  deleteWhere (fun r => decide (r.table = table ∧ r.customerCode = some code)) db

/-- The tables that are named, in order. -/
def named : List TableName :=
  [.logEntryAssignment,
    .analyticsQualityIssues, .analyticsMonthlyRollups, .analyticsDailyRollups, .analyticsHourlyRollups,
    .analyticsFactLedger, .analyticsFacts, .analyticsTenantState, .analyticsMetrics, .analyticsPendingWindows,
    .analyticsTransactionRegistry, .analyticsFieldRegistry, .analyticsFieldMeanings, .analyticsRecordFacts,
    .analyticsPredictions, .analyticsFeatureSets, .analyticsForecastAccuracy, .analyticsForecastSeries,
    .analyticsForecastRuns, .analyticsSettledRows, .analyticsSettlements, .analyticsLookupValues, .analyticsLookups,
    .analyticsAtRiskChecks, .analyticsAtRiskDeliveries, .analyticsAtRiskRouteProfiles, .analyticsAtRiskSettings,
    .analyticsAtRiskTenantState,
    .jobs, .logSourceObjects, .logRegroupRuns, .logRegroupPending, .logSshFetchRuns, .logSshFileCheckpoints,
    .logSshSources, .savedViews, .notificationEvents, .notificationRules, .customerNotificationChannels, .customers]

/-- The ids of the tenant's chunks. -/
def chunkIds (code : String) (db : Db) : List ℕ :=
  let jobs := (db.filter fun r => decide (r.table = .jobs ∧ r.customerCode = some code)).map DbRow.key
  (db.filter fun r => decide (r.table = .chunks ∨ r.table = .chunksEntity) &&
    r.refs.any fun p => decide (p ∈ jobs)).map DbRow.id

/-- `purge_logspace`: false, and nothing done, if the code is not registered. -/
def purgeLogspace (code : String) (db : Db) : Bool × Db :=
  if db.any fun r => decide (r.table = .customers ∧ r.customerCode = some code) then
    (true, named.foldl (deleteTenant code)
      (deleteWhere (fun r => decide (r.table = .embeddings ∧ r.id ∈ chunkIds code db)) db))
  else (false, db)

/-! ## §3. Whose a row is. -/

/-- A chunk or an entity. -/
def DbRow.isChunk (r : DbRow) : Bool := decide (r.table = .chunks ∨ r.table = .chunksEntity)

/-- Its own code, or that of the job or the event it refers to. -/
def ownerOf (db : Db) (r : DbRow) : Option String :=
  match r.customerCode with
  | some code => some code
  | none => (db.find? fun s => decide ((s.table = .jobs ∨ s.table = .notificationEvents) ∧ s.key ∈ r.refs)).bind
      DbRow.customerCode

/-- The tenant a row is of; a vector is its chunk's. -/
def tenantOf (db : Db) (r : DbRow) : Option String :=
  if r.table = .embeddings then (db.find? fun s => s.isChunk && decide (s.id = r.id)).bind (ownerOf db)
  else ownerOf db r

/-- The tables without a code. -/
def codeless : List TableName :=
  [.chunks, .chunksEntity, .embeddingQueue, .embeddings, .notificationDeliveries, .consumerCursors]

/-- What the constraints and the writers of the tables keep. -/
structure Coherent (db : Db) : Prop where
  keys : (db.map DbRow.key).Nodup
  codes : ∀ r ∈ db, r.customerCode = none ↔ r.table ∈ codeless
  /-- a foreign key refers to a row, of the table it names -/
  refs : ∀ r ∈ db, ∀ p ∈ r.refs, (∃ fk ∈ foreignKeys r.table, fk.target = p.1) ∧ ∃ s ∈ db, s.key = p
  /-- one that is not nullable is there -/
  required : ∀ r ∈ db, ∀ fk ∈ foreignKeys r.table, fk.nullable = false → ∃ p ∈ r.refs, p.1 = fk.target
  /-- a row refers to rows of its own tenant -/
  sameTenant : ∀ r ∈ db, ∀ s ∈ db, s.key ∈ r.refs → tenantOf db r = tenantOf db s
  /-- chunks and entities share their ids with nobody -/
  chunks : ∀ r ∈ db, ∀ s ∈ db, r.isChunk = true → s.isChunk = true → r.id = s.id → r = s

/-! ## §4. One statement. -/

section Statement

variable {db : Db} {p G : DbRow → Bool}

theorem refersTo_eq_true {r : DbRow} {rule : OnDelete} {gone : Db} : r.refersTo rule gone = true ↔
    ∃ s ∈ gone, s.key ∈ r.refs ∧ ∃ fk ∈ foreignKeys r.table, fk.target = s.table ∧ fk.onDelete = rule := by
  unfold DbRow.refersTo
  simp only [List.any_eq_true, Bool.and_eq_true, decide_eq_true_eq]

/-- A row whose keys refer to nothing that is gone stays as it is. -/
theorem nulled_eq_self {r : DbRow} {gone : Db}
    (h : ∀ s ∈ gone, s.key ∈ r.refs → ∀ fk ∈ foreignKeys r.table, fk.target = s.table → fk.onDelete ≠ .setNull) :
    r.nulled gone = r := by
  have hrefs : r.refs.filter (fun p => !(gone.any fun s => decide (s.key = p) &&
      (foreignKeys r.table).any fun fk => decide (fk.target = s.table ∧ fk.onDelete = .setNull))) = r.refs := by
    refine List.filter_eq_self.mpr fun p hp => ?_
    rw [Bool.not_eq_true', List.any_eq_false]
    intro s hs hboth
    simp only [Bool.and_eq_true, decide_eq_true_eq, List.any_eq_true] at hboth
    obtain ⟨rfl, fk, hfk, htarget, hrule⟩ := hboth
    exact h s hs hp fk hfk htarget hrule
  unfold DbRow.nulled
  rw [hrefs]

/-- What has been taken along at some point satisfies `G`, if `G` is closed. -/
theorem mem_spread (hp : ∀ r ∈ db, p r = true → G r = true)
    (hclosed : ∀ r ∈ db, ∀ s ∈ db, G s = true → s.key ∈ r.refs →
      ∀ fk ∈ foreignKeys r.table, fk.target = s.table → fk.onDelete = .cascade → G r = true) (n : ℕ) :
    ∀ r ∈ (spread db)^[n] (db.filter p), r ∈ db ∧ G r = true := by
  induction n with
  | zero =>
    intro r hr
    obtain ⟨hmem, hpr⟩ := List.mem_filter.mp hr
    exact ⟨hmem, hp r hmem hpr⟩
  | succ n ih =>
    intro r hr
    rw [Function.iterate_succ_apply'] at hr
    obtain ⟨hmem, hor⟩ := List.mem_filter.mp hr
    rw [Bool.or_eq_true, decide_eq_true_eq] at hor
    obtain hin | hrefers := hor
    · exact ih r hin
    · obtain ⟨s, hs, hkey, fk, hfk, htarget, hrule⟩ := refersTo_eq_true.mp hrefers
      exact ⟨hmem, hclosed r hmem s (ih s hs).1 (ih s hs).2 hkey fk hfk htarget hrule⟩

/-- What satisfies the condition, or refers to what does, is taken in the first round. -/
theorem spread_of_reached (hreached : ∀ r ∈ db, G r = true → p r = true ∨ r.refersTo .cascade (db.filter p) = true)
    (n : ℕ) : ∀ r ∈ db, G r = true → r ∈ (spread db)^[n + 1] (db.filter p) := by
  induction n with
  | zero =>
    intro r hr hG
    refine List.mem_filter.mpr ⟨hr, ?_⟩
    rw [Bool.or_eq_true, decide_eq_true_eq]
    exact (hreached r hr hG).imp_left fun hpr => List.mem_filter.mpr ⟨hr, hpr⟩
  | succ n ih =>
    intro r hr hG
    rw [Function.iterate_succ_apply']
    refine List.mem_filter.mpr ⟨hr, ?_⟩
    rw [Bool.or_eq_true, decide_eq_true_eq]
    exact .inl (ih r hr hG)

/-- **What a statement leaves**: the rows outside a set that holds what it deletes, is closed under the keys that
    cascade, and is reached by them in one step; and no key of the others is set to NULL. -/
theorem deleteWhere_eq (hp : ∀ r ∈ db, p r = true → G r = true)
    (hclosed : ∀ r ∈ db, ∀ s ∈ db, G s = true → s.key ∈ r.refs →
      ∀ fk ∈ foreignKeys r.table, fk.target = s.table → fk.onDelete = .cascade → G r = true)
    (hreached : ∀ r ∈ db, G r = true → p r = true ∨ r.refersTo .cascade (db.filter p) = true)
    (hnull : ∀ r ∈ db, G r = false → ∀ s ∈ db, G s = true → s.key ∈ r.refs →
      ∀ fk ∈ foreignKeys r.table, fk.target = s.table → fk.onDelete ≠ .setNull) :
    deleteWhere p db = db.filter fun r => !G r := by
  cases hdb : db.length with
  | zero =>
    obtain rfl := List.length_eq_zero_iff.mp hdb
    rfl
  | succ n =>
    have hgone : ∀ r ∈ db, r ∈ (spread db)^[db.length] (db.filter p) ↔ G r = true := by
      intro r hr
      rw [hdb]
      exact ⟨fun hin => (mem_spread hp hclosed _ r hin).2, spread_of_reached hreached n r hr⟩
    have hleft : (db.filter fun r => decide (r ∉ (spread db)^[db.length] (db.filter p))) =
        db.filter fun r => !G r := by
      refine List.filter_congr fun r hr => ?_
      rw [Bool.eq_iff_iff, decide_eq_true_eq, hgone r hr, Bool.not_eq_true', Bool.not_eq_true]
    unfold deleteWhere
    simp only
    rw [hleft]
    refine (List.map_congr_left fun r hr => ?_).trans (List.map_id _)
    obtain ⟨hmem, hnot⟩ := List.mem_filter.mp hr
    refine nulled_eq_self fun s hs hkey fk hfk htarget => ?_
    obtain ⟨hsmem, hsG⟩ := mem_spread hp hclosed _ s hs
    exact hnull r hmem (by simpa using hnot) s hsmem hsG hkey fk hfk htarget

end Statement

/-! ## §5. The rows of a tenant. -/

/-- All tables. -/
def allTables : List TableName :=
  named ++ [.chunks, .chunksEntity, .embeddingQueue, .embeddings, .logEntries, .logTransactions, .logOpenStream,
    .logPendingRequest, .logStitchCheckpoint, .customerDisplayNames, .logspacePresence, .teamsTenantBindings,
    .teamsConversationTurns, .notificationDeliveries, .idempotencyKeys, .consumerCursors]

theorem mem_allTables (t : TableName) : t ∈ allTables := by
  cases t <;> decide

/-- The tables that a row of a table takes along, and the table. -/
def taken (t : TableName) : List TableName :=
  t :: allTables.filter fun x => (foreignKeys x).any fun fk =>
    decide (fk.target = t ∧ fk.onDelete = .cascade ∧ fk.nullable = false)

/-- No cascade leads out of the tables that are taken along. -/
theorem taken_closed : ∀ t ∈ named, ∀ x ∈ allTables, ∀ fk ∈ foreignKeys x, fk.onDelete = .cascade →
    fk.target ∈ taken t → x ∈ taken t := by
  decide +kernel

/-- What is set to NULL when these tables are deleted from is in tables that are done with, and no table comes
    twice. -/
def inOrder : List TableName → List TableName → Bool
  | _, [] => true
  | done, t :: ts =>
    decide (t ∉ done) && decide (t ∉ codeless) &&
      (allTables.all fun x => (foreignKeys x).all fun fk =>
        !decide (fk.onDelete = .setNull ∧ fk.target ∈ taken t) || decide (x ∈ done)) &&
      inOrder (done ++ taken t) ts

section Tenants

variable {db : Db} {code : String}

/-- The rows of a tenant that are in some tables are gone. -/
def without (db : Db) (code : String) (done : List TableName) : Db :=
  db.filter fun r => !(decide (tenantOf db r = some code) && decide (r.table ∈ done))

theorem mem_without {done : List TableName} {r : DbRow} :
    r ∈ without db code done ↔ r ∈ db ∧ (tenantOf db r = some code → r.table ∉ done) := by
  unfold without
  rw [List.mem_filter, Bool.not_eq_true', Bool.and_eq_false_imp]
  simp only [decide_eq_true_eq, decide_eq_false_iff_not]

theorem without_append (done more : List TableName) :
    (without db code done).filter (fun r => !(decide (tenantOf db r = some code) && decide (r.table ∈ more))) =
      without db code (done ++ more) := by
  unfold without
  rw [List.filter_filter]
  refine List.filter_congr fun r _ => ?_
  by_cases howner : tenantOf db r = some code
  · by_cases hdone : r.table ∈ done
    · simp [howner, hdone]
    · simp [howner, hdone]
  · simp [howner]

/-- A row with a code is of its tenant. -/
theorem tenantOf_of_code (hc : Coherent db) {r : DbRow} (hr : r ∈ db) (hcode : r.table ∉ codeless) :
    tenantOf db r = r.customerCode := by
  have hne : r.table ≠ .embeddings := by
    intro heq
    exact hcode (by rw [heq]; decide)
  unfold tenantOf ownerOf
  rw [if_neg hne]
  cases hown : r.customerCode with
  | none => exact absurd ((hc.codes r hr).mp hown) hcode
  | some c => rfl

/-- **A statement that names a table** takes the tenant's rows of it and of those that go with it. -/
theorem deleteTenant_eq (hc : Coherent db) {t : TableName} {done : List TableName} (ht : t ∈ named)
    (hnew : t ∉ done) (hcode : t ∉ codeless)
    (hnull : ∀ x ∈ allTables, ∀ fk ∈ foreignKeys x, fk.onDelete = .setNull → fk.target ∈ taken t → x ∈ done) :
    deleteTenant code (without db code done) t = without db code (done ++ taken t) := by
  have hown : ∀ r ∈ db, r.table = t → (tenantOf db r = some code ↔ r.customerCode = some code) := by
    rintro r hr rfl
    rw [tenantOf_of_code hc hr hcode]
  unfold deleteTenant
  rw [← without_append, deleteWhere_eq (G := fun r => decide (tenantOf db r = some code) && decide (r.table ∈ taken t))]
  · intro r hr hp
    obtain ⟨htable, hrcode⟩ := of_decide_eq_true hp
    have howner := (hown r (mem_without.mp hr).1 htable).mpr hrcode
    simp [howner, htable, taken]
  · intro r hr s hs hG hkey fk hfk htarget hrule
    simp only [Bool.and_eq_true, decide_eq_true_eq] at hG ⊢
    refine ⟨(hc.sameTenant r (mem_without.mp hr).1 s (mem_without.mp hs).1 hkey).trans hG.1, ?_⟩
    exact taken_closed t ht r.table (mem_allTables _) fk hfk hrule (htarget ▸ hG.2)
  · intro r hr hG
    simp only [Bool.and_eq_true, decide_eq_true_eq] at hG
    obtain ⟨hmem, -⟩ := mem_without.mp hr
    cases List.mem_cons.mp hG.2 with
    | inl htable => exact .inl (decide_eq_true ⟨htable, (hown r hmem htable).mp hG.1⟩)
    | inr hchild =>
      -- it refers to a row of the table, and that is still there
      obtain ⟨fk, hfk, hcascade⟩ := List.any_eq_true.mp (List.mem_filter.mp hchild).2
      obtain ⟨htarget, hrule, hrequired⟩ := of_decide_eq_true hcascade
      obtain ⟨⟨table, id⟩, hp, hpt⟩ := hc.required r hmem fk hfk hrequired
      obtain ⟨-, s, hs, hkey⟩ := hc.refs r hmem _ hp
      have hstable : s.table = t := (congrArg Prod.fst hkey).trans (hpt.trans htarget)
      have howner : tenantOf db s = some code :=
        (hc.sameTenant r hmem s hs (hkey ▸ hp)).symm.trans hG.1
      refine .inr (refersTo_eq_true.mpr ⟨s, List.mem_filter.mpr ⟨?_, ?_⟩, hkey ▸ hp, fk, hfk, ?_, hrule⟩)
      · exact mem_without.mpr ⟨hs, fun _ => hstable ▸ hnew⟩
      · exact decide_eq_true ⟨hstable, (hown s hs hstable).mp howner⟩
      · exact htarget.trans hstable.symm
  · intro r hr hG s hs hsG hkey fk hfk htarget hrule
    simp only [Bool.and_eq_true, decide_eq_true_eq] at hsG
    obtain ⟨hmem, hleft⟩ := mem_without.mp hr
    have howner := (hc.sameTenant r hmem s (mem_without.mp hs).1 hkey).trans hsG.1
    exact hleft howner (hnull r.table (mem_allTables _) fk hfk hrule (htarget ▸ hsG.2))

/-- The statements one after the other. -/
theorem foldl_deleteTenant (hc : Coherent db) {ts done : List TableName} (hts : ∀ t ∈ ts, t ∈ named)
    (horder : inOrder done ts = true) :
    ts.foldl (deleteTenant code) (without db code done) =
      without db code (ts.foldl (fun done t => done ++ taken t) done) := by
  induction ts generalizing done with
  | nil => rfl
  | cons t ts ih =>
    unfold inOrder at horder
    simp only [Bool.and_eq_true, decide_eq_true_eq, List.all_eq_true, Bool.or_eq_true, Bool.not_eq_true',
      decide_eq_false_iff_not, not_and] at horder
    obtain ⟨⟨⟨hnew, hcode⟩, hnull⟩, hrest⟩ := horder
    rw [List.foldl_cons, List.foldl_cons, deleteTenant_eq hc (hts t List.mem_cons_self) hnew hcode]
    · exact ih (fun t' ht' => hts t' (List.mem_cons_of_mem _ ht')) hrest
    · intro x hx fk hfk hrule htarget
      exact (hnull x hx fk hfk).resolve_left fun hnot => hnot hrule htarget

/-- A chunk has no code, and refers to its job. -/
theorem chunk_job (hc : Coherent db) {r : DbRow} (hr : r ∈ db) (hchunk : r.isChunk = true) :
    ∃ j ∈ db, j.table = .jobs ∧ j.key ∈ r.refs ∧ ownerOf db r = j.customerCode := by
  have htable := of_decide_eq_true hchunk
  have hfk : (⟨.jobs, .cascade, false⟩ : ForeignKey) ∈ foreignKeys r.table := by
    obtain h | h := htable <;> rw [h] <;> decide
  obtain ⟨⟨table, id⟩, hp, hpt⟩ := hc.required r hr _ hfk rfl
  obtain ⟨-, j, hj, hkey⟩ := hc.refs r hr _ hp
  have hjtable : j.table = .jobs := (congrArg Prod.fst hkey).trans hpt
  have hjcode : j.table ∉ codeless := by rw [hjtable]; decide
  have hne : r.table ≠ .embeddings := by
    obtain h | h := htable <;> rw [h] <;> decide
  have hsame := hc.sameTenant r hr j hj (hkey ▸ hp)
  rw [tenantOf_of_code hc hj hjcode] at hsame
  unfold tenantOf at hsame
  rw [if_neg hne] at hsame
  exact ⟨j, hj, hjtable, hkey ▸ hp, hsame⟩

/-- **The vectors of the tenant's chunks are the tenant's vectors.** -/
theorem mem_chunkIds (hc : Coherent db) {r : DbRow} (hr : r.table = .embeddings) :
    r.id ∈ chunkIds code db ↔ tenantOf db r = some code := by
  unfold chunkIds tenantOf
  rw [if_pos hr]
  simp only [List.mem_map, List.mem_filter, Bool.and_eq_true, decide_eq_true_eq, List.any_eq_true]
  constructor
  · rintro ⟨c, ⟨hcmem, hchunk, p, hp, j, ⟨hj, hjtable, hjcode⟩, rfl⟩, hid⟩
    have hcchunk : c.isChunk = true := decide_eq_true hchunk
    -- the chunk that is found is this one
    have hfound : db.find? (fun s => s.isChunk && decide (s.id = r.id)) = some c := by
      cases hfind : db.find? fun s => s.isChunk && decide (s.id = r.id) with
      | none => exact absurd (List.find?_eq_none.mp hfind c hcmem) (by simp [hcchunk, hid])
      | some c' =>
        have hc' := List.find?_some hfind
        simp only [Bool.and_eq_true, decide_eq_true_eq] at hc'
        rw [hc.chunks c' (List.mem_of_find?_eq_some hfind) c hcmem hc'.1 hcchunk (hc'.2.trans hid.symm)]
    have hne : c.table ≠ .embeddings := by
      obtain h | h := hchunk <;> rw [h] <;> decide
    have hsame := hc.sameTenant c hcmem j hj hp
    rw [tenantOf_of_code hc hj (by rw [hjtable]; decide), hjcode] at hsame
    unfold tenantOf at hsame
    rw [if_neg hne] at hsame
    rw [hfound]
    exact hsame
  · intro howner
    obtain ⟨c, hfind, hown⟩ := Option.bind_eq_some_iff.mp howner
    have hcmem := List.mem_of_find?_eq_some hfind
    have hc' := List.find?_some hfind
    simp only [Bool.and_eq_true, decide_eq_true_eq] at hc'
    obtain ⟨j, hj, hjtable, hkey, hjown⟩ := chunk_job hc hcmem hc'.1
    exact ⟨c, ⟨hcmem, of_decide_eq_true hc'.1, j.key, hkey, j, ⟨hj, hjtable, hjown.symm.trans hown⟩, rfl⟩, hc'.2⟩

/-- Nothing refers to a vector. -/
theorem no_key_to_embeddings : ∀ x ∈ allTables, ∀ fk ∈ foreignKeys x, fk.target ≠ .embeddings := by
  decide

/-- The first statement takes the vectors. -/
theorem deleteVectors_eq (hc : Coherent db) :
    deleteWhere (fun r => decide (r.table = .embeddings ∧ r.id ∈ chunkIds code db)) db =
      without db code [.embeddings] := by
  have hnone : ∀ s, (decide (tenantOf db s = some code) && decide (s.table ∈ [TableName.embeddings])) = true →
      s.table = .embeddings := by
    intro s hs
    rw [Bool.and_eq_true, decide_eq_true_eq, decide_eq_true_eq] at hs
    exact List.mem_singleton.mp hs.2
  unfold without
  rw [deleteWhere_eq (G := fun r => decide (tenantOf db r = some code) && decide (r.table ∈ [TableName.embeddings]))]
  · intro r hr hp
    obtain ⟨htable, hid⟩ := of_decide_eq_true hp
    simp [htable, (mem_chunkIds hc htable).mp hid]
  · intro r hr s hs hG hkey fk hfk htarget hrule
    exact absurd (htarget.trans (hnone s hG)) (no_key_to_embeddings r.table (mem_allTables _) fk hfk)
  · intro r hr hG
    have htable := hnone r hG
    rw [Bool.and_eq_true, decide_eq_true_eq] at hG
    exact .inl (decide_eq_true ⟨htable, (mem_chunkIds hc htable).mpr hG.1⟩)
  · intro r hr hG s hs hsG hkey fk hfk htarget hrule
    exact absurd (htarget.trans (hnone s hsG)) (no_key_to_embeddings r.table (mem_allTables _) fk hfk)

/-! ## §6. The purge. -/

/-- The tables with a code that the purge does not name, and that no key leads to. -/
def forgotten : List TableName :=
  [.logOpenStream, .logPendingRequest, .logStitchCheckpoint, .teamsConversationTurns, .idempotencyKeys]

/-- The tables that are done with in the end. -/
theorem done_iff : ∀ t ∈ allTables, (t ∈ named.foldl (fun done t => done ++ taken t) [.embeddings] ↔
    t ∉ forgotten ∧ t ≠ .consumerCursors) := by
  decide +kernel

theorem named_inOrder : inOrder [.embeddings] named = true := by
  decide +kernel

/-- A cursor is nobody's. -/
theorem tenantOf_cursor (hc : Coherent db) {r : DbRow} (hr : r ∈ db) (htable : r.table = .consumerCursors) :
    tenantOf db r = none := by
  have hcode : r.customerCode = none := (hc.codes r hr).mpr (by rw [htable]; decide)
  have hrefs : ∀ p, p ∉ r.refs := by
    intro p hp
    obtain ⟨⟨fk, hfk, -⟩, -⟩ := hc.refs r hr p hp
    rw [htable] at hfk
    cases hfk
  have hnone : (db.find? fun s => decide ((s.table = .jobs ∨ s.table = .notificationEvents) ∧ s.key ∈ r.refs)) = none :=
    List.find?_eq_none.mpr fun s _ => by simp [hrefs]
  unfold tenantOf ownerOf
  rw [if_neg (by rw [htable]; decide), hcode]
  simp only
  rw [hnone]
  rfl

/-- **A purge takes every row of the tenant but those of five tables, and no row of another**; a code that is not
    registered changes nothing. -/
theorem purge_exact (hc : Coherent db) (code : String) : purgeLogspace code db =
    if db.any fun r => decide (r.table = .customers ∧ r.customerCode = some code) then
      (true, db.filter fun r => !(decide (tenantOf db r = some code) && decide (r.table ∉ forgotten)))
    else (false, db) := by
  unfold purgeLogspace
  rw [deleteVectors_eq hc, foldl_deleteTenant hc (fun t ht => ht) named_inOrder]
  have hleft : without db code (named.foldl (fun done t => done ++ taken t) [.embeddings]) =
      db.filter fun r => !(decide (tenantOf db r = some code) && decide (r.table ∉ forgotten)) := by
    refine List.filter_congr fun r hr => ?_
    by_cases howner : tenantOf db r = some code
    · have hne : r.table ≠ .consumerCursors := by
        intro htable
        rw [tenantOf_cursor hc hr htable] at howner
        cases howner
      have hdone := done_iff r.table (mem_allTables _)
      generalize named.foldl (fun done t => done ++ taken t) [.embeddings] = done at hdone ⊢
      by_cases hforgotten : r.table ∈ forgotten
      · simp [hdone, hforgotten]
      · simp [hdone, hforgotten, hne, howner]
    · simp [howner]
  rw [hleft]

end Tenants

/-- Two tenants; the first has a document with its vector, and has asked a question in a chat. -/
def twoTenants : Db :=
  [⟨.customers, 1, some "A", []⟩, ⟨.customers, 2, some "B", []⟩, ⟨.jobs, 3, some "A", []⟩,
    ⟨.chunks, 4, none, [(.jobs, 3)]⟩, ⟨.embeddings, 4, none, []⟩, ⟨.teamsConversationTurns, 5, some "A", []⟩,
    ⟨.logspacePresence, 6, some "A", [(.customers, 1)]⟩, ⟨.logStitchCheckpoint, 7, some "B", []⟩]

theorem twoTenants_coherent : Coherent twoTenants where
  keys := by decide
  codes := by decide
  refs := by decide
  required := by decide
  sameTenant := by decide
  chunks := by decide

theorem purge_exact_two : purgeLogspace "A" twoTenants = (true,
    [⟨.customers, 2, some "B", []⟩, ⟨.teamsConversationTurns, 5, some "A", []⟩, ⟨.logStitchCheckpoint, 7, some "B", []⟩]) :=
  (purge_exact twoTenants_coherent "A").trans (by decide)

end RagPipeline.Retention.Purge
