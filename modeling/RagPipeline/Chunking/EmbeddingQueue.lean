/-
  RagPipeline.Chunking.EmbeddingQueue — chunks that wait for their embedding, and the workers that take them.

  The pipeline stores the chunks of a document and queues them.  A worker claims some pending items; embeds their
  chunks and stores the vectors; marks the items as done and looks, job by job, whether anything of it is left;
  and commits.  What it marks is seen by the others only when it commits.  A worker can fail at any moment.

    * `Inv`              — what holds whatever the workers do;
    * `embedding_safe`   — what is done has the vector of its own text, and what is completed is done;
    * `completes_alone`  — a job is completed with its last item, if no two workers hold items of one job;
    * `never_completed`  — an item that is lost, or an overlap, leaves its job uncompleted for good.
-/
import RagPipeline.Lib.OrderedDict
import RagPipeline.Lib.OptionLoops
import Mathlib.Data.List.Dedup

namespace RagPipeline.Chunking

open RagPipeline.Lib

/-! ## §1. The tables. -/

/-- A row of `chunks` or of `chunks_entity`, as far as it is embedded. -/
inductive ChunkSource
  | chunk (text : String) (headingBreadcrumb : Option String)
  | entity (fullText : String)
  deriving DecidableEq

/-- The text a chunk is embedded by. -/
def ChunkSource.contextualized : ChunkSource → String
  | .chunk text breadcrumb => if breadcrumb.getD "" = "" then text else breadcrumb.getD "" ++ "\n\n" ++ text
  | .entity fullText => fullText

/-- The text that is kept beside the vector. -/
def ChunkSource.retrieved : ChunkSource → String
  | .chunk text _ => text
  | .entity fullText => fullText

inductive QueueStatus
  | pending
  | processing
  | done
  deriving DecidableEq, Repr

/-- A row of `embedding_queue`. -/
structure QueueItem where
  chunkId : ℕ
  jobId : ℕ
  status : QueueStatus
  deriving DecidableEq

/-- A job that has been chunked is being embedded, or completed. -/
inductive JobStatus
  | embedding
  | completed
  deriving DecidableEq, Repr

/-- How far a worker is with the items it has claimed. -/
inductive Stage
  | claimed
  | stored
  | marked (todo finished : List ℕ)
  deriving DecidableEq

structure Batch where
  items : List ℕ
  stage : Stage
  deriving DecidableEq

/-- The tables as they are committed, the vector store, and what the workers are doing. -/
structure Queue (V : Type*) where
  chunks : OrderedDict ℕ ChunkSource
  items : OrderedDict ℕ QueueItem
  jobs : OrderedDict ℕ JobStatus
  vectors : OrderedDict ℕ (V × String)
  batches : OrderedDict ℕ Batch

variable {V : Type*}

def Queue.empty : Queue V := ⟨.empty, .empty, .empty, .empty, .empty⟩

/-! ## §2. The steps. -/

inductive Action
  | enqueue (job : ℕ) (rows : List (ℕ × ℕ × ChunkSource))
  | claim (worker : ℕ) (ids : List ℕ)
  | store (worker : ℕ)
  | mark (worker : ℕ)
  | check (worker : ℕ)
  | commit (worker : ℕ)
  | fail (worker : ℕ)

/-- The embedding model, and `embedding_batch_size`. -/
structure Embedder (V : Type*) where
  embed : String → V
  batchSize : ℕ

/-- Items with another status. -/
def setStatus (items : OrderedDict ℕ QueueItem) (ids : List ℕ) (status : QueueStatus) : OrderedDict ℕ QueueItem :=
  ids.foldl (fun items id => match items.get? id with
    | some item => items.set id { item with status := status }
    | none => items) items

/-- One chunk of a batch, embedded and stored; an item without its chunk is passed over. -/
def Embedder.storeOne (e : Embedder V) (q : Queue V) (vectors : OrderedDict ℕ (V × String)) (id : ℕ) :
    OrderedDict ℕ (V × String) :=
  match q.items.get? id with
  | none => vectors
  | some item =>
    match q.chunks.get? item.chunkId with
    | none => vectors
    | some source => vectors.set item.chunkId (e.embed source.contextualized, source.retrieved)

/-- The jobs of some items. -/
def Queue.jobsOf (q : Queue V) (ids : List ℕ) : List ℕ :=
  (ids.filterMap fun id => (q.items.get? id).map QueueItem.jobId).dedup

/-- Some item of the job is not done, and not marked by this worker. -/
def Queue.remaining (q : Queue V) (own : List ℕ) (job : ℕ) : Bool :=
  q.items.items.any fun p => p.2.jobId == job && p.2.status != .done && !decide (p.1 ∈ own)

/-- The jobs that are found finished, completed. -/
def complete (jobs : OrderedDict ℕ JobStatus) (finished : List ℕ) : OrderedDict ℕ JobStatus :=
  finished.foldl (fun jobs job => if job ∈ jobs.keys then jobs.set job .completed else jobs) jobs

/-- The chunks and the items of a job are stored together. -/
def Queue.add (q : Queue V) (job : ℕ) (rows : List (ℕ × ℕ × ChunkSource)) : Queue V :=
  { q with
    jobs := q.jobs.set job .embedding
    chunks := rows.foldl (fun chunks r => chunks.set r.2.1 r.2.2) q.chunks
    items := rows.foldl (fun items r => items.set r.1 ⟨r.2.1, job, .pending⟩) q.items }

/-- The ids of what is stored are new. -/
def Queue.fresh (q : Queue V) (job : ℕ) (rows : List (ℕ × ℕ × ChunkSource)) : Bool :=
  (q.jobs.get? job).isNone && decide (rows.map fun r => r.1).Nodup && decide (rows.map fun r => r.2.1).Nodup &&
    rows.all fun r => (q.items.get? r.1).isNone && (q.chunks.get? r.2.1).isNone

/-- The items can be claimed by the worker. -/
def Embedder.claimable (e : Embedder V) (q : Queue V) (worker : ℕ) (ids : List ℕ) : Bool :=
  (q.batches.get? worker).isNone && !ids.isEmpty && decide ids.Nodup && decide (ids.length ≤ e.batchSize) &&
    ids.all fun id => (q.items.get? id).any fun item => item.status == .pending

/-- One step of the pipeline or of a worker; `none` if it does not apply. -/
def Embedder.step (e : Embedder V) (q : Queue V) : Action → Option (Queue V)
  | .enqueue job rows => if q.fresh job rows then some (q.add job rows) else none
  | .claim worker ids =>
    if e.claimable q worker ids then
      some { q with
        items := setStatus q.items ids .processing
        batches := q.batches.set worker ⟨ids, .claimed⟩ }
    else none
  | .store worker => match q.batches.get? worker with
    | some ⟨ids, .claimed⟩ =>
      some { q with
        vectors := ids.foldl (e.storeOne q) q.vectors
        batches := q.batches.set worker ⟨ids, .stored⟩ }
    | _ => none
  | .mark worker => match q.batches.get? worker with
    | some ⟨ids, .stored⟩ => some { q with batches := q.batches.set worker ⟨ids, .marked (q.jobsOf ids) []⟩ }
    | _ => none
  | .check worker => match q.batches.get? worker with
    | some ⟨ids, .marked (job :: todo) finished⟩ =>
      let finished' := if q.remaining ids job then finished else finished ++ [job]
      some { q with batches := q.batches.set worker ⟨ids, .marked todo finished'⟩ }
    | _ => none
  | .commit worker => match q.batches.get? worker with
    | some ⟨ids, .marked [] finished⟩ =>
      some { q with
        items := setStatus q.items ids .done
        jobs := complete q.jobs finished
        batches := q.batches.erase worker }
    | _ => none
  | .fail worker => some { q with batches := q.batches.erase worker }

/-- What is reached from empty tables. -/
def Embedder.Reachable (e : Embedder V) (q : Queue V) : Prop :=
  ∃ actions : List Action, actions.foldlM e.step .empty = some q

/-! ## §3. What the writes leave. -/

theorem get?_setStatus (items : OrderedDict ℕ QueueItem) (ids : List ℕ) (status : QueueStatus) (i : ℕ) :
    (setStatus items ids status).get? i =
      if i ∈ ids then (items.get? i).map fun item => { item with status := status } else items.get? i := by
  unfold setStatus
  induction ids generalizing items with
  | nil => rfl
  | cons id ids ih =>
    rw [List.foldl_cons, ih]
    cases hid : items.get? id with
    | none =>
      by_cases hi : i = id
      · subst hi
        simp [hid]
      · simp [hi]
    | some item =>
      by_cases hi : i = id
      · subst hi
        simp [hid]
      · simp only [items.get?_set_ne _ hi, List.mem_cons, hi, false_or]

theorem get?_complete (jobs : OrderedDict ℕ JobStatus) (finished : List ℕ) (j : ℕ) :
    (complete jobs finished).get? j =
      if j ∈ finished then (jobs.get? j).map fun _ => .completed else jobs.get? j := by
  unfold complete
  induction finished generalizing jobs with
  | nil => rfl
  | cons job finished ih =>
    rw [List.foldl_cons, ih]
    by_cases hkey : job ∈ jobs.keys
    · rw [if_pos hkey]
      by_cases hj : j = job
      · subst hj
        cases hget : jobs.get? j with
        | none => exact absurd hkey (OrderedDict.get?_eq_none.mp hget)
        | some status => simp
      · simp only [jobs.get?_set_ne _ hj, List.mem_cons, hj, false_or]
    · rw [if_neg hkey]
      by_cases hj : j = job
      · subst hj
        simp [OrderedDict.get?_eq_none.mpr hkey]
      · simp only [List.mem_cons, hj, false_or]

section Insertions

variable {ν ρ : Type*} (k : ρ → ℕ) (v : ρ → ν)

/-- What is found after some insertions was there, or was inserted. -/
theorem get?_inserted {rows : List ρ} {d : OrderedDict ℕ ν} {i : ℕ} {x : ν}
    (h : (rows.foldl (fun d r => d.set (k r) (v r)) d).get? i = some x) :
    d.get? i = some x ∨ ∃ r ∈ rows, k r = i ∧ v r = x := by
  induction rows generalizing d with
  | nil => exact .inl h
  | cons r rows ih =>
    obtain hset | ⟨r', hr', heq⟩ := ih h
    · by_cases hi : i = k r
      · subst hi
        rw [d.get?_set_self] at hset
        exact .inr ⟨r, List.mem_cons_self, rfl, Option.some.inj hset⟩
      · rw [d.get?_set_ne _ hi] at hset
        exact .inl hset
    · exact .inr ⟨r', List.mem_cons_of_mem _ hr', heq⟩

/-- Other keys are as they were. -/
theorem get?_inserted_ne {rows : List ρ} {d : OrderedDict ℕ ν} {i : ℕ} (h : ∀ r ∈ rows, k r ≠ i) :
    (rows.foldl (fun d r => d.set (k r) (v r)) d).get? i = d.get? i := by
  induction rows generalizing d with
  | nil => rfl
  | cons r rows ih =>
    rw [List.foldl_cons, ih fun r' hr' => h r' (List.mem_cons_of_mem _ hr')]
    exact d.get?_set_ne _ (h r List.mem_cons_self).symm

/-- What is inserted under keys of its own is found. -/
theorem get?_inserted_self {rows : List ρ} {d : OrderedDict ℕ ν} (hk : (rows.map k).Nodup) {r : ρ} (hr : r ∈ rows) :
    (rows.foldl (fun d r => d.set (k r) (v r)) d).get? (k r) = some (v r) := by
  induction rows generalizing d with
  | nil => cases hr
  | cons r' rows ih =>
    rw [List.map_cons, List.nodup_cons] at hk
    rw [List.foldl_cons]
    cases List.mem_cons.mp hr with
    | inl heq =>
      subst heq
      rw [get?_inserted_ne]
      · exact d.get?_set_self _ _
      · intro r' hr' heq
        exact hk.1 (heq ▸ List.mem_map_of_mem hr')
    | inr hmem => exact ih hk.2 hmem

end Insertions

variable {e : Embedder V} {q q' : Queue V}

/-- The vector of a chunk, and the text beside it. -/
def Embedder.vectorOf (e : Embedder V) (source : ChunkSource) : V × String :=
  (e.embed source.contextualized, source.retrieved)

/-- A chunk that a batch names, or that had its vector, has it after the batch is stored. -/
theorem get?_stored {ids : List ℕ} {vectors : OrderedDict ℕ (V × String)} {c : ℕ} {source : ChunkSource}
    (hc : q.chunks.get? c = some source)
    (h : (∃ i ∈ ids, ∃ item, q.items.get? i = some item ∧ item.chunkId = c) ∨
      vectors.get? c = some (e.vectorOf source)) :
    (ids.foldl (e.storeOne q) vectors).get? c = some (e.vectorOf source) := by
  induction ids generalizing vectors with
  | nil => exact h.resolve_left fun ⟨i, hi, _⟩ => absurd hi List.not_mem_nil
  | cons id ids ih =>
    rw [List.foldl_cons]
    refine ih ?_
    obtain ⟨i, hi, item, hitem, hchunk⟩ | hold := h
    · cases List.mem_cons.mp hi with
      | inl heq =>
        subst heq
        refine .inr ?_
        unfold Embedder.storeOne
        rw [hitem]
        dsimp only
        rw [hchunk, hc]
        exact vectors.get?_set_self _ _
      | inr hmem => exact .inl ⟨i, hmem, item, hitem, hchunk⟩
    · refine .inr ?_
      unfold Embedder.storeOne
      split
      · exact hold
      · rename_i item hitem
        split
        · exact hold
        · rename_i source' hsource
          by_cases hi : c = item.chunkId
          · subst hi
            obtain rfl := Option.some.inj (hc.symm.trans hsource)
            exact vectors.get?_set_self _ _
          · rw [vectors.get?_set_ne _ hi]
            exact hold

/-- A job of which nothing remains has only items that are done, or the worker's own. -/
theorem remaining_eq_false {own : List ℕ} {job : ℕ} (h : q.remaining own job = false) {i : ℕ} {item : QueueItem}
    (hi : q.items.get? i = some item) (hj : item.jobId = job) : item.status = .done ∨ i ∈ own := by
  by_contra hnot
  rw [not_or] at hnot
  have hmem := OrderedDict.get?_eq_some.mp hi
  have : q.remaining own job = true := by
    refine List.any_eq_true.mpr ⟨(i, item), hmem, ?_⟩
    simp [hj, hnot.1, hnot.2]
  simp [this] at h

theorem remaining_eq_true {own : List ℕ} {job : ℕ} (h : q.remaining own job = true) :
    ∃ i item, q.items.get? i = some item ∧ item.jobId = job ∧ item.status ≠ .done ∧ i ∉ own := by
  obtain ⟨⟨i, item⟩, hmem, hitem⟩ := List.any_eq_true.mp h
  simp only [Bool.and_eq_true, beq_iff_eq, bne_iff_ne, Bool.not_eq_true', decide_eq_false_iff_not] at hitem
  exact ⟨i, item, OrderedDict.get?_eq_some.mpr hmem, hitem.1.1, hitem.1.2, hitem.2⟩

theorem mem_jobsOf {ids : List ℕ} {j : ℕ} :
    j ∈ q.jobsOf ids ↔ ∃ i ∈ ids, ∃ item, q.items.get? i = some item ∧ item.jobId = j := by
  unfold Queue.jobsOf
  rw [List.mem_dedup, List.mem_filterMap]
  constructor
  · rintro ⟨i, hi, hj⟩
    obtain ⟨item, hitem, rfl⟩ := Option.map_eq_some_iff.mp hj
    exact ⟨i, hi, item, hitem, rfl⟩
  · rintro ⟨i, hi, item, hitem, rfl⟩
    exact ⟨i, hi, by rw [hitem]; rfl⟩

/-! ## §4. What holds, whatever the workers do. -/

structure Inv (e : Embedder V) (q : Queue V) : Prop where
  /-- An item has its chunk; once it is done, the chunk has its vector. -/
  backed : ∀ i item, q.items.get? i = some item → ∃ source, q.chunks.get? item.chunkId = some source ∧
    (item.status = .done → q.vectors.get? item.chunkId = some (e.vectorOf source))
  job : ∀ i item, q.items.get? i = some item → (q.jobs.get? item.jobId).isSome
  /-- What a worker holds is being processed; once it has stored it, the vectors are there. -/
  held : ∀ w b i, q.batches.get? w = some b → i ∈ b.items → ∃ item, q.items.get? i = some item ∧
    item.status = .processing ∧ (b.stage ≠ .claimed → ∀ source, q.chunks.get? item.chunkId = some source →
      q.vectors.get? item.chunkId = some (e.vectorOf source))
  apart : ∀ w w' b b' i, q.batches.get? w = some b → q.batches.get? w' = some b' → i ∈ b.items → i ∈ b'.items →
    w = w'
  /-- A worker looks at the jobs of its own items. -/
  known : ∀ w b todo finished, q.batches.get? w = some b → b.stage = .marked todo finished →
    ∀ j ∈ todo ++ finished, ∃ i ∈ b.items, ∃ item, q.items.get? i = some item ∧ item.jobId = j
  finished : ∀ w b todo finished, q.batches.get? w = some b → b.stage = .marked todo finished →
    ∀ j ∈ finished, ∀ i item, q.items.get? i = some item → item.jobId = j → item.status = .done ∨ i ∈ b.items
  completed : ∀ j, q.jobs.get? j = some .completed → ∀ i item, q.items.get? i = some item → item.jobId = j →
    item.status = .done

/-- A job that a worker looks at is there. -/
theorem Inv.job_of_known (hq : Inv e q) {w : ℕ} {b : Batch} {todo finished : List ℕ}
    (hb : q.batches.get? w = some b) (hstage : b.stage = .marked todo finished) {j : ℕ} (hj : j ∈ todo ++ finished) :
    (q.jobs.get? j).isSome := by
  obtain ⟨i, -, item, hitem, rfl⟩ := hq.known w b todo finished hb hstage j hj
  exact hq.job i item hitem

theorem inv_empty : Inv e .empty := by
  constructor <;> intros <;> simp_all [Queue.empty]

/-- A batch in a table where one worker's batch was replaced. -/
theorem batch_cases {batches : OrderedDict ℕ Batch} {w w' : ℕ} {b b' : Batch}
    (h : (batches.set w b).get? w' = some b') : (w' = w ∧ b' = b) ∨ (w' ≠ w ∧ batches.get? w' = some b') := by
  by_cases hw : w' = w
  · subst hw
    rw [batches.get?_set_self] at h
    exact .inl ⟨rfl, (Option.some.inj h).symm⟩
  · rw [batches.get?_set_ne b hw] at h
    exact .inr ⟨hw, h⟩

/-- A batch in a table from which one worker's batch was taken. -/
theorem batch_left {batches : OrderedDict ℕ Batch} {w w' : ℕ} {b : Batch}
    (h : (batches.erase w).get? w' = some b) : w' ≠ w ∧ batches.get? w' = some b := by
  by_cases hw : w' = w
  · subst hw
    rw [batches.get?_erase_self] at h
    cases h
  · rw [batches.get?_erase_ne hw] at h
    exact ⟨hw, h⟩

section Steps

variable {w : ℕ} {ids : List ℕ}

theorem inv_enqueue (hq : Inv e q) {job : ℕ} {rows : List (ℕ × ℕ × ChunkSource)} (h : q.fresh job rows = true) :
    Inv e (q.add job rows) := by
  unfold Queue.fresh at h
  simp only [Bool.and_eq_true, decide_eq_true_eq, List.all_eq_true, Option.isNone_iff_eq_none] at h
  obtain ⟨⟨⟨hjob, hids⟩, hchunkIds⟩, hnew⟩ := h
  have hitems : ∀ i item, (q.add job rows).items.get? i = some item → q.items.get? i = some item ∨
      ∃ r ∈ rows, r.1 = i ∧ (⟨r.2.1, job, .pending⟩ : QueueItem) = item := fun i item hi =>
    get?_inserted (fun r : ℕ × ℕ × ChunkSource => r.1) (fun r => (⟨r.2.1, job, .pending⟩ : QueueItem)) hi
  have hchunks : ∀ c source, q.chunks.get? c = some source → (q.add job rows).chunks.get? c = some source := by
    intro c source hc
    refine (get?_inserted_ne (fun r : ℕ × ℕ × ChunkSource => r.2.1) (fun r => r.2.2) fun r hr heq => ?_).trans hc
    rw [← heq, (hnew r hr).2] at hc
    cases hc
  have hjobs : ∀ j, (q.jobs.get? j).isSome → j ≠ job ∧ (q.add job rows).jobs.get? j = q.jobs.get? j := by
    intro j hj
    have hne : j ≠ job := by
      rintro rfl
      rw [hjob] at hj
      cases hj
    exact ⟨hne, q.jobs.get?_set_ne _ hne⟩
  have hold : ∀ i item, (q.add job rows).items.get? i = some item → item.jobId ≠ job → q.items.get? i = some item := by
    intro i item hi hne
    obtain hold | ⟨r, -, -, rfl⟩ := hitems i item hi
    · exact hold
    · exact absurd rfl hne
  have hsame : ∀ i item, q.items.get? i = some item → (q.add job rows).items.get? i = some item := by
    intro i item hitem
    refine (get?_inserted_ne (fun r : ℕ × ℕ × ChunkSource => r.1) _ fun r hr heq => ?_).trans hitem
    rw [← heq, (hnew r hr).1] at hitem
    cases hitem
  refine ⟨fun i item hi => ?_, fun i item hi => ?_, fun w b i hb hi => ?_, hq.apart, ?_, ?_, ?_⟩
  · obtain hold | ⟨r, hr, -, rfl⟩ := hitems i item hi
    · obtain ⟨source, hsource, hdone⟩ := hq.backed i item hold
      exact ⟨source, hchunks _ _ hsource, hdone⟩
    · exact ⟨r.2.2, get?_inserted_self _ _ hchunkIds hr, fun hdone => absurd hdone (by simp)⟩
  · obtain hold | ⟨r, hr, -, rfl⟩ := hitems i item hi
    · have hj := hq.job i item hold
      exact (hjobs _ hj).2 ▸ hj
    · exact Option.isSome_iff_exists.mpr ⟨_, q.jobs.get?_set_self job .embedding⟩
  · obtain ⟨item, hitem, hstatus, hvector⟩ := hq.held w b i hb hi
    refine ⟨item, hsame i item hitem, hstatus, fun hstage source hsource => hvector hstage source ?_⟩
    obtain ⟨source', hsource', -⟩ := hq.backed i item hitem
    rw [hchunks _ _ hsource'] at hsource
    exact hsource ▸ hsource'
  · intro w b todo finished hb hstage j hj
    obtain ⟨i, hi, item, hitem, hij⟩ := hq.known w b todo finished hb hstage j hj
    exact ⟨i, hi, item, hsame i item hitem, hij⟩
  · intro w b todo finished hb hstage j hj i item hi hij
    have hne := (hjobs j (hq.job_of_known hb hstage (List.mem_append_right _ hj))).1
    exact hq.finished w b todo finished hb hstage j hj i item (hold i item hi (hij ▸ hne)) hij
  · intro j hcompleted i item hi hij
    have hne : j ≠ job := by
      rintro rfl
      have : (q.add j rows).jobs.get? j = some .embedding := q.jobs.get?_set_self j .embedding
      rw [this] at hcompleted
      cases hcompleted
    have hbefore : q.jobs.get? j = some .completed := (q.jobs.get?_set_ne _ hne).symm.trans hcompleted
    exact hq.completed j hbefore i item (hold i item hi (hij ▸ hne)) hij

theorem inv_claim (hq : Inv e q) (h : e.claimable q w ids = true) :
    Inv e { q with items := setStatus q.items ids .processing, batches := q.batches.set w ⟨ids, .claimed⟩ } := by
  unfold Embedder.claimable at h
  simp only [Bool.and_eq_true, List.all_eq_true, Option.any_eq_true, beq_iff_eq] at h
  have hpending := h.2
  -- an item after the claim is one before it, with the same chunk and job
  have hitems : ∀ i item, (setStatus q.items ids .processing).get? i = some item →
      (i ∈ ids ∧ ∃ old, q.items.get? i = some old ∧ old.status = .pending ∧
        item = { old with status := .processing }) ∨ (i ∉ ids ∧ q.items.get? i = some item) := by
    intro i item hi
    rw [get?_setStatus] at hi
    split at hi
    · rename_i hin
      obtain ⟨old, hold, hstatus⟩ := hpending i hin
      rw [hold] at hi
      exact .inl ⟨hin, old, hold, hstatus, (Option.some.inj hi).symm⟩
    · rename_i hin
      exact .inr ⟨hin, hi⟩
  have hheld : ∀ w b i, q.batches.get? w = some b → i ∈ b.items → i ∉ ids := by
    intro w b i hb hi hin
    obtain ⟨item, hitem, hstatus, -⟩ := hq.held w b i hb hi
    obtain ⟨old, hold, hold'⟩ := hpending i hin
    obtain rfl := Option.some.inj (hold.symm.trans hitem)
    rw [hstatus] at hold'
    cases hold'
  refine ⟨fun i item hi => ?_, fun i item hi => ?_, fun w' b i hb hi => ?_, ?_, ?_, ?_, ?_⟩
  · obtain ⟨-, old, hold, -, rfl⟩ | ⟨-, hsame⟩ := hitems i item hi
    · obtain ⟨source, hsource, -⟩ := hq.backed i old hold
      exact ⟨source, hsource, fun hdone => absurd hdone (by simp)⟩
    · exact hq.backed i item hsame
  · obtain ⟨-, old, hold, -, rfl⟩ | ⟨-, hsame⟩ := hitems i item hi
    · exact hq.job i old hold
    · exact hq.job i item hsame
  · obtain ⟨rfl, rfl⟩ | ⟨-, hb'⟩ := batch_cases hb
    · obtain ⟨old, hold, -⟩ := hpending i hi
      refine ⟨{ old with status := .processing }, ?_, rfl, fun hstage => absurd rfl hstage⟩
      rw [get?_setStatus, if_pos hi, hold]
      rfl
    · obtain ⟨item, hitem, hrest⟩ := hq.held w' b i hb' hi
      refine ⟨item, ?_, hrest⟩
      rw [get?_setStatus, if_neg (hheld w' b i hb' hi)]
      exact hitem
  · intro w₁ w₂ b₁ b₂ i h₁ h₂ hi₁ hi₂
    obtain ⟨rfl, rfl⟩ | ⟨-, hb₁⟩ := batch_cases h₁
    · obtain ⟨rfl, -⟩ | ⟨-, hb₂⟩ := batch_cases h₂
      · rfl
      · exact absurd hi₁ (hheld w₂ b₂ i hb₂ hi₂)
    · obtain ⟨rfl, rfl⟩ | ⟨-, hb₂⟩ := batch_cases h₂
      · exact absurd hi₂ (hheld w₁ b₁ i hb₁ hi₁)
      · exact hq.apart w₁ w₂ b₁ b₂ i hb₁ hb₂ hi₁ hi₂
  · intro w' b todo finished hb hstage j hj
    obtain ⟨rfl, rfl⟩ | ⟨-, hb'⟩ := batch_cases hb
    · cases hstage
    · obtain ⟨i, hi, item, hitem, hij⟩ := hq.known w' b todo finished hb' hstage j hj
      refine ⟨i, hi, item, ?_, hij⟩
      rw [get?_setStatus, if_neg (hheld w' b i hb' hi)]
      exact hitem
  · intro w' b todo finished hb hstage j hj i item hi hij
    obtain ⟨rfl, rfl⟩ | ⟨-, hb'⟩ := batch_cases hb
    · cases hstage
    · obtain ⟨hin, old, hold, hstatus, rfl⟩ | ⟨-, hsame⟩ := hitems i item hi
      · obtain hdone | hown := hq.finished w' b todo finished hb' hstage j hj i old hold hij
        · rw [hstatus] at hdone
          cases hdone
        · exact .inr hown
      · exact hq.finished w' b todo finished hb' hstage j hj i item hsame hij
  · intro j hcompleted i item hi hij
    obtain ⟨-, old, hold, hstatus, rfl⟩ | ⟨-, hsame⟩ := hitems i item hi
    · have hdone := hq.completed j hcompleted i old hold hij
      rw [hstatus] at hdone
      cases hdone
    · exact hq.completed j hcompleted i item hsame hij

/-- A worker goes on with its items: the vectors it has stored by then are there, and what it has found finished
    is. -/
theorem inv_stage (hq : Inv e q) {stage stage' : Stage} {vectors : OrderedDict ℕ (V × String)}
    (hb : q.batches.get? w = some ⟨ids, stage⟩)
    (hkeep : ∀ c source, q.chunks.get? c = some source → q.vectors.get? c = some (e.vectorOf source) →
      vectors.get? c = some (e.vectorOf source))
    (hown : ∀ i ∈ ids, ∀ item, q.items.get? i = some item → ∀ source, q.chunks.get? item.chunkId = some source →
      vectors.get? item.chunkId = some (e.vectorOf source))
    (hknown : ∀ todo finished, stage' = .marked todo finished → ∀ j ∈ todo ++ finished,
      ∃ i ∈ ids, ∃ item, q.items.get? i = some item ∧ item.jobId = j)
    (hfinished : ∀ todo finished, stage' = .marked todo finished → ∀ j ∈ finished, ∀ i item,
      q.items.get? i = some item → item.jobId = j → item.status = .done ∨ i ∈ ids) :
    Inv e { q with vectors := vectors, batches := q.batches.set w ⟨ids, stage'⟩ } := by
  refine ⟨fun i item hi => ?_, hq.job, fun w' b i hb' hi => ?_, ?_, ?_, ?_, hq.completed⟩
  · obtain ⟨source, hsource, hdone⟩ := hq.backed i item hi
    exact ⟨source, hsource, fun h => hkeep _ _ hsource (hdone h)⟩
  · obtain ⟨rfl, rfl⟩ | ⟨-, hother⟩ := batch_cases hb'
    · obtain ⟨item, hitem, hstatus, -⟩ := hq.held w' ⟨ids, stage⟩ i hb hi
      exact ⟨item, hitem, hstatus, fun _ source hsource => hown i hi item hitem source hsource⟩
    · obtain ⟨item, hitem, hstatus, hvector⟩ := hq.held w' b i hother hi
      exact ⟨item, hitem, hstatus, fun h source hsource => hkeep _ _ hsource (hvector h source hsource)⟩
  · intro w₁ w₂ b₁ b₂ i h₁ h₂ hi₁ hi₂
    obtain ⟨rfl, rfl⟩ | ⟨-, hb₁⟩ := batch_cases h₁
    · obtain ⟨rfl, -⟩ | ⟨-, hb₂⟩ := batch_cases h₂
      · rfl
      · exact hq.apart w₁ w₂ _ b₂ i hb hb₂ hi₁ hi₂
    · obtain ⟨rfl, rfl⟩ | ⟨-, hb₂⟩ := batch_cases h₂
      · exact hq.apart w₁ w₂ b₁ _ i hb₁ hb hi₁ hi₂
      · exact hq.apart w₁ w₂ b₁ b₂ i hb₁ hb₂ hi₁ hi₂
  · intro w' b todo finished hb' hstage
    obtain ⟨rfl, rfl⟩ | ⟨-, hother⟩ := batch_cases hb'
    · exact hknown todo finished hstage
    · exact hq.known w' b todo finished hother hstage
  · intro w' b todo finished hb' hstage
    obtain ⟨rfl, rfl⟩ | ⟨-, hother⟩ := batch_cases hb'
    · exact hfinished todo finished hstage
    · exact hq.finished w' b todo finished hother hstage

theorem inv_commit (hq : Inv e q) {finished : List ℕ} (hb : q.batches.get? w = some ⟨ids, .marked [] finished⟩) :
    Inv e { q with
      items := setStatus q.items ids .done, jobs := complete q.jobs finished, batches := q.batches.erase w } := by
  have hitems : ∀ i item, (setStatus q.items ids .done).get? i = some item →
      (i ∈ ids ∧ ∃ old, q.items.get? i = some old ∧ item = { old with status := .done }) ∨
        (i ∉ ids ∧ q.items.get? i = some item) := by
    intro i item hi
    rw [get?_setStatus] at hi
    split at hi
    · rename_i hin
      obtain ⟨old, hold, rfl⟩ := Option.map_eq_some_iff.mp hi
      exact .inl ⟨hin, old, hold, rfl⟩
    · rename_i hin
      exact .inr ⟨hin, hi⟩
  have hjobs : ∀ j, (q.jobs.get? j).isSome → ((complete q.jobs finished).get? j).isSome := by
    intro j hj
    rw [get?_complete]
    split
    · rw [Option.isSome_map]
      exact hj
    · exact hj
  refine ⟨fun i item hi => ?_, fun i item hi => ?_, fun w' b i hb' hi => ?_, ?_, ?_, ?_, ?_⟩
  · obtain ⟨hin, old, hold, rfl⟩ | ⟨-, hsame⟩ := hitems i item hi
    · obtain ⟨source, hsource, -⟩ := hq.backed i old hold
      obtain ⟨item', hitem', -, hvector⟩ := hq.held w _ i hb hin
      obtain rfl := Option.some.inj (hold.symm.trans hitem')
      exact ⟨source, hsource, fun _ => hvector (by simp) source hsource⟩
    · exact hq.backed i item hsame
  · obtain ⟨-, old, hold, rfl⟩ | ⟨-, hsame⟩ := hitems i item hi
    · exact hjobs _ (hq.job i old hold)
    · exact hjobs _ (hq.job i item hsame)
  · obtain ⟨hne, hother⟩ := batch_left hb'
    obtain ⟨item, hitem, hrest⟩ := hq.held w' b i hother hi
    have hnot : i ∉ ids := fun hin => hne (hq.apart w' w b _ i hother hb hi hin)
    refine ⟨item, ?_, hrest⟩
    rw [get?_setStatus, if_neg hnot]
    exact hitem
  · intro w₁ w₂ b₁ b₂ i h₁ h₂
    exact hq.apart w₁ w₂ b₁ b₂ i (batch_left h₁).2 (batch_left h₂).2
  · intro w' b todo finished' hb' hstage j hj
    obtain ⟨i, hi, item, hitem, hij⟩ := hq.known w' b todo finished' (batch_left hb').2 hstage j hj
    by_cases hin : i ∈ ids
    · exact ⟨i, hi, { item with status := .done }, by rw [get?_setStatus, if_pos hin, hitem]; rfl, hij⟩
    · exact ⟨i, hi, item, by rw [get?_setStatus, if_neg hin]; exact hitem, hij⟩
  · intro w' b todo finished' hb' hstage j hj i item hi hij
    obtain ⟨-, old, -, rfl⟩ | ⟨-, hsame⟩ := hitems i item hi
    · exact .inl rfl
    · exact hq.finished w' b todo finished' (batch_left hb').2 hstage j hj i item hsame hij
  · intro j hcompleted i item hi hij
    obtain ⟨-, old, -, rfl⟩ | ⟨hnot, hsame⟩ := hitems i item hi
    · rfl
    · rw [get?_complete] at hcompleted
      split at hcompleted
      · rename_i hj
        exact (hq.finished w _ [] finished hb rfl j hj i item hsame hij).resolve_right hnot
      · exact hq.completed j hcompleted i item hsame hij

theorem inv_fail (hq : Inv e q) (w : ℕ) : Inv e { q with batches := q.batches.erase w } where
  backed := hq.backed
  job := hq.job
  held w' b i hb hi := hq.held w' b i (batch_left hb).2 hi
  apart w₁ w₂ b₁ b₂ i h₁ h₂ := hq.apart w₁ w₂ b₁ b₂ i (batch_left h₁).2 (batch_left h₂).2
  known w' b todo finished hb := hq.known w' b todo finished (batch_left hb).2
  finished w' b todo finished hb := hq.finished w' b todo finished (batch_left hb).2
  completed := hq.completed

end Steps

theorem inv_step {action : Action} (hq : Inv e q) (h : e.step q action = some q') : Inv e q' := by
  cases action with
  | enqueue job rows =>
    obtain ⟨hfresh, h⟩ := Option.ite_none_right_eq_some.mp h
    obtain rfl := Option.some.inj h
    exact inv_enqueue hq hfresh
  | claim w ids =>
    obtain ⟨hclaim, h⟩ := Option.ite_none_right_eq_some.mp h
    obtain rfl := Option.some.inj h
    exact inv_claim hq hclaim
  | store w =>
    simp only [Embedder.step] at h
    split at h
    · rename_i ids hb
      obtain rfl := Option.some.inj h
      refine inv_stage hq hb (fun c source hc hold => get?_stored hc (.inr hold))
        (fun i hi item hitem source hsource => get?_stored hsource (.inl ⟨i, hi, item, hitem, rfl⟩)) ?_ ?_
      · rintro todo finished ⟨⟩
      · rintro todo finished ⟨⟩
    · cases h
  | mark w =>
    simp only [Embedder.step] at h
    split at h
    · rename_i ids hb
      obtain rfl := Option.some.inj h
      refine inv_stage hq hb (fun _ _ _ hold => hold) (fun i hi item hitem source hsource => ?_) ?_ ?_
      · obtain ⟨item', hitem', -, hvector⟩ := hq.held w _ i hb hi
        obtain rfl := Option.some.inj (hitem.symm.trans hitem')
        exact hvector (by simp) source hsource
      · intro todo finished hstage j hj
        obtain ⟨rfl, rfl⟩ := Stage.marked.inj hstage
        rw [List.append_nil, mem_jobsOf] at hj
        exact hj
      · intro todo finished hstage j hj
        obtain ⟨rfl, rfl⟩ := Stage.marked.inj hstage
        cases hj
    · cases h
  | check w =>
    simp only [Embedder.step] at h
    split at h
    · rename_i ids job todo finished hb
      obtain rfl := Option.some.inj h
      refine inv_stage hq hb (fun _ _ _ hold => hold) (fun i hi item hitem source hsource => ?_) ?_ ?_
      · obtain ⟨item', hitem', -, hvector⟩ := hq.held w _ i hb hi
        obtain rfl := Option.some.inj (hitem.symm.trans hitem')
        exact hvector (by simp) source hsource
      · intro todo' finished' hstage j hj
        obtain ⟨rfl, rfl⟩ := Stage.marked.inj hstage
        refine hq.known w _ (job :: todo) finished hb rfl j ?_
        split at hj
        · exact List.mem_cons_of_mem _ hj
        · cases List.mem_append.mp hj with
          | inl hleft => exact List.mem_cons_of_mem _ (List.mem_append_left _ hleft)
          | inr hfound =>
            cases List.mem_append.mp hfound with
            | inl hold => exact List.mem_append_right _ hold
            | inr hnew => exact List.mem_singleton.mp hnew ▸ List.mem_cons_self
      · intro todo' finished' hstage j hj i item hi hij
        obtain ⟨rfl, rfl⟩ := Stage.marked.inj hstage
        split at hj
        · exact hq.finished w _ (job :: todo) finished hb rfl j hj i item hi hij
        · rename_i hnothing
          cases List.mem_append.mp hj with
          | inl hold => exact hq.finished w _ (job :: todo) finished hb rfl j hold i item hi hij
          | inr hnew =>
            exact remaining_eq_false (by simpa using hnothing) hi (hij.trans (List.mem_singleton.mp hnew))
    · cases h
  | commit w =>
    simp only [Embedder.step] at h
    split at h
    · rename_i ids finished hb
      obtain rfl := Option.some.inj h
      exact inv_commit hq hb
    · cases h
  | fail w =>
    obtain rfl := Option.some.inj h
    exact inv_fail hq w

theorem inv_reachable (h : e.Reachable q) : Inv e q := by
  obtain ⟨actions, hrun⟩ := h
  exact foldlM_induct (fun _ _ _ hq hstep => inv_step hq hstep) actions inv_empty hrun

/-- **Over every run, with any number of workers that fail whenever they like**: an item that is done has stored
    the vector of its own chunk, a job that is completed has only items that are done, and no item is in the hands
    of two workers. -/
theorem embedding_safe (h : e.Reachable q) :
    (∀ i item source, q.items.get? i = some item → item.status = .done →
      q.chunks.get? item.chunkId = some source → q.vectors.get? item.chunkId = some (e.vectorOf source)) ∧
    (∀ i item, q.items.get? i = some item → q.jobs.get? item.jobId = some .completed → item.status = .done) ∧
    ∀ w w' b b' i, q.batches.get? w = some b → q.batches.get? w' = some b' → i ∈ b.items → i ∈ b'.items → w = w' := by
  have hq := inv_reachable h
  refine ⟨fun i item source hi hdone hsource => ?_, fun i item hi hcompleted => ?_, hq.apart⟩
  · obtain ⟨source', hsource', hvector⟩ := hq.backed i item hi
    obtain rfl := Option.some.inj (hsource.symm.trans hsource')
    exact hvector hdone
  · exact hq.completed item.jobId hcompleted i item hi rfl

/-- Two chunks of one document. -/
def twoChunks : List (ℕ × ℕ × ChunkSource) := [(0, 10, .entity "a"), (1, 11, .chunk "b" (some "h"))]

/-- A worker with both of them, from the claim to the commit. -/
def bothByOne : List Action := [.enqueue 1 twoChunks, .claim 0 [0, 1], .store 0, .mark 0, .check 0, .commit 0]

theorem bothByOne_runs : (bothByOne.foldlM (Embedder.step ⟨String.length, 2⟩) Queue.empty).isSome = true := by decide

/-- What it leaves. -/
def embedded : Queue ℕ := (bothByOne.foldlM (Embedder.step ⟨String.length, 2⟩) Queue.empty).get bothByOne_runs

theorem embedding_safe_both : embedded.vectors.get? 11 = some (2 + 2, "b") :=
  (embedding_safe ⟨bothByOne, (Option.some_get bothByOne_runs).symm⟩).1 1 ⟨11, 1, .done⟩ (.chunk "b" (some "h"))
    (by decide) rfl (by decide)

/-! ## §5. When a job is completed. -/

/-- What is claimed is of jobs that no other worker holds an item of. -/
def Queue.Alone (q : Queue V) : Action → Prop
  | .claim _ ids => ∀ w b, q.batches.get? w = some b → ∀ j ∈ q.jobsOf ids, j ∉ q.jobsOf b.items
  | _ => True

/-- Every claim of a run is so. -/
def Embedder.AloneRun (e : Embedder V) (q : Queue V) : List Action → Prop
  | [] => True
  | action :: actions => q.Alone action ∧ ∀ q' ∈ e.step q action, e.AloneRun q' actions

/-- No two workers hold items of one job, what a worker does not find finished has something left that it does not
    hold, and a job whose items are done is completed. -/
structure Prompt (q : Queue V) : Prop where
  apart : ∀ w w' b b' j, q.batches.get? w = some b → q.batches.get? w' = some b' → j ∈ q.jobsOf b.items →
    j ∈ q.jobsOf b'.items → w = w'
  checked : ∀ w b todo finished, q.batches.get? w = some b → b.stage = .marked todo finished →
    ∀ j ∈ q.jobsOf b.items, j ∈ todo ∨ j ∈ finished ∨
      ∃ i item, q.items.get? i = some item ∧ item.jobId = j ∧ item.status ≠ .done ∧ i ∉ b.items
  complete : ∀ j, (∃ i item, q.items.get? i = some item ∧ item.jobId = j) →
    (∀ i item, q.items.get? i = some item → item.jobId = j → item.status = .done) → q.jobs.get? j = some .completed

theorem prompt_empty : Prompt (.empty : Queue V) := by
  constructor <;> intros <;> simp_all [Queue.empty]

/-- The jobs of some items, in tables that agree on their jobs. -/
theorem jobsOf_congr {ids : List ℕ}
    (h : ∀ i ∈ ids, (q'.items.get? i).map QueueItem.jobId = (q.items.get? i).map QueueItem.jobId) :
    q'.jobsOf ids = q.jobsOf ids := by
  unfold Queue.jobsOf
  rw [List.filterMap_congr h]

theorem jobId_setStatus (items : OrderedDict ℕ QueueItem) (ids : List ℕ) (status : QueueStatus) (i : ℕ) :
    ((setStatus items ids status).get? i).map QueueItem.jobId = (items.get? i).map QueueItem.jobId := by
  rw [get?_setStatus]
  split
  · rw [Option.map_map]
    rfl
  · rfl

section PromptSteps

variable {w : ℕ} {ids : List ℕ}

theorem prompt_enqueue (hq : Inv e q) (hp : Prompt q) {job : ℕ} {rows : List (ℕ × ℕ × ChunkSource)}
    (h : q.fresh job rows = true) : Prompt (q.add job rows) := by
  unfold Queue.fresh at h
  simp only [Bool.and_eq_true, decide_eq_true_eq, List.all_eq_true, Option.isNone_iff_eq_none] at h
  obtain ⟨⟨⟨hjob, hids⟩, -⟩, hnew⟩ := h
  have hsame : ∀ i item, q.items.get? i = some item → (q.add job rows).items.get? i = some item := by
    intro i item hitem
    refine (get?_inserted_ne (fun r : ℕ × ℕ × ChunkSource => r.1) _ fun r hr heq => ?_).trans hitem
    rw [← heq, (hnew r hr).1] at hitem
    cases hitem
  have hjobsOf : ∀ w b, q.batches.get? w = some b → (q.add job rows).jobsOf b.items = q.jobsOf b.items := by
    intro w b hb
    refine jobsOf_congr fun i hi => ?_
    obtain ⟨item, hitem, -⟩ := hq.held w b i hb hi
    rw [hsame i item hitem, hitem]
  refine ⟨fun w w' b b' j hb hb' hj hj' => ?_, fun w b todo finished hb hstage j hj => ?_, ?_⟩
  · rw [hjobsOf w b hb] at hj
    rw [hjobsOf w' b' hb'] at hj'
    exact hp.apart w w' b b' j hb hb' hj hj'
  · rw [hjobsOf w b hb] at hj
    refine (hp.checked w b todo finished hb hstage j hj).imp_right (.imp_right ?_)
    rintro ⟨i, item, hitem, hrest⟩
    exact ⟨i, item, hsame i item hitem, hrest⟩
  · rintro j ⟨i, item, hitem, hij⟩ hdone
    obtain hold | ⟨r, hr, -, rfl⟩ :=
      get?_inserted (fun r : ℕ × ℕ × ChunkSource => r.1) (fun r => (⟨r.2.1, job, .pending⟩ : QueueItem)) hitem
    · have hbefore := hp.complete j ⟨i, item, hold, hij⟩ fun i' item' hi' => hdone i' item' (hsame i' item' hi')
      have hne : j ≠ job := by
        rintro rfl
        rw [hjob] at hbefore
        cases hbefore
      exact (q.jobs.get?_set_ne _ hne).trans hbefore
    · -- an item that was just queued is not done
      have := hdone i _ hitem hij
      cases this

theorem prompt_claim (hp : Prompt q) (h : e.claimable q w ids = true)
    (halone : q.Alone (.claim w ids)) :
    Prompt { q with items := setStatus q.items ids .processing, batches := q.batches.set w ⟨ids, .claimed⟩ } := by
  unfold Embedder.claimable at h
  simp only [Bool.and_eq_true, List.all_eq_true, Option.any_eq_true, beq_iff_eq] at h
  have hpending := h.2
  have hjobsOf : ∀ ids', Queue.jobsOf { q with
      items := setStatus q.items ids .processing, batches := q.batches.set w ⟨ids, .claimed⟩ } ids' = q.jobsOf ids' :=
    fun ids' => jobsOf_congr fun i _ => jobId_setStatus q.items ids .processing i
  refine ⟨fun w₁ w₂ b₁ b₂ j h₁ h₂ hj₁ hj₂ => ?_, fun w' b todo finished hb hstage j hj => ?_, ?_⟩
  · rw [hjobsOf] at hj₁ hj₂
    obtain ⟨rfl, rfl⟩ | ⟨-, hb₁⟩ := batch_cases h₁
    · obtain ⟨rfl, -⟩ | ⟨-, hb₂⟩ := batch_cases h₂
      · rfl
      · exact absurd hj₂ (halone w₂ b₂ hb₂ j hj₁)
    · obtain ⟨rfl, rfl⟩ | ⟨-, hb₂⟩ := batch_cases h₂
      · exact absurd hj₁ (halone w₁ b₁ hb₁ j hj₂)
      · exact hp.apart w₁ w₂ b₁ b₂ j hb₁ hb₂ hj₁ hj₂
  · rw [hjobsOf] at hj
    obtain ⟨rfl, rfl⟩ | ⟨-, hb'⟩ := batch_cases hb
    · cases hstage
    · refine (hp.checked w' b todo finished hb' hstage j hj).imp_right (.imp_right ?_)
      rintro ⟨i, item, hitem, hij, hnot, hfree⟩
      by_cases hin : i ∈ ids
      · exact ⟨i, { item with status := .processing }, by rw [get?_setStatus, if_pos hin, hitem]; rfl, hij,
          by simp, hfree⟩
      · exact ⟨i, item, by rw [get?_setStatus, if_neg hin]; exact hitem, hij, hnot, hfree⟩
  · rintro j ⟨i, item, hitem, hij⟩ hdone
    -- an item that was just claimed is not done, so the job has none of these
    have hbefore : ∀ i item, q.items.get? i = some item → item.jobId = j →
        (setStatus q.items ids .processing).get? i = some item := by
      intro i item hitem hij
      by_cases hin : i ∈ ids
      · have hnow : (setStatus q.items ids .processing).get? i = some { item with status := .processing } := by
          rw [get?_setStatus, if_pos hin, hitem]
          rfl
        exact absurd (hdone i _ hnow hij) (by simp)
      · rw [get?_setStatus, if_neg hin]
        exact hitem
    have hold : ∃ old, q.items.get? i = some old ∧ old.jobId = j := by
      have hmap := jobId_setStatus q.items ids .processing i
      rw [show (setStatus q.items ids .processing).get? i = some item from hitem] at hmap
      obtain ⟨old, hold, heq⟩ := Option.map_eq_some_iff.mp hmap.symm
      exact ⟨old, hold, heq.trans hij⟩
    obtain ⟨old, hold, hoj⟩ := hold
    exact hp.complete j ⟨i, old, hold, hoj⟩ fun i' item' hi' hij' => hdone i' item' (hbefore i' item' hi' hij') hij'

/-- A worker goes on with its items, and has looked at a job only if nothing is left or something else is. -/
theorem prompt_stage (hp : Prompt q) {stage stage' : Stage} {vectors : OrderedDict ℕ (V × String)}
    (hb : q.batches.get? w = some ⟨ids, stage⟩)
    (hchecked : ∀ todo finished, stage' = .marked todo finished → ∀ j ∈ q.jobsOf ids, j ∈ todo ∨ j ∈ finished ∨
      ∃ i item, q.items.get? i = some item ∧ item.jobId = j ∧ item.status ≠ .done ∧ i ∉ ids) :
    Prompt { q with vectors := vectors, batches := q.batches.set w ⟨ids, stage'⟩ } := by
  refine ⟨fun w₁ w₂ b₁ b₂ j h₁ h₂ hj₁ hj₂ => ?_, fun w' b todo finished hb' hstage j hj => ?_, hp.complete⟩
  · obtain ⟨rfl, rfl⟩ | ⟨-, hb₁⟩ := batch_cases h₁
    · obtain ⟨rfl, -⟩ | ⟨-, hb₂⟩ := batch_cases h₂
      · rfl
      · exact hp.apart w₁ w₂ _ b₂ j hb hb₂ hj₁ hj₂
    · obtain ⟨rfl, rfl⟩ | ⟨-, hb₂⟩ := batch_cases h₂
      · exact hp.apart w₁ w₂ b₁ _ j hb₁ hb hj₁ hj₂
      · exact hp.apart w₁ w₂ b₁ b₂ j hb₁ hb₂ hj₁ hj₂
  · obtain ⟨rfl, rfl⟩ | ⟨-, hother⟩ := batch_cases hb'
    · exact hchecked todo finished hstage j hj
    · exact hp.checked w' b todo finished hother hstage j hj

theorem prompt_commit (hq : Inv e q) (hp : Prompt q) {finished : List ℕ}
    (hb : q.batches.get? w = some ⟨ids, .marked [] finished⟩) :
    Prompt { q with
      items := setStatus q.items ids .done, jobs := complete q.jobs finished, batches := q.batches.erase w } := by
  have hjobsOf : ∀ ids', Queue.jobsOf { q with
      items := setStatus q.items ids .done, jobs := complete q.jobs finished, batches := q.batches.erase w } ids' =
        q.jobsOf ids' := fun ids' => jobsOf_congr fun i _ => jobId_setStatus q.items ids .done i
  refine ⟨fun w₁ w₂ b₁ b₂ j h₁ h₂ hj₁ hj₂ => ?_, fun w' b todo finished' hb' hstage j hj => ?_, ?_⟩
  · rw [hjobsOf] at hj₁ hj₂
    exact hp.apart w₁ w₂ b₁ b₂ j (batch_left h₁).2 (batch_left h₂).2 hj₁ hj₂
  · rw [hjobsOf] at hj
    obtain ⟨hne, hother⟩ := batch_left hb'
    refine (hp.checked w' b todo finished' hother hstage j hj).imp_right (.imp_right ?_)
    rintro ⟨i, item, hitem, hij, hnot, hfree⟩
    -- what another worker waits for is not among the items of this one
    have hin : i ∉ ids := fun hin => hne
      (hp.apart w' w b _ j hother hb hj (mem_jobsOf.mpr ⟨i, hin, item, hitem, hij⟩))
    exact ⟨i, item, by rw [get?_setStatus, if_neg hin]; exact hitem, hij, hnot, hfree⟩
  · rintro j ⟨i, item, hitem, hij⟩ hdone
    show (complete q.jobs finished).get? j = some .completed
    rw [get?_complete]
    obtain ⟨old, hold, hoj⟩ : ∃ old, q.items.get? i = some old ∧ old.jobId = j := by
      have hmap := jobId_setStatus q.items ids .done i
      rw [show (setStatus q.items ids .done).get? i = some item from hitem] at hmap
      obtain ⟨old, hold, heq⟩ := Option.map_eq_some_iff.mp hmap.symm
      exact ⟨old, hold, heq.trans hij⟩
    by_cases hbefore : ∀ i item, q.items.get? i = some item → item.jobId = j → item.status = .done
    · rw [hp.complete j ⟨i, old, hold, hoj⟩ hbefore]
      split <;> rfl
    · -- some item of the job is done by this commit, so the worker has looked at the job
      simp only [not_forall] at hbefore
      obtain ⟨i₁, item₁, hitem₁, hij₁, hnot₁⟩ := hbefore
      have hin : i₁ ∈ ids := by
        by_contra hnot
        refine hnot₁ (hdone i₁ item₁ ?_ hij₁)
        show (setStatus q.items ids .done).get? i₁ = some item₁
        rw [get?_setStatus, if_neg hnot]
        exact hitem₁
      have hj : j ∈ q.jobsOf ids := mem_jobsOf.mpr ⟨i₁, hin, item₁, hitem₁, hij₁⟩
      obtain hnil | hfinished | ⟨i₂, item₂, hitem₂, hij₂, hnot₂, hfree₂⟩ := hp.checked w _ [] finished hb rfl j hj
      · cases hnil
      · rw [if_pos hfinished]
        obtain ⟨status, hstatus⟩ := Option.isSome_iff_exists.mp (hoj ▸ hq.job i old hold)
        rw [hstatus]
        rfl
      · refine absurd (hdone i₂ item₂ ?_ hij₂) hnot₂
        show (setStatus q.items ids .done).get? i₂ = some item₂
        rw [get?_setStatus, if_neg hfree₂]
        exact hitem₂

theorem prompt_fail (hp : Prompt q) (w : ℕ) : Prompt { q with batches := q.batches.erase w } where
  apart w₁ w₂ b₁ b₂ j h₁ h₂ := hp.apart w₁ w₂ b₁ b₂ j (batch_left h₁).2 (batch_left h₂).2
  checked w' b todo finished hb := hp.checked w' b todo finished (batch_left hb).2
  complete := hp.complete

end PromptSteps

theorem prompt_step {action : Action} (hq : Inv e q) (hp : Prompt q) (halone : q.Alone action)
    (h : e.step q action = some q') : Prompt q' := by
  cases action with
  | enqueue job rows =>
    obtain ⟨hfresh, h⟩ := Option.ite_none_right_eq_some.mp h
    obtain rfl := Option.some.inj h
    exact prompt_enqueue hq hp hfresh
  | claim w ids =>
    obtain ⟨hclaim, h⟩ := Option.ite_none_right_eq_some.mp h
    obtain rfl := Option.some.inj h
    exact prompt_claim hp hclaim halone
  | store w =>
    simp only [Embedder.step] at h
    split at h
    · rename_i ids hb
      obtain rfl := Option.some.inj h
      refine prompt_stage hp hb ?_
      rintro todo finished ⟨⟩
    · cases h
  | mark w =>
    simp only [Embedder.step] at h
    split at h
    · rename_i ids hb
      obtain rfl := Option.some.inj h
      refine prompt_stage hp hb fun todo finished hstage j hj => ?_
      obtain ⟨rfl, rfl⟩ := Stage.marked.inj hstage
      exact .inl hj
    · cases h
  | check w =>
    simp only [Embedder.step] at h
    split at h
    · rename_i ids job todo finished hb
      obtain rfl := Option.some.inj h
      refine prompt_stage hp hb fun todo' finished' hstage j hj => ?_
      obtain ⟨rfl, rfl⟩ := Stage.marked.inj hstage
      obtain htodo | hfound | hleft := hp.checked w _ (job :: todo) finished hb rfl j hj
      · cases List.mem_cons.mp htodo with
        | inl heq =>
          subst heq
          cases hr : q.remaining ids j with
          | true => exact .inr (.inr (remaining_eq_true hr))
          | false => exact .inr (.inl (by simp))
        | inr htodo => exact .inl htodo
      · refine .inr (.inl ?_)
        split
        · exact hfound
        · exact List.mem_append_left _ hfound
      · exact .inr (.inr hleft)
    · cases h
  | commit w =>
    simp only [Embedder.step] at h
    split at h
    · rename_i ids finished hb
      obtain rfl := Option.some.inj h
      exact prompt_commit hq hp hb
    · cases h
  | fail w =>
    obtain rfl := Option.some.inj h
    exact prompt_fail hp w

theorem prompt_run (hq : Inv e q) (hp : Prompt q) {actions : List Action} (halone : e.AloneRun q actions)
    (hrun : actions.foldlM e.step q = some q') : Prompt q' := by
  induction actions generalizing q with
  | nil =>
    obtain rfl : q = q' := by simpa using hrun
    exact hp
  | cons action actions ih =>
    rw [List.foldlM_cons] at hrun
    obtain ⟨q₁, hstep, hrest⟩ := Option.bind_eq_some_iff.mp hrun
    exact ih (inv_step hq hstep) (prompt_step hq hp halone.1 hstep) (halone.2 q₁ hstep) hrest

/-- **A job that has items is completed exactly when they are done**, after every run in which no worker claims
    items of a job that another one holds items of. -/
theorem completes_alone {actions : List Action} (halone : e.AloneRun .empty actions)
    (hrun : actions.foldlM e.step .empty = some q) {j : ℕ}
    (hj : ∃ i item, q.items.get? i = some item ∧ item.jobId = j) :
    q.jobs.get? j = some .completed ↔
      ∀ i item, q.items.get? i = some item → item.jobId = j → item.status = .done :=
  ⟨(inv_reachable ⟨actions, hrun⟩).completed j, (prompt_run inv_empty prompt_empty halone hrun).complete j hj⟩

/-- The worker that an action is of. -/
def Action.worker? : Action → Option ℕ
  | .enqueue _ _ => none
  | .claim w _ | .store w | .mark w | .check w | .commit w | .fail w => some w

/-- Nobody else holds items. -/
def Queue.heldBy (q : Queue V) (w : ℕ) : Prop := ∀ w' b, q.batches.get? w' = some b → w' = w

theorem heldBy_step {action : Action} {w : ℕ} (hw : ∀ w' ∈ action.worker?, w' = w) (hq : q.heldBy w)
    (h : e.step q action = some q') : q'.heldBy w := by
  have hset : ∀ {w' : ℕ} {b : Batch}, w' = w → ∀ w'' b', (q.batches.set w' b).get? w'' = some b' → w'' = w := by
    intro w' b hw' w'' b' hb
    obtain ⟨rfl, rfl⟩ | ⟨-, hother⟩ := batch_cases hb
    · exact hw'
    · exact hq w'' b' hother
  have herase : ∀ {w' : ℕ} w'' b', (q.batches.erase w').get? w'' = some b' → w'' = w :=
    fun w'' b' hb => hq w'' b' (batch_left hb).2
  cases action with
  | enqueue job rows =>
    obtain ⟨-, h⟩ := Option.ite_none_right_eq_some.mp h
    obtain rfl := Option.some.inj h
    exact hq
  | claim w' ids =>
    obtain ⟨-, h⟩ := Option.ite_none_right_eq_some.mp h
    obtain rfl := Option.some.inj h
    exact hset (hw w' rfl)
  | store w' | mark w' | check w' =>
    simp only [Embedder.step] at h
    split at h
    · obtain rfl := Option.some.inj h
      exact hset (hw w' rfl)
    · cases h
  | commit w' =>
    simp only [Embedder.step] at h
    split at h
    · obtain rfl := Option.some.inj h
      exact herase
    · cases h
  | fail w' =>
    obtain rfl := Option.some.inj h
    exact herase

/-- A single worker is always alone. -/
theorem aloneRun_single {actions : List Action} {w : ℕ} (hw : ∀ action ∈ actions, ∀ w' ∈ action.worker?, w' = w)
    (hq : q.heldBy w) (hrun : actions.foldlM e.step q = some q') : e.AloneRun q actions := by
  induction actions generalizing q with
  | nil => trivial
  | cons action actions ih =>
    rw [List.foldlM_cons] at hrun
    obtain ⟨q₁, hstep, hrest⟩ := Option.bind_eq_some_iff.mp hrun
    have hmine := hw action List.mem_cons_self
    refine ⟨?_, fun q₂ hq₂ => ?_⟩
    · cases action with
      | claim w' ids =>
        obtain rfl := hmine w' rfl
        obtain ⟨hclaim, -⟩ := Option.ite_none_right_eq_some.mp hstep
        unfold Embedder.claimable at hclaim
        simp only [Bool.and_eq_true, Option.isNone_iff_eq_none] at hclaim
        intro w'' b hb
        obtain rfl := hq w'' b hb
        rw [hclaim.1.1.1.1] at hb
        cases hb
      | _ => trivial
    · obtain rfl := Option.some.inj (hstep.symm.trans hq₂)
      exact ih (fun action haction => hw action (List.mem_cons_of_mem _ haction)) (heldBy_step hmine hq hstep) hrest

theorem completes_alone_both : embedded.jobs.get? 1 = some .completed ↔
    ∀ i item, embedded.items.get? i = some item → item.jobId = 1 → item.status = .done := by
  refine completes_alone (aloneRun_single (w := 0) (by decide) ?_ (Option.some_get bothByOne_runs).symm)
    (Option.some_get bothByOne_runs).symm ⟨0, ⟨10, 1, .done⟩, by decide, rfl⟩
  intro w b hb
  cases hb

/-! ## §6. When it never is. -/

/-- Nobody will finish the job: an item was lost by the worker that had it, or every item has been dealt with and
    the job was not completed. -/
def Queue.Stuck (q : Queue V) (j : ℕ) : Prop :=
  (∃ i item, q.items.get? i = some item ∧ item.jobId = j ∧ item.status = .processing ∧
    ∀ w b, q.batches.get? w = some b → i ∉ b.items) ∨
  ∀ i item, q.items.get? i = some item → item.jobId = j → item.status ≠ .pending ∧
    ∀ w b, q.batches.get? w = some b → i ∉ b.items

/-- The job is being embedded, and will not be completed. -/
def Queue.Forgotten (q : Queue V) (j : ℕ) : Prop := q.jobs.get? j = some .embedding ∧ q.Stuck j

section Forgetting

variable {w j : ℕ} {ids : List ℕ}

/-- The items and the job are as they were, and nobody has taken up one that was free. -/
theorem Queue.Forgotten.of_same (hf : q.Forgotten j) (hjob : q'.jobs.get? j = q.jobs.get? j)
    (hitems : ∀ i item, item.jobId = j → (q'.items.get? i = some item ↔ q.items.get? i = some item))
    (hfree : ∀ i item, q.items.get? i = some item → item.jobId = j → item.status ≠ .pending →
      (∀ w b, q.batches.get? w = some b → i ∉ b.items) → ∀ w b, q'.batches.get? w = some b → i ∉ b.items) :
    q'.Forgotten j := by
  refine ⟨hjob.trans hf.1, ?_⟩
  obtain ⟨i, item, hitem, hij, hstatus, hout⟩ | hall := hf.2
  · exact .inl ⟨i, item, (hitems i item hij).mpr hitem, hij, hstatus,
      hfree i item hitem hij (by simp [hstatus]) hout⟩
  · refine .inr fun i item hitem hij => ?_
    have hbefore := (hitems i item hij).mp hitem
    obtain ⟨hstatus, hout⟩ := hall i item hbefore hij
    exact ⟨hstatus, hfree i item hbefore hij hstatus hout⟩

/-- A worker that goes on with its items takes up no other. -/
theorem Queue.Forgotten.of_stage (hf : q.Forgotten j) {stage stage' : Stage} {vectors : OrderedDict ℕ (V × String)}
    (hb : q.batches.get? w = some ⟨ids, stage⟩) :
    Queue.Forgotten { q with vectors := vectors, batches := q.batches.set w ⟨ids, stage'⟩ } j := by
  refine hf.of_same rfl (fun _ _ _ => Iff.rfl) fun i item _ _ _ hout w' b hb' => ?_
  obtain ⟨rfl, rfl⟩ | ⟨-, hother⟩ := batch_cases hb'
  · have hnot : i ∉ ids := hout w' ⟨ids, stage⟩ hb
    exact hnot
  · exact hout w' b hother

theorem forgotten_enqueue (hf : q.Forgotten j) {job : ℕ} {rows : List (ℕ × ℕ × ChunkSource)}
    (h : q.fresh job rows = true) : (q.add job rows).Forgotten j := by
  unfold Queue.fresh at h
  simp only [Bool.and_eq_true, decide_eq_true_eq, List.all_eq_true, Option.isNone_iff_eq_none] at h
  obtain ⟨⟨⟨hjob, -⟩, -⟩, hnew⟩ := h
  have hne : j ≠ job := by
    rintro rfl
    rw [hf.1] at hjob
    cases hjob
  refine hf.of_same (q.jobs.get?_set_ne _ hne) (fun i item hij => ⟨fun hi => ?_, fun hi => ?_⟩)
    fun _ _ _ _ _ hout => hout
  · obtain hold | ⟨r, -, -, rfl⟩ :=
      get?_inserted (fun r : ℕ × ℕ × ChunkSource => r.1) (fun r => (⟨r.2.1, job, .pending⟩ : QueueItem)) hi
    · exact hold
    · exact absurd hij.symm hne
  · refine (get?_inserted_ne (fun r : ℕ × ℕ × ChunkSource => r.1) _ fun r hr heq => ?_).trans hi
    rw [← heq, (hnew r hr).1] at hi
    cases hi

theorem forgotten_claim (hf : q.Forgotten j) (h : e.claimable q w ids = true) :
    Queue.Forgotten { q with
      items := setStatus q.items ids .processing, batches := q.batches.set w ⟨ids, .claimed⟩ } j := by
  unfold Embedder.claimable at h
  simp only [Bool.and_eq_true, List.all_eq_true, Option.any_eq_true, beq_iff_eq] at h
  have hpending := h.2
  refine ⟨hf.1, ?_⟩
  obtain ⟨i, item, hitem, hij, hstatus, hout⟩ | hall := hf.2
  · -- what is being processed is not claimed
    have hnot : i ∉ ids := by
      intro hin
      obtain ⟨old, hold, hold'⟩ := hpending i hin
      obtain rfl := Option.some.inj (hold.symm.trans hitem)
      rw [hstatus] at hold'
      cases hold'
    refine .inl ⟨i, item, by rw [get?_setStatus, if_neg hnot]; exact hitem, hij, hstatus, fun w' b hb => ?_⟩
    obtain ⟨rfl, rfl⟩ | ⟨-, hother⟩ := batch_cases hb
    · exact hnot
    · exact hout w' b hother
  · have hnot : ∀ i item, q.items.get? i = some item → item.jobId = j → i ∉ ids := by
      intro i item hitem hij hin
      obtain ⟨old, hold, hold'⟩ := hpending i hin
      obtain rfl := Option.some.inj (hold.symm.trans hitem)
      exact (hall i old hitem hij).1 hold'
    refine .inr fun i item hitem hij => ?_
    rw [get?_setStatus] at hitem
    split at hitem
    · rename_i hin
      obtain ⟨old, hold, rfl⟩ := Option.map_eq_some_iff.mp hitem
      exact absurd hin (hnot i old hold hij)
    · rename_i hin
      obtain ⟨hstatus, hout⟩ := hall i item hitem hij
      refine ⟨hstatus, fun w' b hb => ?_⟩
      obtain ⟨rfl, rfl⟩ | ⟨-, hother⟩ := batch_cases hb
      · exact hin
      · exact hout w' b hother

theorem forgotten_commit (hq : Inv e q) (hf : q.Forgotten j) {finished : List ℕ}
    (hb : q.batches.get? w = some ⟨ids, .marked [] finished⟩) :
    Queue.Forgotten { q with
      items := setStatus q.items ids .done, jobs := complete q.jobs finished, batches := q.batches.erase w } j := by
  -- the worker has not looked at the job, or has seen the item that was lost
  have hj : j ∉ finished := by
    intro hj
    obtain ⟨i, item, hitem, hij, hstatus, hout⟩ | hall := hf.2
    · obtain hdone | hown := hq.finished w _ [] finished hb rfl j hj i item hitem hij
      · rw [hstatus] at hdone
        cases hdone
      · exact hout w _ hb hown
    · obtain ⟨i, hi, item, hitem, hij⟩ := hq.known w _ [] finished hb rfl j hj
      exact (hall i item hitem hij).2 w _ hb hi
  refine ⟨by show (complete q.jobs finished).get? j = _; rw [get?_complete, if_neg hj]; exact hf.1, ?_⟩
  obtain ⟨i, item, hitem, hij, hstatus, hout⟩ | hall := hf.2
  · refine .inl ⟨i, item, by rw [get?_setStatus, if_neg (hout w _ hb)]; exact hitem, hij, hstatus, ?_⟩
    exact fun w' b hb' => hout w' b (batch_left hb').2
  · refine .inr fun i item hitem hij => ?_
    rw [get?_setStatus] at hitem
    split at hitem
    · obtain ⟨old, hold, rfl⟩ := Option.map_eq_some_iff.mp hitem
      exact ⟨by simp, fun w' b hb' => (hall i old hold hij).2 w' b (batch_left hb').2⟩
    · exact ⟨(hall i item hitem hij).1, fun w' b hb' => (hall i item hitem hij).2 w' b (batch_left hb').2⟩

theorem forgotten_step {action : Action} (hq : Inv e q) (hf : q.Forgotten j) (h : e.step q action = some q') :
    q'.Forgotten j := by
  cases action with
  | enqueue job rows =>
    obtain ⟨hfresh, h⟩ := Option.ite_none_right_eq_some.mp h
    obtain rfl := Option.some.inj h
    exact forgotten_enqueue hf hfresh
  | claim w ids =>
    obtain ⟨hclaim, h⟩ := Option.ite_none_right_eq_some.mp h
    obtain rfl := Option.some.inj h
    exact forgotten_claim hf hclaim
  | store w | mark w | check w =>
    simp only [Embedder.step] at h
    split at h
    · rename_i hb
      obtain rfl := Option.some.inj h
      exact hf.of_stage hb
    · cases h
  | commit w =>
    simp only [Embedder.step] at h
    split at h
    · rename_i hb
      obtain rfl := Option.some.inj h
      exact forgotten_commit hq hf hb
    · cases h
  | fail w =>
    obtain rfl := Option.some.inj h
    exact hf.of_same rfl (fun _ _ _ => Iff.rfl) fun _ _ _ _ _ hout w' b hb => hout w' b (batch_left hb).2

end Forgetting

/-- **An item whose worker failed, or two workers that each found the items of the other, leave the job uncompleted
    for good.** -/
theorem never_completed (h : e.Reachable q) {j : ℕ} (hf : q.Forgotten j) {actions : List Action}
    (hrun : actions.foldlM e.step q = some q') : q'.jobs.get? j = some .embedding :=
  (foldlM_induct (P := fun q => Inv e q ∧ q.Forgotten j)
    (fun _ _ _ hq hstep => ⟨inv_step hq.1 hstep, forgotten_step hq.1 hq.2 hstep⟩) actions
    ⟨inv_reachable h, hf⟩ hrun).2.1

/-- Two workers with an item each, which both look before the other one commits. -/
def oneEach : List Action :=
  [.enqueue 1 twoChunks, .claim 0 [0], .claim 1 [1], .store 0, .store 1, .mark 0, .mark 1, .check 0, .check 1,
    .commit 0, .commit 1]

theorem oneEach_runs : (oneEach.foldlM (Embedder.step ⟨String.length, 1⟩) Queue.empty).isSome = true := by decide

/-- What they leave. -/
def overlapped : Queue ℕ := (oneEach.foldlM (Embedder.step ⟨String.length, 1⟩) Queue.empty).get oneEach_runs

/-- Nobody holds anything any more, and everything is done. -/
theorem overlapped_forgotten : overlapped.Forgotten 1 := by
  refine ⟨by decide, .inr fun i item hitem _ => ?_⟩
  have hdone : ∀ p ∈ overlapped.items.items, p.2.status = .done := by decide
  have hitem : item.status = .done := hdone (i, item) (OrderedDict.get?_eq_some.mp hitem)
  refine ⟨by rw [hitem]; decide, fun w b hb => ?_⟩
  cases hb

theorem never_completed_overlap : overlapped.jobs.get? 1 = some .embedding :=
  never_completed ⟨oneEach, (Option.some_get oneEach_runs).symm⟩ overlapped_forgotten
    (show [.fail 0].foldlM (Embedder.step ⟨String.length, 1⟩) overlapped = some overlapped from rfl)

end RagPipeline.Chunking
