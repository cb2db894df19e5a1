/-
  RagPipeline.Ingest.SourceQueue — `log_source_objects`, the queue between the fetcher and the parse
  workers.

  A row is leased by `claim_one`, parsed, and then finished by `record_success` or `record_failure`;
  `reclaim_expired_leases` takes a row back from a worker that is late.  Each of the four is one database
  transaction, hence one step here, and any interleaving of them is a run.  The completion of a claim
  looks its row up by id and nothing else, so the state carries, beside the columns, which claim holds
  the lease of a row (`holder`).

    * `valid_step`, `valid_run`   — a row is leased exactly when a claim holds it;
    * `leases_respected_iff`      — leases are respected in a run exactly when no claim completes that
                                    does not hold its row any more.
-/
import Mathlib.Data.List.MinMax
import Mathlib.Data.Prod.Lex
import RagPipeline.Stage2.Entry

namespace RagPipeline.Ingest

open RagPipeline.Stage2

/-! ## §1. Rows. -/

/-- `LogSourceObject.id`. -/
abbrev ObjectId := ℕ

/-- `Job.id`. -/
abbrev JobId := ℕ

/-- A return value of `claim_one`, by its number. -/
abbrev ClaimId := ℕ

/-- `SourceObjectStatus`. -/
inductive SourceObjectStatus where
  | pending | leased | ingested | abandoned
  deriving DecidableEq, Repr

/-- `LogSourceObject`: the queue state and the outcome. -/
structure LogSourceObject where
  status : SourceObjectStatus := .pending
  attempts : ℕ := 0
  maxAttempts : ℕ := 3
  availableAt : Instant
  createdAt : Instant
  leaseOwner : Option String := none
  leaseExpiresAt : Option Instant := none
  lastError : Option String := none
  jobId : Option JobId := none
  entriesInserted : ℕ := 0
  ingestedAt : Option Instant := none
  deriving DecidableEq, Repr

/-- The settings the queue reads. -/
structure QueueSettings where
  logParseLeaseSeconds : ℕ := 120
  logParseMaxAttempts : ℕ := 3

/-- An exception: its `str` and its `repr`, and what `is_transient` says of it. -/
structure ParseError where
  text : String
  shown : String
  transient : Bool

/-- `obj.max_attempts or settings.log_parse_max_attempts`. -/
def LogSourceObject.cap (c : QueueSettings) (o : LogSourceObject) : ℕ :=
  if o.maxAttempts = 0 then c.logParseMaxAttempts else o.maxAttempts

/-- A row that `claim_one` takes. -/
def LogSourceObject.lease (o : LogSourceObject) (owner : String) (until_ : Instant) : LogSourceObject :=
  { o with status := .leased, leaseOwner := some owner, leaseExpiresAt := some until_ }

/-- A row in `reclaim_expired_leases`; `retryAt` is the database's clock plus the backoff. -/
def LogSourceObject.reclaim (c : QueueSettings) (o : LogSourceObject) (retryAt : Instant) :
    LogSourceObject :=
  let o := { o with
    attempts := o.attempts + 1
    leaseOwner := none
    leaseExpiresAt := none
    lastError := some "lease expired (worker died or stalled)" }
  if o.cap c ≤ o.attempts then { o with status := .abandoned }
  else { o with status := .pending, availableAt := retryAt }

/-- `(str(exc) or repr(exc))[:2000]`. -/
def ParseError.message (e : ParseError) : String :=
  ((if e.text = "" then e.shown else e.text).take 2000).toString

/-- A row in `record_failure`. -/
def LogSourceObject.failed (c : QueueSettings) (o : LogSourceObject) (e : ParseError)
    (retryAt : Instant) : LogSourceObject :=
  let o := { o with
    attempts := o.attempts + 1
    lastError := some e.message
    leaseOwner := none
    leaseExpiresAt := none }
  if !e.transient then { o with status := .abandoned }
  else if o.cap c ≤ o.attempts then { o with status := .abandoned }
  else { o with status := .pending, availableAt := retryAt }

/-- A row in `record_success`. -/
def LogSourceObject.succeeded (o : LogSourceObject) (job : JobId) (inserted : ℕ) (now : Instant) :
    LogSourceObject :=
  { o with
    status := .ingested
    ingestedAt := some now
    jobId := some job
    entriesInserted := inserted
    lastError := none
    leaseOwner := none
    leaseExpiresAt := none }

/-! ## §2. The queue. -/

/-- The table, the claims that are being processed, and which claim holds the lease of a row. -/
structure IngestQueue where
  ids : List ObjectId := []
  objects : ObjectId → Option LogSourceObject := fun _ => none
  tasks : ClaimId → Option ObjectId := fun _ => none
  holder : ObjectId → Option ClaimId := fun _ => none
  nextClaim : ClaimId := 0
  nextJob : JobId := 0

/-- What can happen: the fetcher queues a row, a worker claims, finishes or dies, a tick reclaims.
    `locked` are the rows that another transaction has locked, which both scans skip. -/
inductive Event where
  | enqueue (id : ObjectId) (maxAttempts : ℕ) (availableAt createdAt : Instant)
  | claimOne (worker : String) (now dbNow : Instant) (locked : List ObjectId)
  | reclaimExpiredLeases (now : Instant) (locked : List ObjectId) (retryAt : ObjectId → Instant)
  | recordSuccess (claim : ClaimId) (inserted : ℕ) (now : Instant)
  | recordFailure (claim : ClaimId) (error : ParseError) (retryAt : Instant)
  | crash (claim : ClaimId)

/-- The claim that an event completes. -/
def Event.completes : Event → Option ClaimId
  | .recordSuccess claim _ _ => some claim
  | .recordFailure claim _ _ => some claim
  | _ => none

/-- A row that is due. -/
def LogSourceObject.isDue (o : LogSourceObject) (dbNow : Instant) : Bool :=
  decide (o.status = .pending ∧ o.availableAt ≤ dbNow)

/-- The order of `claim_one`. -/
def LogSourceObject.queueKey (o : LogSourceObject) : Instant ×ₗ Instant := toLex (o.availableAt, o.createdAt)

/-- The computable order on these keys, whatever else a later import knows of `Int`. -/
instance queueOrder : LinearOrder (Instant ×ₗ Instant) :=
  @Prod.Lex.instLinearOrder Int Int Int.instLinearOrder Int.instLinearOrder

instance : Preorder (Instant ×ₗ Instant) := queueOrder.toPreorder

/-- The rows that are due and not locked, with their place in the order. -/
def IngestQueue.due (s : IngestQueue) (dbNow : Instant) (locked : List ObjectId) :
    List (ObjectId × LogSourceObject) :=
  s.ids.filterMap fun id => (s.objects id).bind fun o =>
    if id ∉ locked ∧ o.isDue dbNow = true then some (id, o) else none

/-- The candidate of `claim_one`: the oldest of them. -/
def IngestQueue.candidate (s : IngestQueue) (dbNow : Instant) (locked : List ObjectId) :
    Option (ObjectId × LogSourceObject) :=
  (s.due dbNow locked).argmin fun p => p.2.queueKey

/-- A leased row. -/
def LogSourceObject.isLeased (o : LogSourceObject) : Bool := decide (o.status = .leased)

/-- A row whose lease is over. -/
def LogSourceObject.isExpired (o : LogSourceObject) (now : Instant) : Bool :=
  o.isLeased && o.leaseExpiresAt.any fun t => decide (t < now)

/-- The end of a claim: its row is found by id, whoever holds it now. -/
def IngestQueue.complete (s : IngestQueue) (claim : ClaimId)
    (outcome : LogSourceObject → LogSourceObject) : Option IngestQueue :=
  (s.tasks claim).bind fun id =>
    (s.objects id).map fun o => { s with
      objects := Function.update s.objects id (some (outcome o))
      tasks := Function.update s.tasks claim none
      holder := Function.update s.holder id none }

/-- **One transaction**; `none` where it cannot happen. -/
def step (c : QueueSettings) (s : IngestQueue) : Event → Option IngestQueue
  | .enqueue id maxAttempts availableAt createdAt =>
      if s.objects id = none ∧ id ∉ s.ids then
        some { s with
          ids := s.ids ++ [id]
          objects := Function.update s.objects id
            (some { maxAttempts := maxAttempts, availableAt := availableAt, createdAt := createdAt }) }
      else none
  | .claimOne worker now dbNow locked =>
      match s.candidate dbNow locked with
      | none => some s
      | some (id, o) =>
        some { s with
          objects := Function.update s.objects id
            (some (o.lease worker (now + c.logParseLeaseSeconds * second)))
          tasks := Function.update s.tasks s.nextClaim (some id)
          holder := Function.update s.holder id (some s.nextClaim)
          nextClaim := s.nextClaim + 1 }
  | .reclaimExpiredLeases now locked retryAt =>
      some { s with
        objects := fun id => (s.objects id).map fun o =>
          if id ∉ locked ∧ o.isExpired now = true then o.reclaim c (retryAt id) else o
        holder := fun id =>
          if id ∉ locked ∧ ((s.objects id).any fun o => o.isExpired now) = true then none
          else s.holder id }
  | .recordSuccess claim inserted now =>
      (s.complete claim fun o => o.succeeded s.nextJob inserted now).map fun s' =>
        { s' with nextJob := s.nextJob + 1 }
  | .recordFailure claim error retryAt => s.complete claim fun o => o.failed c error retryAt
  | .crash claim =>
      if (s.tasks claim).isSome then some { s with tasks := Function.update s.tasks claim none } else none

/-- A run. -/
def run (c : QueueSettings) (s : IngestQueue) (events : List Event) : Option IngestQueue :=
  events.foldlM (step c) s

/-! ## §3. A row is leased exactly when a claim holds it. -/

/-- The invariant of the queue. -/
structure Valid (s : IngestQueue) : Prop where
  /-- only a leased row is held, and each leased row is -/
  held : ∀ id, (s.objects id).any LogSourceObject.isLeased = (s.holder id).isSome
  /-- a claim is made once -/
  numbered : ∀ id claim, s.holder id = some claim → claim < s.nextClaim
  /-- a job is made once -/
  jobs : ∀ id o job, s.objects id = some o → o.jobId = some job → job < s.nextJob

theorem valid_start : Valid {} := by
  constructor
  · intro id
    rfl
  · intro id claim h
    exact absurd h (by simp)
  · intro id o job h
    exact absurd h (by simp)

section Rows

variable (c : QueueSettings) (o : LogSourceObject)

/-- A reclaimed row waits again or is given up. -/
theorem reclaim_spec (retryAt : Instant) :
    (o.reclaim c retryAt).isLeased = false ∧ (o.reclaim c retryAt).jobId = o.jobId := by
  unfold LogSourceObject.reclaim
  dsimp only
  split
  · exact ⟨rfl, rfl⟩
  · exact ⟨rfl, rfl⟩

/-- A failure counts, and the row waits again or is given up. -/
theorem failed_spec (e : ParseError) (retryAt : Instant) :
    (o.failed c e retryAt).attempts = o.attempts + 1 ∧ (o.failed c e retryAt).isLeased = false ∧
      (o.failed c e retryAt).jobId = o.jobId := by
  unfold LogSourceObject.failed
  dsimp only
  split
  · exact ⟨rfl, rfl, rfl⟩
  · split
    · exact ⟨rfl, rfl, rfl⟩
    · exact ⟨rfl, rfl, rfl⟩

end Rows

/-- What `claim_one` takes is a pending row. -/
theorem candidate_spec {s : IngestQueue} {dbNow : Instant} {locked : List ObjectId} {id : ObjectId}
    {o : LogSourceObject} (h : s.candidate dbNow locked = some (id, o)) :
    s.objects id = some o ∧ o.status = .pending := by
  have hmem := List.argmin_mem h
  obtain ⟨id', -, hid'⟩ := List.mem_filterMap.mp hmem
  obtain ⟨o', ho', hif⟩ := Option.bind_eq_some_iff.mp hid'
  split at hif
  · next hdue =>
    obtain ⟨rfl, rfl⟩ := Prod.mk.inj (Option.some.inj hif)
    exact ⟨ho', (of_decide_eq_true hdue.2).1⟩
  · exact absurd hif (by simp)

/-- What a completion does. -/
theorem complete_spec {s s' : IngestQueue} {claim : ClaimId} {outcome : LogSourceObject → LogSourceObject}
    (h : s.complete claim outcome = some s') :
    ∃ id o, s.tasks claim = some id ∧ s.objects id = some o ∧
      s' = { s with
        objects := Function.update s.objects id (some (outcome o))
        tasks := Function.update s.tasks claim none
        holder := Function.update s.holder id none } := by
  obtain ⟨id, hid, hrest⟩ := Option.bind_eq_some_iff.mp h
  obtain ⟨o, ho, rfl⟩ := Option.map_eq_some_iff.mp hrest
  exact ⟨id, o, hid, ho, rfl⟩

/-- Replacing one row by one that is leased exactly when its new holder is there. -/
theorem Valid.update {s : IngestQueue} (h : Valid s) {id : ObjectId} {o : LogSourceObject}
    {claim : Option ClaimId} {tasks : ClaimId → Option ObjectId} {nextClaim nextJob : ℕ}
    {ids : List ObjectId} (hheld : o.isLeased = claim.isSome)
    (hclaim : ∀ k, claim = some k → k < nextClaim) (hnext : s.nextClaim ≤ nextClaim)
    (hjob : ∀ job, o.jobId = some job → job < nextJob) (hjobs : s.nextJob ≤ nextJob) :
    Valid ⟨ids, Function.update s.objects id (some o), tasks, Function.update s.holder id claim,
      nextClaim, nextJob⟩ := by
  constructor
  · intro id'
    by_cases hid : id' = id
    · subst hid
      simpa only [Function.update_self, Option.any_some] using hheld
    · simpa only [Function.update_of_ne hid] using h.held id'
  · intro id' k hk
    by_cases hid : id' = id
    · subst hid
      exact hclaim k (by simpa only [Function.update_self] using hk)
    · simp only [Function.update_of_ne hid] at hk
      exact (h.numbered id' k hk).trans_le hnext
  · intro id' o' job ho' hj
    by_cases hid : id' = id
    · subst hid
      simp only [Function.update_self, Option.some.injEq] at ho'
      subst ho'
      exact hjob job hj
    · simp only [Function.update_of_ne hid] at ho'
      exact (h.jobs id' o' job ho' hj).trans_le hjobs

/-- A new row is held by nobody. -/
theorem Valid.update_new {s : IngestQueue} (h : Valid s) {id : ObjectId} (hnew : s.objects id = none) :
    Function.update s.holder id none = s.holder := by
  have hnone : s.holder id = none := by
    have hheld := h.held id
    rw [hnew, Option.any_none] at hheld
    exact Option.isSome_eq_false_iff.mp hheld.symm |> Option.isNone_iff_eq_none.mp
  rw [← hnone, Function.update_eq_self]

/-- **Every transaction keeps the invariant.** -/
theorem valid_step {c : QueueSettings} {s s' : IngestQueue} {e : Event} (h : Valid s)
    (hstep : step c s e = some s') : Valid s' := by
  cases e with
  | enqueue id maxAttempts availableAt createdAt =>
    simp only [step] at hstep
    split at hstep
    · next hnew =>
      obtain rfl := Option.some.inj hstep
      -- a row that was not there is an update of nothing
      rw [← h.update_new hnew.1]
      apply h.update
      · rfl
      · intro k hk
        exact absurd hk (by simp)
      · exact le_rfl
      · intro job hj
        exact absurd hj (by simp)
      · exact le_rfl
    · exact absurd hstep (by simp)
  | claimOne worker now dbNow locked =>
    simp only [step] at hstep
    cases hcand : s.candidate dbNow locked with
    | none =>
      rw [hcand] at hstep
      obtain rfl := Option.some.inj hstep
      exact h
    | some p =>
      obtain ⟨id, o⟩ := p
      rw [hcand] at hstep
      obtain rfl := Option.some.inj hstep
      -- the claim takes the next number, so it is below the counter
      obtain ⟨ho, -⟩ := candidate_spec hcand
      apply h.update
      · rfl
      · intro k hk
        obtain rfl := Option.some.inj hk
        exact Nat.lt_succ_self _
      · exact Nat.le_succ _
      · intro job hj
        exact h.jobs id o job ho hj
      · exact le_rfl
  | reclaimExpiredLeases now locked retryAt =>
    obtain rfl := Option.some.inj hstep
    constructor
    · intro id
      -- a row that is reclaimed holds no lease; any other is as it was
      have hheld := h.held id
      cases ho : s.objects id with
      | none => simpa [ho] using hheld
      | some o =>
        rw [ho, Option.any_some] at hheld
        by_cases hexp : id ∉ locked ∧ o.isExpired now = true
        · simp [ho, hexp, (reclaim_spec c o _).1]
        · simpa only [ho, Option.map_some, Option.any_some, if_neg hexp] using hheld
    · intro id k hk
      dsimp only at hk
      split at hk
      · exact absurd hk (by simp)
      · exact h.numbered id k hk
    · intro id o' job ho' hj
      obtain ⟨o, ho, rfl⟩ := Option.map_eq_some_iff.mp ho'
      split at hj
      · exact h.jobs id o job ho ((reclaim_spec c o _).2.symm.trans hj)
      · exact h.jobs id o job ho hj
  | recordSuccess claim inserted now =>
    obtain ⟨s₁, hs₁, rfl⟩ := Option.map_eq_some_iff.mp hstep
    obtain ⟨id, o, -, -, rfl⟩ := complete_spec hs₁
    apply h.update
    · rfl
    · intro k hk
      exact absurd hk (by simp)
    · exact le_rfl
    · intro job hj
      obtain rfl := Option.some.inj hj
      exact Nat.lt_succ_self _
    · exact Nat.le_succ _
  | recordFailure claim error retryAt =>
    obtain ⟨id, o, -, ho, rfl⟩ := complete_spec hstep
    obtain ⟨-, hstatus, hjob⟩ := failed_spec c o error retryAt
    apply h.update
    · exact hstatus
    · intro k hk
      exact absurd hk (by simp)
    · exact le_rfl
    · intro job hj
      exact h.jobs id o job ho (hjob ▸ hj)
    · exact le_rfl
  | crash claim =>
    simp only [step] at hstep
    split at hstep
    · obtain rfl := Option.some.inj hstep
      exact ⟨h.held, h.numbered, h.jobs⟩
    · exact absurd hstep (by simp)

theorem valid_run {c : QueueSettings} {s s' : IngestQueue} {events : List Event} (h : Valid s)
    (hrun : run c s events = some s') : Valid s' := by
  induction events generalizing s with
  | nil =>
    obtain rfl := Option.some.inj hrun
    exact h
  | cons e events ih =>
    obtain ⟨s₁, hs₁, hrest⟩ := Option.bind_eq_some_iff.mp hrun
    exact ih (valid_step h hs₁) hrest

/-! ## §4. Leases are respected. -/

/-- The event finishes the claim that holds this row. -/
def Event.CompletesHeld (s : IngestQueue) (id : ObjectId) (e : Event) : Prop :=
  ∃ claim, e.completes = some claim ∧ s.tasks claim = some id ∧ s.holder id = some claim

/-- The event reclaims this row, whose lease is over. -/
def Event.Reclaims (o : LogSourceObject) : Event → Prop
  | .reclaimExpiredLeases now _ _ => o.isExpired now = true
  | _ => False

/-- The event leases this row to a new claim. -/
def Event.Claims (s s' : IngestQueue) (id : ObjectId) (o o' : LogSourceObject) : Event → Prop
  | .claimOne .. => o.status = .pending ∧ o'.status = .leased ∧ o'.attempts = o.attempts ∧
      s'.holder id = some s.nextClaim
  | _ => False

/-- What a step of the queue owes to the leases. -/
structure StepRespects (s : IngestQueue) (e : Event) (s' : IngestQueue) : Prop where
  /-- a row that is ingested stays so -/
  ingestedStays : ∀ id o, s.objects id = some o → o.status = .ingested →
    ∃ o', s'.objects id = some o' ∧ o'.status = .ingested
  /-- a status or an attempt count changes for the holder, at a claim, or when the lease is over -/
  onlyHolder : ∀ id o o', s.objects id = some o → s'.objects id = some o' →
    o'.status ≠ o.status ∨ o'.attempts ≠ o.attempts →
      e.CompletesHeld s id ∨ e.Reclaims o ∨ e.Claims s s' id o o'
  /-- what comes from a claim that does not hold its row changes nothing -/
  staleNothing : ∀ claim id, e.completes = some claim → s.tasks claim = some id →
    s.holder id ≠ some claim → s'.objects = s.objects

/-- A claim that is completed holds its row. -/
def ByHolder (s : IngestQueue) (e : Event) : Prop :=
  ∀ claim id, e.completes = some claim → s.tasks claim = some id → s.holder id = some claim

/-- A property of each step of a run from the empty queue. -/
def Throughout (c : QueueSettings) (events : List Event)
    (P : IngestQueue → Event → IngestQueue → Prop) : Prop :=
  ∀ before e after s s', events = before ++ e :: after → run c {} before = some s →
    step c s e = some s' → P s e s'

/-- The rows of a completion: one is replaced. -/
theorem objects_of_completes {c : QueueSettings} {s s' : IngestQueue} {e : Event} {claim : ClaimId}
    (he : e.completes = some claim) (hstep : step c s e = some s') :
    ∃ id o o', s.tasks claim = some id ∧ s.objects id = some o ∧
      s'.objects = Function.update s.objects id (some o') ∧
        (o'.jobId = some s.nextJob ∨ o'.attempts = o.attempts + 1) := by
  cases e with
  | recordSuccess claim' inserted now =>
    obtain rfl := Option.some.inj he
    obtain ⟨s₁, hs₁, rfl⟩ := Option.map_eq_some_iff.mp hstep
    obtain ⟨id, o, hid, ho, rfl⟩ := complete_spec hs₁
    exact ⟨id, o, _, hid, ho, rfl, Or.inl rfl⟩
  | recordFailure claim' error retryAt =>
    obtain rfl := Option.some.inj he
    obtain ⟨id, o, hid, ho, rfl⟩ := complete_spec hstep
    exact ⟨id, o, _, hid, ho, rfl, Or.inr (failed_spec c o error retryAt).1⟩
  | _ => exact absurd he (by simp [Event.completes])

/-- A completion always changes its row. -/
theorem objects_ne_of_completes {c : QueueSettings} {s s' : IngestQueue} {e : Event} {claim : ClaimId}
    (h : Valid s) (he : e.completes = some claim) (hstep : step c s e = some s') :
    s'.objects ≠ s.objects := by
  obtain ⟨id, o, o', -, ho, hobjects, hdiff⟩ := objects_of_completes he hstep
  intro heq
  have hsame : some o' = some o := by
    rw [← ho, ← heq, hobjects, Function.update_self]
  obtain rfl := Option.some.inj hsame
  rcases hdiff with hjob | hattempts
  · exact absurd (h.jobs id o' _ ho hjob) (Nat.lt_irrefl _)
  · omega

/-- A held row is leased. -/
theorem Valid.leased {s : IngestQueue} (h : Valid s) {id : ObjectId} {o : LogSourceObject}
    {claim : ClaimId} (ho : s.objects id = some o) (hheld : s.holder id = some claim) :
    o.status = .leased := by
  have hiff := h.held id
  rw [ho, hheld, Option.any_some] at hiff
  exact of_decide_eq_true hiff

/-- A row that an event leaves alone. -/
theorem respects_of_eq {s s' : IngestQueue} {e : Event} (hobjects : s'.objects = s.objects) :
    StepRespects s e s' := by
  constructor
  · intro id o ho hstatus
    exact ⟨o, hobjects ▸ ho, hstatus⟩
  · intro id o o' ho ho' hdiff
    rw [hobjects, ho] at ho'
    obtain rfl := Option.some.inj ho'
    simp at hdiff
  · intro _ _ _ _ _
    exact hobjects

/-- A step that writes one row, which is not ingested, on behalf of who may. -/
theorem respects_of_update {s s' : IngestQueue} {e : Event} {id : ObjectId} {row : Option LogSourceObject}
    (hobjects : s'.objects = Function.update s.objects id row)
    (hopen : ∀ o, s.objects id = some o → o.status ≠ .ingested)
    (hwriter : ∀ o o', s.objects id = some o → row = some o' →
      e.CompletesHeld s id ∨ e.Reclaims o ∨ e.Claims s s' id o o')
    (hby : ByHolder s e) : StepRespects s e s' := by
  constructor
  · intro id₁ o₁ ho₁ hstatus
    have hne : id₁ ≠ id := by
      rintro rfl
      exact hopen o₁ ho₁ hstatus
    exact ⟨o₁, by rw [hobjects, Function.update_of_ne hne, ho₁], hstatus⟩
  · intro id₁ o₁ o₁' ho₁ ho₁' hdiff
    rw [hobjects] at ho₁'
    by_cases hid : id₁ = id
    · subst hid
      rw [Function.update_self] at ho₁'
      exact hwriter o₁ o₁' ho₁ ho₁'
    · -- any other row is as it was
      rw [Function.update_of_ne hid, ho₁] at ho₁'
      obtain rfl := Option.some.inj ho₁'
      simp at hdiff
  · intro claim id' hc htask hnot
    exact absurd (hby claim id' hc htask) hnot

/-- **A step that is not a stale completion respects the leases.** -/
theorem step_respects {c : QueueSettings} {s s' : IngestQueue} {e : Event} (h : Valid s)
    (hstep : step c s e = some s') (hby : ByHolder s e) : StepRespects s e s' := by
  cases hcompletes : e.completes with
  | some claim =>
    obtain ⟨id, o, o', htask, ho, hobjects, -⟩ := objects_of_completes hcompletes hstep
    have hheld := hby claim id hcompletes htask
    -- the completing claim holds its row, so the row it writes is leased
    have hleased := h.leased ho hheld
    refine respects_of_update hobjects ?_ (fun _ _ _ _ => Or.inl ⟨claim, hcompletes, htask, hheld⟩) hby
    intro o₁ ho₁ hstatus
    obtain rfl := Option.some.inj (ho₁.symm.trans ho)
    rw [hleased] at hstatus
    exact SourceObjectStatus.noConfusion hstatus
  | none =>
    cases e with
    | recordSuccess => exact absurd hcompletes (by simp [Event.completes])
    | recordFailure => exact absurd hcompletes (by simp [Event.completes])
    | crash claim =>
      simp only [step] at hstep
      split at hstep
      · obtain rfl := Option.some.inj hstep
        exact respects_of_eq rfl
      · exact absurd hstep (by simp)
    | enqueue id maxAttempts availableAt createdAt =>
      simp only [step] at hstep
      split at hstep
      · next hnew =>
        obtain rfl := Option.some.inj hstep
        -- there was no such row
        have hfree : ∀ o, s.objects id ≠ some o := by
          intro o ho
          rw [hnew.1] at ho
          exact absurd ho (by simp)
        exact respects_of_update rfl (fun o ho => absurd ho (hfree o)) (fun o _ ho => absurd ho (hfree o)) hby
      · exact absurd hstep (by simp)
    | claimOne worker now dbNow locked =>
      simp only [step] at hstep
      cases hcand : s.candidate dbNow locked with
      | none =>
        rw [hcand] at hstep
        obtain rfl := Option.some.inj hstep
        exact respects_of_eq rfl
      | some p =>
        obtain ⟨id, o⟩ := p
        rw [hcand] at hstep
        obtain rfl := Option.some.inj hstep
        -- the claimed row was pending
        obtain ⟨ho, hpending⟩ := candidate_spec hcand
        refine respects_of_update rfl ?_ ?_ hby
        · intro o₁ ho₁ hstatus
          obtain rfl := Option.some.inj (ho₁.symm.trans ho)
          rw [hpending] at hstatus
          exact SourceObjectStatus.noConfusion hstatus
        · intro o₁ o₁' ho₁ hleased
          obtain rfl := Option.some.inj (ho₁.symm.trans ho)
          obtain rfl := Option.some.inj hleased
          exact Or.inr (Or.inr ⟨hpending, rfl, rfl, Function.update_self ..⟩)
    | reclaimExpiredLeases now locked retryAt =>
      obtain rfl := Option.some.inj hstep
      constructor
      · intro id o ho hstatus
        -- only a leased row expires
        have hnot : ¬(id ∉ locked ∧ o.isExpired now = true) := by
          rintro ⟨-, hexp⟩
          have hleased := of_decide_eq_true (Bool.and_eq_true_iff.mp hexp).1
          rw [hleased] at hstatus
          exact SourceObjectStatus.noConfusion hstatus
        exact ⟨o, by simp only [ho, Option.map_some, if_neg hnot], hstatus⟩
      · intro id o o' ho ho' hdiff
        simp only [ho, Option.map_some, Option.some.injEq] at ho'
        by_cases hexp : id ∉ locked ∧ o.isExpired now = true
        · exact Or.inr (Or.inl hexp.2)
        · rw [if_neg hexp] at ho'
          subst ho'
          simp at hdiff
      · intro claim' _ hc
        exact absurd hc (by simp [Event.completes])

/-- **Leases are respected in a run exactly when every claim that completes holds its row.** -/
theorem leases_respected_iff (c : QueueSettings) (events : List Event) :
    Throughout c events StepRespects ↔ Throughout c events fun s e _ => ByHolder s e := by
  constructor
  · intro h before e after s s' heq hrun hstep claim id hc htask
    by_contra hnot
    have hsame := (h before e after s s' heq hrun hstep).staleNothing claim id hc htask hnot
    exact objects_ne_of_completes (valid_run valid_start hrun) hc hstep hsame
  · intro h before e after s s' heq hrun hstep
    exact step_respects (valid_run valid_start hrun) hstep (h before e after s s' heq hrun hstep)

/-- A worker outlives its lease, another one parses the row after the backoff, and the first one fails. -/
def lateFailure : List Event :=
  [ .enqueue 7 3 0 0
  , .claimOne "a:1" 0 0 []
  , .reclaimExpiredLeases (121 * second) [] fun _ => 151 * second
  , .claimOne "b:1" (152 * second) (152 * second) []
  , .recordSuccess 1 5 (153 * second)
  , .recordFailure 0 ⟨"no such file", "FileNotFoundError()", false⟩ (154 * second) ]

/-- The row was ingested, and is abandoned. -/
theorem lateFailure_not_respected : ¬ ∀ c events, Throughout c events StepRespects := by
  intro h
  obtain ⟨o, ho, hstatus⟩ := (h {} lateFailure (lateFailure.take 5)
    (.recordFailure 0 ⟨"no such file", "FileNotFoundError()", false⟩ (154 * second)) []
    _ _ rfl rfl rfl).ingestedStays 7 _ rfl rfl
  have habandoned : o.status = .abandoned := by
    obtain rfl := Option.some.inj ho
    rfl
  rw [hstatus] at habandoned
  exact SourceObjectStatus.noConfusion habandoned

end RagPipeline.Ingest
