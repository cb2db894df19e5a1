/-
  RagPipeline.Stage2.Regroup — the operations that write transactions, on one tenant's tables.

    * `regroupAll`         — delete everything, group every line;
    * `regroupIncremental` — free what is not sealed, group the unassigned lines of the live tail;
    * `regroupWindow`      — rebuild the transactions that start in a padded window, in place;
    * `applyPlan`          — the head lane: continuations are updated, creations inserted;
    * `reclassify`         — reparse stored lines, and drop the transactions that own a line of their range.

  Each returns the tables it commits and the ranges it publishes for analytics with them; `none` is an
  exception, after which nothing is committed.  The saved streams are left as they are here, but where
  `reclassify` drops them; the saves of the shadow comparison and of the head lane are `regroupSaved` and
  `commitPlan`.  The lines are grouped by the total `group`: where `groupCall` raises, on a user without a
  hash, the operation raises with it and commits nothing.
-/
import RagPipeline.Stage2.Conservation
import RagPipeline.Stage2.Persist

namespace RagPipeline.Stage2

open RagPipeline.Lib

variable {Fp : Type} [DecidableEq Fp]

/-! ## §1. What an operation commits. -/

/-- The tables, and the ranges given to `pending_windows.publish` in the same transaction. -/
structure Committed (Fp : Type) where
  store : Store Fp
  published : List (Instant × Instant) := []

/-- The least and the greatest of some instants. -/
def spanOf (ts : List Instant) : Option (Instant × Instant) :=
  ts.min?.bind fun lo => ts.max?.map fun hi => (lo, hi)

/-- `publish_for_transactions`: nothing for nothing, the current instant when no start is known. -/
def publishForTransactions (now : Instant) (startedAts : List (Option Instant)) :
    List (Instant × Instant) :=
  if startedAts = [] then []
  else
    match spanOf (startedAts.filterMap id) with
    | none => [(now, now)]
    | some span => [span]

/-- `continuity.EMPTY`. -/
def Continuity.none : Continuity := ⟨fun _ => Option.none, []⟩

/-- The groups of some lines, when no id is inherited. -/
def freshGroups (w : World Fp) (c : Settings) (rows : List LogEntry) : List Group :=
  assignIds w Continuity.none (group c.logOpenGap {} rows)

/-- The arguments of `_persist` for a fresh grouping: nothing is stored. -/
def freshArgs (w : World Fp) (c : Settings) (st : Store Fp) (rows : List LogEntry) :
    PersistArgs Fp where
  existing := st.clashes c (freshGroups w c rows)
  cutoffs := st.cutoffs c

/-- `_persist` of a fresh grouping. -/
def persistFresh (w : World Fp) (c : Settings) (st : Store Fp) (rows : List LogEntry) : Store Fp :=
  (persist w (freshArgs w c st rows) st (freshGroups w c rows)).1

/-! ## §2. `regroup_all`. -/

/-- **`regroup_all`**: the spans of the transactions and of the lines are published first. -/
def regroupAll (w : World Fp) (c : Settings) (now : Instant) (st : Store Fp) : Committed Fp where
  store := persistFresh w c { st with assigned := fun _ => none, txns := [] } (readOrder st.entries)
  published :=
    (if st.txns = [] then []
      else publishForTransactions now
        [(spanOf (st.txns.filterMap TxnRow.startedAt)).map Prod.fst,
          (spanOf (st.txns.filterMap TxnRow.startedAt)).map Prod.snd]) ++
    (spanOf (stamps st.entries)).toList

/-! ## §3. `regroup_incremental`. -/

/-- The rows that are not sealed. -/
def Store.unsealed (st : Store Fp) : List (TxnRow Fp) := st.txns.filter fun r => !r.isSealed

/-- The tables after the unsealed rows were freed. -/
def Store.freeUnsealed (st : Store Fp) : Store Fp :=
  { st.deleteAssignments (st.unsealed.map TxnRow.id) with txns := st.txns.filter TxnRow.isSealed }

/-- `_live_tail`: unassigned lines, down to the abandon window and a pad behind the newest line. -/
def Store.liveTail (c : Settings) (st : Store Fp) : List LogEntry :=
  readOrder (st.entries.filter fun e => st.isUnassigned e &&
    match st.maxEntryTs, e.timestamp with
    | some newest, some t => decide (newest - c.logAbandonWindow - c.pad ≤ t)
    | _, _ => true)

/-- **`regroup_incremental`**: what is published is the span of the freed rows. -/
def regroupIncremental (w : World Fp) (c : Settings) (now : Instant) (st : Store Fp) :
    Committed Fp where
  store := persistFresh w c st.freeUnsealed (st.freeUnsealed.liveTail c)
  published := publishForTransactions now (st.unsealed.map TxnRow.startedAt)

/-! ## §4. `regroup_window`. -/

/-- `_cross_pad_floor`; `none` is `CrossPadSpanExceeded`. -/
def crossPadFloor (c : Settings) (st : Store Fp) (loP hiP : Instant) : Option Instant :=
  let gap := c.logOpenGap
  let band := c.pad + gap
  let candidates := st.txns.filter fun r =>
    within (loP - 3 * band) (loP - 1) r.startedAt &&
      match r.values.endedAt with
      | some ended => decide (loP - gap ≤ ended)
      | none => false
  let starts := candidates.filterMap TxnRow.startedAt
  let inBand := starts.filter fun t => decide (loP - band ≤ t)
  let joinable :=
    match (candidates.filterMap fun r => r.values.endedAt).max? with
    | none => false
    | some ended => st.entries.any fun e => within loP (min (ended + gap) hiP) e.timestamp &&
        st.isUnassigned e
  match c.crossPad with
  | .off => some loP
  | .shadow => some loP
  | .on =>
    if joinable then
      if starts.any fun t => decide (t < loP - band) then none
      else some (inBand.min?.getD loP)
    else some loP

/-- `load_owners_in_window`: the owners of the lines of a window, and of the lines without a time. -/
def Store.ownersInWindow (st : Store Fp) (lo hi : Instant) (id : UUID) : Option UUID :=
  if st.entries.any fun e => decide (e.id = id) && (e.timestamp.isNone || within lo hi e.timestamp)
  then st.assigned.owner id else none

/-- The ids of the transactions a window frees. -/
def Store.freedIds (st : Store Fp) (lo hi : Instant) : List UUID := (st.startingIn lo hi).map TxnRow.id

/-- Whether the stored rows stay in place while the window is rebuilt. -/
def Store.keepsRows (c : Settings) (st : Store Fp) (lo hi : Instant) : Bool :=
  c.fingerprintSkip && !(st.freedIds lo hi).isEmpty

/-- `stored`: the rows of the freed ids, when they stay. -/
def Store.storedRows (c : Settings) (st : Store Fp) (lo hi : Instant) : List (TxnRow Fp) :=
  if st.keepsRows c lo hi then st.txns.filter fun r => decide (r.id ∈ st.freedIds lo hi) else []

/-- The tables the lines are read from: without the skip the freed rows are gone. -/
def Store.cleared (c : Settings) (st : Store Fp) (lo hi : Instant) : Store Fp :=
  if st.keepsRows c lo hi then st
  else (st.deleteAssignments (st.freedIds lo hi)).deleteTransactions (st.freedIds lo hi)

/-- `_eligible`: no owner, or one that is being rebuilt; after the delete it is no owner. -/
def Store.eligible (c : Settings) (st : Store Fp) (lo hi hiP : Instant) (e : LogEntry) : Bool :=
  if st.keepsRows c lo hi then
    match st.ownersInWindow lo hiP e.id with
    | none => true
    | some t => decide (t ∈ st.freedIds lo hi)
  else (st.cleared c lo hi).isUnassigned e

/-- The lines of the rebuild. -/
def Store.windowRows (c : Settings) (st : Store Fp) (lo hi hiP : Instant) : List LogEntry :=
  readOrder (st.entries.filter fun e => within lo hiP e.timestamp && st.eligible c lo hi hiP e)

/-- The groups of the rebuild, each under its id. -/
def windowGroups (w : World Fp) (c : Settings) (st : Store Fp) (lo hi hiP : Instant) : List Group :=
  assignIds w ⟨st.ownersInWindow lo hiP, st.freedIds lo hi⟩
    (group c.logOpenGap {} (st.windowRows c lo hi hiP))

/-- The arguments `_persist` is called with. -/
def windowArgs (w : World Fp) (c : Settings) (st : Store Fp) (lo hi hiP : Instant) :
    PersistArgs Fp where
  stored := st.storedRows c lo hi
  existing := (st.cleared c lo hi).clashes c (windowGroups w c st lo hi hiP)
  cutoffs := st.cutoffs c

/-- The rebuild of `[lo, hi]` from a floor that is already padded. -/
def rebuild (w : World Fp) (c : Settings) (st : Store Fp) (lo hi hiP : Instant) : Store Fp :=
  if st.windowRows c lo hi hiP = [] then
    ((st.cleared c lo hi).deleteAssignments ((st.storedRows c lo hi).map TxnRow.id)).deleteTransactions
      ((st.storedRows c lo hi).map TxnRow.id)
  else
    (persist w (windowArgs w c st lo hi hiP) (st.cleared c lo hi) (windowGroups w c st lo hi hiP)).1

omit [DecidableEq Fp] in
theorem cleared_entries (c : Settings) (st : Store Fp) (lo hi : Instant) :
    (st.cleared c lo hi).entries = st.entries := by
  unfold Store.cleared
  split
  · rfl
  · rfl

/-- A rebuild reads the lines and leaves them. -/
theorem rebuild_entries {w : World Fp} {c : Settings} {st : Store Fp} {lo hi hiP : Instant} :
    (rebuild w c st lo hi hiP).entries = st.entries := by
  unfold rebuild
  split
  · exact cleared_entries c st lo hi
  · rw [(persist_rest _ _ _ _).1, cleared_entries]

/-- **`regroup_window`**: the padded window is published. -/
def regroupWindow (w : World Fp) (c : Settings) (st : Store Fp) (lo hi : Instant) :
    Option (Committed Fp) :=
  (crossPadFloor c st (lo - c.pad) (hi + c.pad)).map fun floor =>
    { store := rebuild w c st floor hi (hi + c.pad)
      published := [(floor, hi + c.pad)] }

/-! ## §5. The head lane. -/

/-- `Continuation`. -/
structure Continuation (Fp : Type) where
  txnId : UUID
  startedAt : Option Instant
  oldRowFp : Option Fp
  values : TxnValues
  isSealed : Bool
  rowFp : Fp
  membersFp : Fp
  entries : List LogEntry

/-- `Creation`. -/
structure Creation (Fp : Type) where
  txnId : UUID
  values : TxnValues
  isSealed : Bool
  rowFp : Fp
  membersFp : Fp
  entries : List LogEntry

/-- The row a continuation writes. -/
def Continuation.row (x : Continuation Fp) : TxnRow Fp :=
  ⟨x.txnId, x.values, x.isSealed, some x.rowFp, some x.membersFp⟩

/-- The row a creation writes. -/
def Creation.row (x : Creation Fp) : TxnRow Fp :=
  ⟨x.txnId, x.values, x.isSealed, some x.rowFp, some x.membersFp⟩

/-- `HeadPlan`, as far as transactions go.  `build_plan` gives up when a start would move. -/
structure HeadPlan (Fp : Type) where
  lo : Instant
  hi : Instant
  continued : List (Continuation Fp) := []
  created : List (Creation Fp) := []
  starts : ∀ x ∈ continued, x.values.startedAt = x.startedAt

/-- One continuation; `none` is `PlanStale`. -/
def continueOne (st : Store Fp) (x : Continuation Fp) : Option (Store Fp) :=
  let current := (st.txns.find? fun r => decide (r.id = x.txnId ∧ r.startedAt = x.startedAt)).bind
    TxnRow.rowFingerprint
  if current = x.oldRowFp then
    some ((st.updateTransaction x.startedAt x.row).writeAssignments x.txnId x.entries)
  else none

/-- The starts of what the plan writes. -/
def HeadPlan.startedAts (p : HeadPlan Fp) : List (Option Instant) :=
  p.continued.map Continuation.startedAt ++ p.created.map fun x => x.values.startedAt

/-- **`apply_plan`**: published is from the earliest start to the end of the plan; a plan that knows no
    start raises there. -/
def applyPlan (now : Instant) (st : Store Fp) (p : HeadPlan Fp) : Option (Committed Fp) := do
  let st ← p.continued.foldlM continueOne st
  let st := p.created.foldl (fun st x => st.writeTransaction x.row x.entries) st
  let starts := if p.startedAts = [] then [some p.lo] else p.startedAts
  let least ← (starts.filterMap id).min?
  return { store := st, published := publishForTransactions now [some least, some p.hi] }

/-! ## §6. `reclassify_stamped`. -/

/-- What the parser says of a stored line now, when it is stamped and stored differently. -/
structure Reparse where
  reparse : LogEntry → Option LogEntry
  id_eq : ∀ e e', reparse e = some e' → e'.id = e.id
  timestamp_eq : ∀ e e', reparse e = some e' → e'.timestamp = e.timestamp

/-- The lines of `[since, until)` that are stored wrongly. -/
def Store.misclassified (st : Store Fp) (since : Instant) (stop : Option Instant) (p : Reparse) :
    List LogEntry :=
  st.entries.filter fun e => (p.reparse e).isSome &&
    match e.timestamp with
    | none => false
    | some t => decide (since ≤ t) && (stop.all fun u => decide (t < u))

/-- The transactions that own a line of `[lo, hi]`. -/
def Store.owning (st : Store Fp) (lo hi : Instant) : List UUID :=
  (st.entries.filter fun e => within lo hi e.timestamp).filterMap fun e => st.assigned.owner e.id

/-- `_drop_transactions_owning`. -/
def Store.dropOwning (st : Store Fp) (lo hi : Instant) : Store Fp :=
  { (st.deleteAssignments (st.owning lo hi)).deleteTransactions (st.owning lo hi) with
    streams := []
    pending := [] }

/-- The line as it is stored afterwards. -/
def Reparse.fix (p : Reparse) (since : Instant) (stop : Option Instant) (e : LogEntry) : LogEntry :=
  match e.timestamp with
  | none => e
  | some t =>
    if since ≤ t ∧ (stop.all fun u => decide (t < u)) = true then (p.reparse e).getD e else e

/-- **`reclassify_stamped`**: nothing is published. -/
def reclassify (st : Store Fp) (since : Instant) (stop : Option Instant) (p : Reparse) :
    Committed Fp :=
  match spanOf (stamps (st.misclassified since stop p)) with
  | none => { store := st }
  | some (lo, hi) =>
    { store := { st with entries := st.entries.map (p.fix since stop) }.dropOwning lo hi }

/-- Parsing a line again keeps its identity. -/
theorem Reparse.fix_same (p : Reparse) (since : Instant) (stop : Option Instant) (e : LogEntry) :
    (p.fix since stop e).id = e.id ∧ (p.fix since stop e).timestamp = e.timestamp := by
  unfold Reparse.fix
  split
  · exact ⟨rfl, rfl⟩
  · split
    · cases h : p.reparse e with
      | none => exact ⟨rfl, rfl⟩
      | some e' => exact ⟨p.id_eq e e' h, p.timestamp_eq e e' h⟩
    · exact ⟨rfl, rfl⟩

/-! ## §7. Which rows change. -/

section Changes

variable {w : World Fp} {a : PersistArgs Fp} {c : Settings} {st : Store Fp} {gs : List Group}

theorem mem_putRow {txns : List (TxnRow Fp)} {g : Group} {r : TxnRow Fp}
    (h : r ∈ a.putRow w txns g) : r ∈ txns ∨ r = freshRow w a.cutoffs g := by
  unfold PersistArgs.putRow at h
  split at h
  · split at h
    · exact Or.inl h
    · obtain ⟨r', hr', heq⟩ := List.mem_map.mp h
      split at heq
      · exact Or.inr heq.symm
      · exact Or.inl (heq ▸ hr')
  · rcases List.mem_append.mp h with hold | hnew
    · exact Or.inl hold
    · exact Or.inr (List.mem_singleton.mp hnew)

theorem putRow_keeps {txns : List (TxnRow Fp)} {g : Group} {r : TxnRow Fp} (h : r ∈ txns)
    (hid : r.id ∉ a.stored.map TxnRow.id) : r ∈ a.putRow w txns g := by
  unfold PersistArgs.putRow
  split
  · next prior hprior =>
    split
    · exact h
    · refine List.mem_map.mpr ⟨r, h, if_neg ?_⟩
      rintro ⟨heq, -⟩
      obtain ⟨hmem, hpid⟩ := prior_eq_some hprior
      exact hid (heq ▸ hpid ▸ List.mem_map_of_mem hmem)
  · exact List.mem_append.mpr (Or.inl h)

theorem mem_foldl_putRow (ks : List Group) {txns : List (TxnRow Fp)} {r : TxnRow Fp}
    (h : r ∈ ks.foldl (a.putRow w) txns) : r ∈ txns ∨ ∃ g ∈ ks, r = freshRow w a.cutoffs g := by
  induction ks generalizing txns with
  | nil => exact Or.inl h
  | cons g ks ih =>
    rcases ih h with hput | ⟨g', hg', heq⟩
    · rcases mem_putRow hput with hold | hnew
      · exact Or.inl hold
      · exact Or.inr ⟨g, List.mem_cons_self, hnew⟩
    · exact Or.inr ⟨g', List.mem_cons_of_mem _ hg', heq⟩

theorem foldl_putRow_keeps (ks : List Group) {txns : List (TxnRow Fp)} {r : TxnRow Fp} (h : r ∈ txns)
    (hid : r.id ∉ a.stored.map TxnRow.id) : r ∈ ks.foldl (a.putRow w) txns := by
  induction ks generalizing txns with
  | nil => exact h
  | cons g ks ih => exact ih (putRow_keeps h hid)

/-- A row that `_persist` leaves was there, or is the row of a group it kept. -/
theorem persist_new {r : TxnRow Fp} (h : r ∈ (persist w a st gs).1.txns) :
    r ∈ st.txns ∨ ∃ g ∈ a.kept [] gs, r = freshRow w a.cutoffs g := by
  rw [persist_txns, List.mem_filter] at h
  exact mem_foldl_putRow _ h.1

/-- A row that `_persist` takes away has the id of a stored row. -/
theorem persist_lost {r : TxnRow Fp} (h : r ∈ st.txns) (hn : r ∉ (persist w a st gs).1.txns) :
    r.id ∈ a.stored.map TxnRow.id := by
  by_contra hid
  apply hn
  rw [persist_txns, List.mem_filter]
  refine ⟨foldl_putRow_keeps _ h hid, ?_⟩
  have hgone : r.id ∉ a.gone gs := fun hg => hid (mem_gone.mp hg).1
  simpa using hgone

omit [DecidableEq Fp] in
theorem mem_assignIds {cont : Continuity} {bs : List TxnBuilder} {g : Group}
    (h : g ∈ assignIds w cont bs) : ∃ b ∈ bs, g.2 = sortEntries b.entries := by
  obtain ⟨b, hb, heq⟩ := List.mem_map.mp (List.of_mem_zip h).2
  exact ⟨b, hb, heq.symm⟩

theorem startedAt_mem {es : List LogEntry} {t : Instant} (h : startedAt es = some t) :
    ∃ e ∈ es, e.timestamp = some t := by
  have hmem : t ∈ stamps es := List.min?_mem h
  exact List.mem_filterMap.mp hmem

omit [DecidableEq Fp] in
/-- The start of a group's row is the instant of a line that was read. -/
theorem freshRow_start {cont : Continuity} {rows : List LogEntry} {cut : Option (Instant × Instant)}
    (hids : (rows.map (·.id)).Nodup) {g : Group}
    (hg : g ∈ assignIds w cont (group c.logOpenGap {} rows)) {t : Instant}
    (ht : (freshRow w cut g).startedAt = some t) : ∃ e ∈ rows, e.timestamp = some t := by
  obtain ⟨b, hb, hlines⟩ := mem_assignIds hg
  have hstart : startedAt g.2 = some t := ht
  obtain ⟨e, he, hts⟩ := startedAt_mem hstart
  rw [hlines] at he
  exact ⟨e, mem_of_mem_group hids hb ((sortEntries_perm _).mem_iff.mp he), hts⟩

/-- Reading some of the lines in order keeps their ids apart. -/
theorem readOrder_nodup {es : List LogEntry} (h : (es.map (·.id)).Nodup) (p : LogEntry → Bool) :
    ((readOrder (es.filter p)).map (·.id)).Nodup := by
  rw [((readOrder_perm _).map _).nodup_iff]
  exact h.sublist (List.filter_sublist.map _)

end Changes

end RagPipeline.Stage2
