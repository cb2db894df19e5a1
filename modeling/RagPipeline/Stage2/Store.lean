/-
  RagPipeline.Stage2.Store — one tenant's tables, and the statements Stage 2 runs on them.

    * `log_entries`          — `entries`; Stage 2 only reads them;
    * `log_entry_assignment` — `assigned`: unique on `(entry_id, entry_ts)`, and `entry_ts` is a copy of
                               the entry's own timestamp, so an entry has one owner at most;
    * `log_transactions`     — `txns`: unique on `(id, started_at)` ONLY, so a list of rows that two
                               rows may share an id in;
    * `log_open_stream`, `log_pending_request`, `log_stitch_checkpoint`.

  `created_at` and `updated_at` are clocks of the database and are left out.
-/
import RagPipeline.Lib.Ownership
import RagPipeline.Stage2.Continuity
import RagPipeline.Stage2.Fingerprints
import RagPipeline.Stage2.Grouper

namespace RagPipeline.Stage2

open RagPipeline.Lib

/-! ## §1. Settings. -/

/-- `off`, `shadow`, `on`. -/
inductive Mode where
  | off | shadow | on
  deriving DecidableEq, Repr

/-- The settings Stage 2 reads, with their defaults. -/
structure Settings where
  logOpenGap : Duration := 300 * second
  logRegroupPad : Duration := 900 * second
  logSealWindow : Duration := 900 * second
  logAbandonWindow : Duration := 3600 * second
  fingerprintSkip : Bool := true
  streamLookup : Mode := .shadow
  crossPad : Mode := .shadow
  headLane : Mode := .shadow

/-- `_regroup_pad`: never below the seal window. -/
def Settings.pad (c : Settings) : Duration := max c.logRegroupPad c.logSealWindow

/-! ## §2. Rows and tables. -/

/-- A row of `log_transactions`. -/
structure TxnRow (Fp : Type) where
  id : UUID
  values : TxnValues
  isSealed : Bool
  rowFingerprint : Option Fp
  membersFingerprint : Option Fp

/-- The partition key. -/
def TxnRow.startedAt {Fp : Type} (r : TxnRow Fp) : Option Instant := r.values.startedAt

/-- A row of `log_open_stream`. -/
structure OpenStream where
  server : String
  thread : Option String
  userCtx : Option String
  txnId : UUID
  hasRequest : Bool
  lastEntryTs : Option Instant
  openPos : StreamPos
  isCurrent : Bool
  deriving DecidableEq, Repr

/-- `uq_log_open_stream_key`. -/
def OpenStream.key (r : OpenStream) : String × Option String × Option String :=
  (r.server, r.thread, r.userCtx)

/-- One tenant's tables; `pending` are the entry ids of `log_pending_request`. -/
structure Store (Fp : Type) where
  entries : List LogEntry := []
  assigned : Owners UUID UUID := fun _ => none
  txns : List (TxnRow Fp) := []
  streams : List OpenStream := []
  pending : List UUID := []
  checkpoint : Option Instant := none

variable {Fp : Type}

/-! ## §3. Reading. -/

/-- `lo ≤ t ≤ hi`, false for a missing instant. -/
def within (lo hi : Instant) (t : Option Instant) : Bool :=
  match t with
  | some t => decide (lo ≤ t ∧ t ≤ hi)
  | none => false

/-- The order of every entry read: timestamp (nulls last), source file, line number (nulls last). -/
def readLe (a b : LogEntry) : Prop :=
  match a.timestamp, b.timestamp with
  | some _, none => True
  | none, some _ => False
  | ta, tb =>
      ta.getD 0 < tb.getD 0 ∨
        (ta.getD 0 = tb.getD 0 ∧
          (a.sourceFile < b.sourceFile ∨
            (a.sourceFile = b.sourceFile ∧
              match a.lineNumber, b.lineNumber with
              | some m, some n => m ≤ n
              | _, none => True
              | none, some _ => False)))

instance : DecidableRel readLe := fun a b => by
  unfold readLe
  split
  · infer_instance
  · infer_instance
  · cases a.lineNumber <;> cases b.lineNumber <;> infer_instance

/-- `ORDER BY timestamp NULLS LAST, source_file, line_number`; ties keep the order of the table. -/
def readOrder (es : List LogEntry) : List LogEntry := es.insertionSort readLe

/-- `entries.sort(key=_entry_stream_order)`: a stable sort. -/
def sortEntries (es : List LogEntry) : List LogEntry :=
  es.insertionSort fun a b => entryStreamOrderLe a b = true

/-- An entry without a row in `log_entry_assignment`. -/
def Store.isUnassigned (st : Store Fp) (e : LogEntry) : Bool := (st.assigned e.id).isNone

/-- The lines assigned to a transaction, by `seq`. -/
def Store.linesOf (st : Store Fp) (tid : UUID) : List LogEntry :=
  (st.entries.filter fun e => decide (st.assigned.owner e.id = some tid)).insertionSort fun a b =>
    ((st.assigned a.id).map Prod.snd).getD 0 ≤ ((st.assigned b.id).map Prod.snd).getD 0

/-- The transactions that start in `[lo, hi]`. -/
def Store.startingIn (st : Store Fp) (lo hi : Instant) : List (TxnRow Fp) :=
  st.txns.filter fun r => within lo hi r.startedAt

/-- `_max_entry_ts`: the probe of the recent days and its fallback read the same maximum. -/
def Store.maxEntryTs (st : Store Fp) : Option Instant := endedAt st.entries

/-- `_cutoffs`: `(seal_cutoff, abandon_cutoff)`. -/
def Store.cutoffs (c : Settings) (st : Store Fp) : Option (Instant × Instant) :=
  st.maxEntryTs.map fun t => (t - c.logSealWindow, t - c.logAbandonWindow)

/-- `_is_sealed`. -/
def isSealedBy (cutoffs : Option (Instant × Instant)) (v : TxnValues) : Bool :=
  match v.endedAt, cutoffs with
  | some ended, some (sealCutoff, abandonCutoff) =>
      if v.status = .incomplete then decide (ended < abandonCutoff) else decide (ended < sealCutoff)
  | _, _ => false

/-- `_txn_id`. -/
def World.txnId (w : World Fp) (es : List LogEntry) : UUID := w.uuid5 (anchor es)

/-! ## §4. Writing. -/

/-- `assignments.write`: an upsert, `seq` is the index. -/
def Store.writeAssignments (st : Store Fp) (tid : UUID) (es : List LogEntry) : Store Fp :=
  { st with assigned := st.assigned.claim tid (es.map (·.id)) }

/-- `assignments.delete_for_transactions`. -/
def Store.deleteAssignments (st : Store Fp) (tids : List UUID) : Store Fp :=
  { st with assigned := st.assigned.release fun t => decide (t ∈ tids) }

/-- `DELETE FROM log_transactions WHERE id IN (…)`. -/
def Store.deleteTransactions (st : Store Fp) (tids : List UUID) : Store Fp :=
  { st with txns := st.txns.filter fun r => decide (r.id ∉ tids) }

/-- `_update_transaction`: addressed by `(id, started_at)`. -/
def Store.updateTransaction (st : Store Fp) (startedAt : Option Instant) (row : TxnRow Fp) :
    Store Fp :=
  { st with
    txns := st.txns.map fun r => if r.id = row.id ∧ r.startedAt = startedAt then row else r }

/-- `_write_transaction`: the row, then its assignments. -/
def Store.writeTransaction (st : Store Fp) (row : TxnRow Fp) (es : List LogEntry) : Store Fp :=
  { st with txns := st.txns ++ [row] }.writeAssignments row.id es

/-! ## §5. Ownership. -/

/-- A transaction that has a row. -/
def Store.Live (st : Store Fp) (tid : UUID) : Prop := ∃ r ∈ st.txns, r.id = tid

/-- The live transaction `tid` owns the entry. -/
def Store.Owns (st : Store Fp) (tid : UUID) (e : LogEntry) : Prop :=
  st.assigned.owner e.id = some tid ∧ st.Live tid

theorem Store.owns_unique {st : Store Fp} {t t' : UUID} {e : LogEntry} (h : st.Owns t e)
    (h' : st.Owns t' e) : t = t' :=
  Option.some.inj (h.1.symm.trans h'.1)

theorem within_iff {lo hi : Instant} {t : Option Instant} :
    within lo hi t = true ↔ ∃ x, t = some x ∧ lo ≤ x ∧ x ≤ hi := by
  cases t <;> simp [within]

theorem readOrder_perm (es : List LogEntry) : (readOrder es).Perm es := List.perm_insertionSort _ es

theorem sortEntries_perm (es : List LogEntry) : (sortEntries es).Perm es :=
  List.perm_insertionSort _ es

end RagPipeline.Stage2
