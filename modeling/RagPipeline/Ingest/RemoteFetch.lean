/-
  RagPipeline.Ingest.RemoteFetch — `remote_fetcher.py`, one remote log file under incremental polls.

  A poll probes the file, decides from the path's checkpoint (`planIncremental`), and downloads the rest
  in windows (`stageRange`).  Each window is saved and queued in one transaction with the checkpoint, so a
  poll that fails leaves the transactions it got to: `Event.poll` carries how many that were.  The file
  only grows, and what is written of it does not change; a poll reads up to the size it has probed.

    * `tiles_stageRange`        — the windows of a download lie end to end, and reach the size;
    * `plan_cases`              — what the decision can be, for a file that only grows;
    * `nothingSkipped_step_iff` — one poll keeps the promise exactly when it is not `Misled`;
    * `nothing_skipped_iff`     — so in a run.
-/
import Mathlib.Data.List.DropRight
import RagPipeline.Lib.Tiling

namespace RagPipeline.Ingest

/-! ## §1. The file and its checkpoint. -/

/-- The contents of a remote file. -/
abbrev Bytes := List UInt8

/-- `b"\n"`. -/
def newline : UInt8 := 10

/-- `st_mtime`; only compared for equality. -/
abbrev Mtime := ℤ

/-- The settings the fetcher reads. -/
structure FetchSettings where
  sshMaxFileSize : ℕ := 200 * 1024 * 1024
  sshFingerprintBytes : ℕ := 4096

/-- A row of `LogSshFileCheckpoint`; `headFingerprint` is absent on legacy rows. -/
structure FileCheckpoint (Fp : Type) where
  lastSize : ℕ
  lastMtime : Mtime
  lastOffset : ℕ
  headFingerprint : Option Fp
  deriving DecidableEq

/-- `_Probe`: size, mtime and head hash of one handle. -/
structure Probe (Fp : Type) where
  size : ℕ
  mtime : Mtime
  headFp : Fp

/-- `_FetchPlan.reason`. -/
inductive PlanReason where
  | unchanged | rotatedContentSkip | rotatedReread | noNewBytes | append | newFile
  deriving DecidableEq, Repr

/-- `_FetchPlan`. -/
structure FetchPlan where
  doPull : Bool
  start : ℕ := 0
  saveOffset : Option ℕ := none
  reason : PlanReason
  deriving DecidableEq, Repr

/-- What one transaction writes: a queue row if there is one, and the checkpoint. -/
structure FetchCommit (Fp : Type) where
  row : Option Span
  checkpoint : FileCheckpoint Fp

/-- The file, its checkpoint, and the byte ranges of its rows in the queue, oldest first. -/
structure RemoteLog (Fp : Type) where
  file : Bytes
  checkpoint : Option (FileCheckpoint Fp) := none
  queued : List Span := []

variable {Fp : Type}

/-! ## §2. `_plan_incremental`. -/

/-- `sig_consumed.get(key)`: the furthest offset of the rows with this head, size and mtime. -/
def sigConsumed [DecidableEq Fp] (rows : List (FileCheckpoint Fp)) (fp : Fp) (size : ℕ) (mtime : Mtime) :
    Option ℕ :=
  ((rows.filter fun k =>
    decide (k.headFingerprint = some fp ∧ k.lastSize = size ∧ k.lastMtime = mtime)).map
      (·.lastOffset)).max?

/-- `rotated`: both sizes make the head reliable, and it is another one. -/
def isRotated [DecidableEq Fp] (ck : Option (FileCheckpoint Fp)) (p : Probe Fp) (n : ℕ) : Bool :=
  ck.any fun k => k.headFingerprint.any fun fp =>
    decide (n ≤ k.lastSize) && decide (n ≤ p.size) && decide (fp ≠ p.headFp)

/-- `_plan_incremental`. -/
def planIncremental [DecidableEq Fp] (ck : Option (FileCheckpoint Fp)) (rows : List (FileCheckpoint Fp))
    (p : Probe Fp) (n : ℕ) : FetchPlan :=
  if ck.any (fun k => !isRotated ck p n && decide (p.size = k.lastSize ∧ p.mtime = k.lastMtime)) then
    { doPull := false
      saveOffset := ck.bind fun k => if k.headFingerprint = none then some k.lastOffset else none
      reason := .unchanged }
  else if decide (n ≤ p.size) && (sigConsumed rows p.headFp p.size p.mtime).any (p.size ≤ ·) then
    { doPull := false, saveOffset := some p.size, reason := .rotatedContentSkip }
  else if isRotated ck p n || ck.any fun k => decide (p.size < k.lastSize) then
    { doPull := true, reason := .rotatedReread }
  else match ck with
    | some k =>
      if p.size ≤ k.lastOffset then
        { doPull := false, saveOffset := some k.lastOffset, reason := .noNewBytes }
      else { doPull := true, start := k.lastOffset, reason := .append }
    | none => { doPull := true, reason := .newFile }

/-! ## §3. `_stage_range`. -/

/-- One window: it ends at the size, at its last newline, or where it has none. -/
def stageWindow (c : FetchSettings) (file : Bytes) (size offset : ℕ) : Bytes :=
  let data := (file.drop offset).take (min c.sshMaxFileSize (size - offset))
  if size ≤ offset + data.length then data
  else
    let lines := data.rdropWhile (· ≠ newline)
    if lines = [] then data else lines

/-- The windows from `offset` on; an empty read ends the loop. -/
def stageFrom (c : FetchSettings) (file : Bytes) (size : ℕ) : ℕ → ℕ → List Span
  | 0, _ => []
  | fuel + 1, offset =>
    if offset < size then
      let data := stageWindow c file size offset
      if data = [] then []
      else ⟨offset, offset + data.length⟩ :: stageFrom c file size fuel (offset + data.length)
    else []

/-- `_stage_range`, the ranges it queues; a window takes at least one byte. -/
def stageRange (c : FetchSettings) (file : Bytes) (start size : ℕ) : List Span :=
  stageFrom c file size (size - start) start

/-! ## §4. A poll. -/

/-- The offset the checkpoint records; a path that has none is read from its start. -/
def RemoteLog.consumed (s : RemoteLog Fp) : ℕ := (s.checkpoint.map (·.lastOffset)).getD 0

/-- `_head_hash` of the first bytes, `hash` being the digest. -/
def headHash (c : FetchSettings) (hash : Bytes → Fp) (file : Bytes) : Fp :=
  hash (file.take c.sshFingerprintBytes)

/-- `_probe`. -/
def RemoteLog.probe (c : FetchSettings) (hash : Bytes → Fp) (s : RemoteLog Fp) (mtime : Mtime) : Probe Fp :=
  { size := s.file.length, mtime := mtime, headFp := headHash c hash s.file }

@[simp] theorem RemoteLog.probe_size (c : FetchSettings) (hash : Bytes → Fp) (s : RemoteLog Fp)
    (mtime : Mtime) : (s.probe c hash mtime).size = s.file.length := rfl

@[simp] theorem RemoteLog.probe_mtime (c : FetchSettings) (hash : Bytes → Fp) (s : RemoteLog Fp)
    (mtime : Mtime) : (s.probe c hash mtime).mtime = mtime := rfl

@[simp] theorem RemoteLog.probe_headFp (c : FetchSettings) (hash : Bytes → Fp) (s : RemoteLog Fp)
    (mtime : Mtime) : (s.probe c hash mtime).headFp = headHash c hash s.file := rfl

/-- The transactions of a poll: one for each window, or the one of a skip that saves an offset. -/
def planCommits (c : FetchSettings) (file : Bytes) (p : Probe Fp) (plan : FetchPlan) :
    List (FetchCommit Fp) :=
  if plan.doPull then
    (stageRange c file plan.start p.size).map fun r =>
      ⟨some r, ⟨p.size, p.mtime, r.stop, some p.headFp⟩⟩
  else plan.saveOffset.toList.map fun offset =>
    ⟨none, ⟨p.size, p.mtime, offset, some p.headFp⟩⟩

/-- `_queue_and_checkpoint`, or `_save_ckpt`. -/
def RemoteLog.commit (s : RemoteLog Fp) (t : FetchCommit Fp) : RemoteLog Fp :=
  { s with checkpoint := some t.checkpoint, queued := s.queued ++ t.row.toList }

/-- The transactions a poll would make, the rows of the other paths of the source being `others`. -/
def RemoteLog.pollCommits [DecidableEq Fp] (c : FetchSettings) (hash : Bytes → Fp) (s : RemoteLog Fp)
    (mtime : Mtime) (others : List (FileCheckpoint Fp)) : List (FetchCommit Fp) :=
  planCommits c s.file (s.probe c hash mtime)
    (planIncremental s.checkpoint (s.checkpoint.toList ++ others) (s.probe c hash mtime)
      c.sshFingerprintBytes)

/-- What happens to the file. -/
inductive FetchEvent (Fp : Type) where
  /-- bytes are appended; -/
  | grow (bytes : Bytes)
  /-- it is polled: all transactions are made, or the poll fails after `some k` of them. -/
  | poll (mtime : Mtime) (others : List (FileCheckpoint Fp)) (upTo : Option ℕ)

/-- A poll that ran to its end. -/
def FetchEvent.succeeds : FetchEvent Fp → Bool
  | .poll _ _ none => true
  | _ => false

/-- The transactions that are made: all, or the first ones. -/
def madeOf {α : Type} (upTo : Option ℕ) (ts : List α) : List α :=
  match upTo with
  | none => ts
  | some k => ts.take k

/-- One event. -/
def fetchStep [DecidableEq Fp] (c : FetchSettings) (hash : Bytes → Fp) (s : RemoteLog Fp) :
    FetchEvent Fp → RemoteLog Fp
  | .grow bytes => { s with file := s.file ++ bytes }
  | .poll mtime others upTo => (madeOf upTo (s.pollCommits c hash mtime others)).foldl RemoteLog.commit s

/-- The events in turn. -/
def runFetch [DecidableEq Fp] (c : FetchSettings) (hash : Bytes → Fp) (s : RemoteLog Fp)
    (events : List (FetchEvent Fp)) : RemoteLog Fp :=
  events.foldl (fetchStep c hash) s

/-! ## §5. What a download queues. -/

theorem stageWindow_ne_nil {c : FetchSettings} (hc : 0 < c.sshMaxFileSize) {file : Bytes}
    {size offset : ℕ} (hsize : size ≤ file.length) (hlt : offset < size) :
    stageWindow c file size offset ≠ [] := by
  have hdata : (file.drop offset).take (min c.sshMaxFileSize (size - offset)) ≠ [] := by
    apply List.ne_nil_of_length_pos
    simp only [List.length_take, List.length_drop]
    omega
  unfold stageWindow
  simp only
  split
  · exact hdata
  · split
    · exact hdata
    · assumption

theorem length_stageWindow_le (c : FetchSettings) (file : Bytes) {size offset : ℕ}
    (hlt : offset < size) : offset + (stageWindow c file size offset).length ≤ size := by
  have hdata : ((file.drop offset).take (min c.sshMaxFileSize (size - offset))).length ≤ size - offset := by
    simp only [List.length_take]
    omega
  unfold stageWindow
  simp only
  split
  · omega
  · split
    · omega
    · have hlines := (List.rdropWhile_prefix (· ≠ newline)
        ((file.drop offset).take (min c.sshMaxFileSize (size - offset)))).length_le
      omega

/-- **The windows lie end to end; with a window of at least one byte they reach the size.** -/
theorem tiles_stageFrom (c : FetchSettings) {file : Bytes} {size : ℕ} (hsize : size ≤ file.length)
    (fuel : ℕ) {offset : ℕ} (hle : offset ≤ size) (hfuel : size - offset ≤ fuel) :
    ∃ b, Tiles offset (stageFrom c file size fuel offset) b ∧ b ≤ size ∧
      (0 < c.sshMaxFileSize → b = size) := by
  induction fuel generalizing offset with
  | zero => exact ⟨offset, rfl, hle, fun _ => by omega⟩
  | succ fuel ih =>
    unfold stageFrom
    by_cases hlt : offset < size
    · rw [if_pos hlt]
      by_cases hnil : stageWindow c file size offset = []
      · refine ⟨offset, ?_, hle, fun hc => absurd hnil (stageWindow_ne_nil hc hsize hlt)⟩
        simp only [hnil, if_true]
        rfl
      · have hpos := List.length_pos_iff.mpr hnil
        have hbound := length_stageWindow_le c file hlt
        have hnext : offset + (stageWindow c file size offset).length ≤ size := hbound
        obtain ⟨b, htiles, hb, hend⟩ := ih hnext (by omega)
        refine ⟨b, ?_, hb, hend⟩
        simp only [hnil, if_false]
        exact ⟨rfl, Nat.le_add_right _ _, htiles⟩
    · rw [if_neg hlt]
      exact ⟨offset, rfl, hle, fun _ => by omega⟩

theorem tiles_stageRange (c : FetchSettings) {file : Bytes} {start size : ℕ} (hsize : size ≤ file.length)
    (hle : start ≤ size) :
    ∃ b, Tiles start (stageRange c file start size) b ∧ b ≤ size ∧ (0 < c.sshMaxFileSize → b = size) :=
  tiles_stageFrom c hsize (size - start) hle (Nat.le_refl _)

/-- A read of no bytes ends the loop. -/
theorem stageRange_of_zero {c : FetchSettings} (hc : c.sshMaxFileSize = 0) (file : Bytes) (start size : ℕ) :
    stageRange c file start size = [] := by
  unfold stageRange
  cases size - start with
  | zero => rfl
  | succ fuel =>
    unfold stageFrom
    have hdata : stageWindow c file size start = [] := by
      unfold stageWindow
      simp [hc]
    simp [hdata]

/-! ## §6. What is recorded of a file that only grows. -/

/-- The offset is in the recorded size, the recorded size in the file, and a reliable head is its head. -/
structure RemoteLog.Recorded (c : FetchSettings) (hash : Bytes → Fp) (s : RemoteLog Fp) : Prop where
  offset_le : ∀ k, s.checkpoint = some k → k.lastOffset ≤ k.lastSize
  size_le : ∀ k, s.checkpoint = some k → k.lastSize ≤ s.file.length
  head : ∀ k, s.checkpoint = some k → c.sshFingerprintBytes ≤ k.lastSize →
    ∀ fp, k.headFingerprint = some fp → fp = headHash c hash s.file

/-- The path's recorded size and mtime are those of the file. -/
def RemoteLog.Unchanged (s : RemoteLog Fp) (mtime : Mtime) : Prop :=
  ∃ k, s.checkpoint = some k ∧ k.lastSize = s.file.length ∧ k.lastMtime = mtime

/-- Another path's row records a file of this head, size and mtime as read to its end. -/
def TakenElsewhere (c : FetchSettings) (hash : Bytes → Fp) (s : RemoteLog Fp) (mtime : Mtime)
    (others : List (FileCheckpoint Fp)) : Prop :=
  c.sshFingerprintBytes ≤ s.file.length ∧ ∃ k ∈ others, k.headFingerprint = some (headHash c hash s.file) ∧
    k.lastSize = s.file.length ∧ k.lastMtime = mtime ∧ s.file.length ≤ k.lastOffset

variable {c : FetchSettings} {hash : Bytes → Fp} {s : RemoteLog Fp}

theorem RemoteLog.Recorded.consumed_le (h : s.Recorded c hash) : s.consumed ≤ s.file.length := by
  unfold consumed
  cases hck : s.checkpoint with
  | none => exact Nat.zero_le _
  | some k => exact (h.offset_le k hck).trans (h.size_le k hck)

variable [DecidableEq Fp]

/-- An append-only file never looks replaced. -/
theorem RemoteLog.Recorded.not_rotated (h : s.Recorded c hash) (mtime : Mtime) :
    isRotated s.checkpoint (s.probe c hash mtime) c.sshFingerprintBytes = false := by
  unfold isRotated
  cases hck : s.checkpoint with
  | none => rfl
  | some k =>
    cases hfp : k.headFingerprint with
    | none => simp [hfp]
    | some fp =>
      by_cases hn : c.sshFingerprintBytes ≤ k.lastSize
      · have hhead := h.head k hck hn fp hfp
        simp [hfp, hhead, probe]
      · simp [hfp, hn]

theorem max?_any_le (xs : List ℕ) (n : ℕ) :
    xs.max?.any (fun m => decide (n ≤ m)) = true ↔ ∃ x ∈ xs, n ≤ x := by
  constructor
  · intro h
    obtain ⟨m, hm, hle⟩ := Option.any_eq_true _ _ |>.mp h
    exact ⟨m, List.max?_mem hm, of_decide_eq_true hle⟩
  · intro h
    obtain ⟨x, hx, hle⟩ := h
    cases hm : xs.max? with
    | none =>
      rw [List.max?_eq_none_iff.mp hm] at hx
      exact absurd hx List.not_mem_nil
    | some m =>
      have hxm : x ≤ m := (List.max?_le_iff hm).mp (Nat.le_refl m) x hx
      simpa using hle.trans hxm

theorem sigConsumed_any {rows : List (FileCheckpoint Fp)} {fp : Fp} {size : ℕ} {mtime : Mtime} :
    (sigConsumed rows fp size mtime).any (fun m => decide (size ≤ m)) = true ↔
      ∃ k ∈ rows, k.headFingerprint = some fp ∧ k.lastSize = size ∧ k.lastMtime = mtime ∧
        size ≤ k.lastOffset := by
  unfold sigConsumed
  rw [max?_any_le]
  constructor
  · rintro ⟨x, hx, hle⟩
    obtain ⟨k, hk, rfl⟩ := List.mem_map.mp hx
    obtain ⟨hmem, hkey⟩ := List.mem_filter.mp hk
    have hkey := of_decide_eq_true hkey
    exact ⟨k, hmem, hkey.1, hkey.2.1, hkey.2.2, hle⟩
  · rintro ⟨k, hmem, hfp, hsize, hmtime, hle⟩
    exact ⟨k.lastOffset, List.mem_map.mpr ⟨k, List.mem_filter.mpr
      ⟨hmem, decide_eq_true ⟨hfp, hsize, hmtime⟩⟩, rfl⟩, hle⟩

/-- The decision, in the terms of the file and its rows. -/
inductive PlanCase (c : FetchSettings) (hash : Bytes → Fp) (s : RemoteLog Fp) (mtime : Mtime)
    (others : List (FileCheckpoint Fp)) (plan : FetchPlan) : Prop where
  | unchanged (h : s.Unchanged mtime) (hpull : plan.doPull = false)
      (hsave : plan.saveOffset = none ∨ plan.saveOffset = some s.consumed)
  | elsewhere (h : ¬ s.Unchanged mtime) (htaken : TakenElsewhere c hash s mtime others)
      (hpull : plan.doPull = false) (hsave : plan.saveOffset = some s.file.length)
  | noNewBytes (h : ¬ s.Unchanged mtime) (htaken : ¬ TakenElsewhere c hash s mtime others)
      (hend : s.consumed = s.file.length) (hpull : plan.doPull = false)
      (hsave : plan.saveOffset = some s.consumed)
  | tail (h : ¬ s.Unchanged mtime) (htaken : ¬ TakenElsewhere c hash s mtime others)
      (hpull : plan.doPull = true) (hstart : plan.start = s.consumed)

/-- The first test of the plan is `Unchanged`. -/
theorem RemoteLog.Recorded.unchanged_iff (h : s.Recorded c hash) (mtime : Mtime) :
    s.checkpoint.any (fun k => !isRotated s.checkpoint (s.probe c hash mtime) c.sshFingerprintBytes &&
      decide (s.file.length = k.lastSize ∧ mtime = k.lastMtime)) = true ↔
      s.Unchanged mtime := by
  rw [h.not_rotated mtime]
  unfold Unchanged
  cases hck : s.checkpoint with
  | none => simp
  | some k =>
    simp only [Option.any_some, Bool.not_false, Bool.true_and, decide_eq_true_eq, Option.some.injEq]
    constructor
    · intro hk
      exact ⟨k, rfl, hk.1.symm, hk.2.symm⟩
    · rintro ⟨k', rfl, hsize, hmtime⟩
      exact ⟨hsize.symm, hmtime.symm⟩

/-- The second test is `TakenElsewhere`: a row of the path's own would have met the first. -/
theorem taken_iff (hun : ¬ s.Unchanged mtime) (others : List (FileCheckpoint Fp)) :
    (decide (c.sshFingerprintBytes ≤ s.file.length) &&
      (sigConsumed (s.checkpoint.toList ++ others) (headHash c hash s.file) s.file.length mtime).any
        (fun m => decide (s.file.length ≤ m))) = true ↔
      TakenElsewhere c hash s mtime others := by
  rw [Bool.and_eq_true, decide_eq_true_eq, sigConsumed_any]
  unfold TakenElsewhere
  constructor
  · rintro ⟨hn, k, hk, hkey⟩
    refine ⟨hn, k, ?_, hkey⟩
    cases List.mem_append.mp hk with
    | inl hown =>
      have hck : s.checkpoint = some k := Option.mem_toList.mp hown
      exact absurd ⟨k, hck, hkey.2.1, hkey.2.2.1⟩ hun
    | inr hother => exact hother
  · rintro ⟨hn, k, hk, hkey⟩
    exact ⟨hn, k, List.mem_append_right _ hk, hkey⟩

/-- **What the decision can be.** -/
theorem plan_cases (h : s.Recorded c hash) (mtime : Mtime) (others : List (FileCheckpoint Fp)) :
    PlanCase c hash s mtime others (planIncremental s.checkpoint (s.checkpoint.toList ++ others)
      (s.probe c hash mtime) c.sshFingerprintBytes) := by
  unfold planIncremental
  split
  case isTrue hcond =>
    have hun := (h.unchanged_iff mtime).mp hcond
    have hsave : (s.checkpoint.bind fun k =>
          if k.headFingerprint = none then some k.lastOffset else none) = none ∨
        (s.checkpoint.bind fun k =>
          if k.headFingerprint = none then some k.lastOffset else none) = some s.consumed := by
      unfold RemoteLog.consumed
      cases s.checkpoint with
      | none => exact Or.inl rfl
      | some k =>
        by_cases hfp : k.headFingerprint = none
        · exact Or.inr (by simp [hfp])
        · exact Or.inl (by simp [hfp])
    exact .unchanged hun rfl hsave
  case isFalse hcond =>
    have hun : ¬ s.Unchanged mtime := fun hun => hcond ((h.unchanged_iff mtime).mpr hun)
    split
    case isTrue hcond => exact .elsewhere hun ((taken_iff hun others).mp hcond) rfl rfl
    case isFalse hcond =>
      have htaken : ¬ TakenElsewhere c hash s mtime others :=
        fun htaken => hcond ((taken_iff hun others).mpr htaken)
      rw [h.not_rotated mtime]
      have hconsumed : s.consumed = (s.checkpoint.map (·.lastOffset)).getD 0 := rfl
      cases hck : s.checkpoint with
      | none =>
        rw [hck] at hconsumed
        exact .tail hun htaken rfl hconsumed.symm
      | some k =>
        rw [hck] at hconsumed
        have hconsumed : s.consumed = k.lastOffset := hconsumed
        have hsize := h.size_le k hck
        have hoffset := h.offset_le k hck
        -- an append-only file is not below its recorded size
        have hgrown : ¬ (false || (some k).any fun k =>
            decide ((s.probe c hash mtime).size < k.lastSize)) = true := by
          intro hlt
          have hlt : s.file.length < k.lastSize := of_decide_eq_true hlt
          omega
        rw [if_neg hgrown]
        dsimp only
        split
        case isTrue hend =>
          have hend : s.file.length ≤ k.lastOffset := hend
          exact .noNewBytes hun htaken (by omega) rfl (congrArg some hconsumed.symm)
        case isFalse hend => exact .tail hun htaken rfl hconsumed.symm

/-! ## §7. What the transactions of a poll leave. -/

omit [DecidableEq Fp] in
/-- A download that lies on what is queued leaves what is queued end to end, up to its offset. -/
theorem tiles_foldl_commit (size : ℕ) (mtime : Mtime) (fp : Fp) {rs : List Span} {a b : ℕ}
    (hrs : Tiles a rs b) {s : RemoteLog Fp} (hs : Tiles 0 s.queued s.consumed) (ha : s.consumed = a) :
    let s' := (rs.map fun r => (⟨some r, ⟨size, mtime, r.stop, some fp⟩⟩ : FetchCommit Fp)).foldl
      RemoteLog.commit s
    Tiles 0 s'.queued s'.consumed ∧ s'.consumed = b := by
  induction rs generalizing s a with
  | nil => exact ⟨hs, ha.trans hrs⟩
  | cons r rs ih =>
    have hone : Tiles a [r] r.stop := ⟨hrs.1, hrs.2.1, rfl⟩
    have hqueued : Tiles 0 (s.queued ++ [r]) r.stop := by
      rw [tiles_append]
      exact ⟨a, ha ▸ hs, hone⟩
    exact ih (s := s.commit ⟨some r, ⟨size, mtime, r.stop, some fp⟩⟩) hrs.2.2 hqueued rfl

omit [DecidableEq Fp] in
@[simp] theorem file_foldl_commit (ts : List (FetchCommit Fp)) (s : RemoteLog Fp) :
    (ts.foldl RemoteLog.commit s).file = s.file := by
  induction ts generalizing s with
  | nil => rfl
  | cons t ts ih => exact ih (s.commit t)

/-- A transaction records the file as it is. -/
def FetchCommit.Fits (c : FetchSettings) (hash : Bytes → Fp) (file : Bytes) (t : FetchCommit Fp) : Prop :=
  t.checkpoint.lastOffset ≤ t.checkpoint.lastSize ∧ t.checkpoint.lastSize ≤ file.length ∧
    t.checkpoint.headFingerprint = some (headHash c hash file)

omit [DecidableEq Fp] in
theorem RemoteLog.Recorded.foldl_commit {ts : List (FetchCommit Fp)}
    (hts : ∀ t ∈ ts, t.Fits c hash s.file) (h : s.Recorded c hash) :
    (ts.foldl RemoteLog.commit s).Recorded c hash := by
  induction ts generalizing s with
  | nil => exact h
  | cons t ts ih =>
    have ht := hts t List.mem_cons_self
    refine ih (s := s.commit t) (fun u hu => hts u (List.mem_cons_of_mem _ hu)) ⟨?_, ?_, ?_⟩
    · intro k hk
      exact Option.some.inj hk ▸ ht.1
    · intro k hk
      exact Option.some.inj hk ▸ ht.2.1
    · intro k hk _ fp hfp
      rw [← Option.some.inj hk, ht.2.2] at hfp
      exact (Option.some.inj hfp).symm

theorem madeOf_subset {α : Type} {upTo : Option ℕ} {ts : List α} {t : α} (h : t ∈ madeOf upTo ts) : t ∈ ts := by
  cases upTo with
  | none => exact h
  | some k => exact List.mem_of_mem_take h

theorem madeOf_map {α β : Type} (f : α → β) (upTo : Option ℕ) (ts : List α) :
    madeOf upTo (ts.map f) = (madeOf upTo ts).map f := by
  cases upTo with
  | none => rfl
  | some k => exact List.map_take.symm

/-- Every transaction of a poll fits the file. -/
theorem RemoteLog.Recorded.fits (h : s.Recorded c hash) {mtime : Mtime}
    {others : List (FileCheckpoint Fp)} {t : FetchCommit Fp} (ht : t ∈ s.pollCommits c hash mtime others) :
    t.Fits c hash s.file := by
  have hsaved : ∀ offset, offset ≤ s.file.length →
      FetchCommit.Fits c hash s.file ⟨none, ⟨s.file.length, mtime, offset, some (headHash c hash s.file)⟩⟩ :=
    fun offset hle => ⟨hle, Nat.le_refl _, rfl⟩
  unfold pollCommits planCommits at ht
  -- whatever the plan, what is saved is the size and the head of the file, and an offset within it
  cases plan_cases h mtime others with
  | unchanged _ hpull hsave =>
    simp only [hpull] at ht
    obtain ⟨offset, hoffset, rfl⟩ := List.mem_map.mp ht
    apply hsaved
    cases hsave with
    | inl hnone => simp [hnone] at hoffset
    | inr hsome =>
      simp only [hsome, Option.toList_some, List.mem_singleton] at hoffset
      exact hoffset ▸ h.consumed_le
  | elsewhere _ _ hpull hsave =>
    simp only [hpull, hsave] at ht
    obtain ⟨offset, hoffset, rfl⟩ := List.mem_map.mp ht
    simp only [Option.toList_some, List.mem_singleton] at hoffset
    exact hsaved offset (by omega)
  | noNewBytes _ _ _ hpull hsave =>
    simp only [hpull, hsave] at ht
    obtain ⟨offset, hoffset, rfl⟩ := List.mem_map.mp ht
    simp only [Option.toList_some, List.mem_singleton] at hoffset
    exact hsaved offset (hoffset ▸ h.consumed_le)
  | tail _ _ hpull hstart =>
    simp only [hpull, hstart, if_true] at ht
    obtain ⟨r, hr, rfl⟩ := List.mem_map.mp ht
    obtain ⟨b, htiles, hb, -⟩ := tiles_stageRange c (Nat.le_refl s.file.length) h.consumed_le
    have hstop := htiles.stop_le hr
    exact ⟨hstop.trans hb, Nat.le_refl _, rfl⟩

theorem RemoteLog.Recorded.step (h : s.Recorded c hash) (e : FetchEvent Fp) :
    (fetchStep c hash s e).Recorded c hash := by
  cases e with
  | grow bytes =>
    refine ⟨h.offset_le, ?_, ?_⟩
    · intro k hk
      have hsize := h.size_le k hk
      show k.lastSize ≤ (s.file ++ bytes).length
      rw [List.length_append]
      omega
    · intro k hk hn fp hfp
      have hsize := h.size_le k hk
      have hsame : (s.file ++ bytes).take c.sshFingerprintBytes = s.file.take c.sshFingerprintBytes :=
        List.take_append_of_le_length (hn.trans hsize)
      show fp = hash ((s.file ++ bytes).take c.sshFingerprintBytes)
      rw [hsame]
      exact h.head k hk hn fp hfp
  | poll mtime others upTo => exact h.foldl_commit fun t ht => h.fits (madeOf_subset ht)

/-- What a poll leaves queued and recorded. -/
inductive PollCase (c : FetchSettings) (hash : Bytes → Fp) (s : RemoteLog Fp) (mtime : Mtime)
    (others : List (FileCheckpoint Fp)) (upTo : Option ℕ) (s' : RemoteLog Fp) : Prop where
  | nothing (hwhy : s.Unchanged mtime ∨ s.consumed = s.file.length ∨ c.sshMaxFileSize = 0 ∨ upTo ≠ none)
      (htaken : s.Unchanged mtime ∨ ¬ TakenElsewhere c hash s mtime others ∨ upTo = some 0)
      (hqueued : s'.queued = s.queued) (hconsumed : s'.consumed = s.consumed)
  | elsewhere (h : ¬ s.Unchanged mtime) (htaken : TakenElsewhere c hash s mtime others) (hmade : upTo ≠ some 0)
      (hqueued : s'.queued = s.queued) (hconsumed : s'.consumed = s.file.length)
  | queued (h : ¬ s.Unchanged mtime) (htaken : ¬ TakenElsewhere c hash s mtime others)
      (hwindow : 0 < c.sshMaxFileSize) (htiles : Tiles 0 s'.queued s'.consumed)
      (hend : upTo = none → s'.consumed = s.file.length)

omit [DecidableEq Fp] in
/-- A skip makes at most one transaction, and queues nothing. -/
theorem foldl_commit_skip (s : RemoteLog Fp) {upTo : Option ℕ} (hmade : upTo ≠ some 0)
    (size : ℕ) (mtime : Mtime) (offset : ℕ) (fp : Fp) :
    (madeOf upTo [(⟨none, ⟨size, mtime, offset, some fp⟩⟩ : FetchCommit Fp)]).foldl RemoteLog.commit s =
      { s with checkpoint := some ⟨size, mtime, offset, some fp⟩ } := by
  have hcommit : s.commit ⟨none, ⟨size, mtime, offset, some fp⟩⟩ =
      { s with checkpoint := some ⟨size, mtime, offset, some fp⟩ } := by
    simp [RemoteLog.commit]
  cases upTo with
  | none => exact hcommit
  | some k =>
    cases k with
    | zero => exact absurd rfl hmade
    | succ k => simpa [madeOf] using hcommit

omit [DecidableEq Fp] in
/-- A skip that saves the offset already recorded changes neither the offset nor the queue. -/
theorem skip_same (s : RemoteLog Fp) (upTo : Option ℕ) (p : Probe Fp) (saveOffset : Option ℕ)
    (hsave : saveOffset = none ∨ saveOffset = some s.consumed) :
    let s' := (madeOf upTo (saveOffset.toList.map fun offset =>
      (⟨none, ⟨p.size, p.mtime, offset, some p.headFp⟩⟩ : FetchCommit Fp))).foldl RemoteLog.commit s
    s'.queued = s.queued ∧ s'.consumed = s.consumed := by
  by_cases hmade : upTo = some 0
  · rw [hmade]
    exact ⟨rfl, rfl⟩
  · cases hsave with
    | inl hnone =>
      rw [hnone]
      cases upTo with
      | none => exact ⟨rfl, rfl⟩
      | some k => simp [madeOf]
    | inr hsome =>
      rw [hsome]
      simp only [Option.toList_some, List.map_cons, List.map_nil]
      rw [foldl_commit_skip s hmade]
      exact ⟨rfl, rfl⟩

theorem poll_cases (h : s.Recorded c hash) (hs : Tiles 0 s.queued s.consumed) (mtime : Mtime)
    (others : List (FileCheckpoint Fp)) (upTo : Option ℕ) :
    PollCase c hash s mtime others upTo (fetchStep c hash s (.poll mtime others upTo)) := by
  have hplan := plan_cases h mtime others
  show PollCase c hash s mtime others upTo ((madeOf upTo (planCommits c s.file (s.probe c hash mtime)
    (planIncremental s.checkpoint (s.checkpoint.toList ++ others) (s.probe c hash mtime)
      c.sshFingerprintBytes))).foldl RemoteLog.commit s)
  unfold planCommits
  cases hplan with
  | unchanged hun hpull hsave =>
    rw [if_neg (by simp [hpull])]
    obtain ⟨hqueued, hconsumed⟩ := skip_same s upTo (s.probe c hash mtime) _ hsave
    exact .nothing (Or.inl hun) (Or.inl hun) hqueued hconsumed
  | noNewBytes hun htaken hend hpull hsave =>
    rw [if_neg (by simp [hpull])]
    obtain ⟨hqueued, hconsumed⟩ := skip_same s upTo (s.probe c hash mtime) _ (Or.inr hsave)
    exact .nothing (Or.inr (Or.inl hend)) (Or.inr (Or.inl htaken)) hqueued hconsumed
  | elsewhere hun htaken hpull hsave =>
    rw [if_neg (by simp [hpull]), hsave]
    by_cases hmade : upTo = some 0
    · rw [hmade]
      exact .nothing (by simp) (Or.inr (Or.inr rfl)) rfl rfl
    · simp only [Option.toList_some, List.map_cons, List.map_nil]
      rw [foldl_commit_skip s hmade]
      exact .elsewhere hun htaken hmade rfl rfl
  | tail hun htaken hpull hstart =>
    -- the tail is staged, in windows of the configured size
    rw [if_pos hpull, hstart, madeOf_map]
    by_cases hzero : c.sshMaxFileSize = 0
    · rw [stageRange_of_zero hzero]
      cases upTo with
      | none => exact .nothing (Or.inr (Or.inr (Or.inl hzero))) (Or.inr (Or.inl htaken)) rfl rfl
      | some k =>
        rw [show madeOf (some k) ([] : List Span) = [] from List.take_nil]
        exact .nothing (Or.inr (Or.inr (Or.inl hzero))) (Or.inr (Or.inl htaken)) rfl rfl
    have hwindow := Nat.pos_of_ne_zero hzero
    obtain ⟨b, htiles, -, hend⟩ := tiles_stageRange c (Nat.le_refl s.file.length) h.consumed_le
    cases upTo with
    | none =>
      obtain ⟨hqueued, hconsumed⟩ := tiles_foldl_commit s.file.length mtime
        (headHash c hash s.file) htiles hs rfl
      exact .queued hun htaken hwindow hqueued fun _ => hconsumed.trans (hend hwindow)
    | some k =>
      -- a poll that is cut short commits the first windows
      obtain ⟨m, hm, -⟩ := htiles.take k
      obtain ⟨hqueued, -⟩ := tiles_foldl_commit s.file.length mtime
        (headHash c hash s.file) hm hs rfl
      exact .queued hun htaken hwindow hqueued (by simp)

/-! ## §8. No byte is skipped. -/

/-- Where the last complete line of the file ends. -/
def RemoteLog.lastLineEnd (s : RemoteLog Fp) : ℕ := (s.file.rdropWhile (· ≠ newline)).length

/-- A poll that gets to its first transaction and finds the path's recorded size and mtime, while bytes of the
    file lie beyond the recorded offset. -/
def RemoteLog.HalfRead (s : RemoteLog Fp) : FetchEvent Fp → Prop
  | .grow _ => False
  | .poll mtime _ upTo => upTo ≠ some 0 ∧ s.Unchanged mtime ∧ s.consumed < s.file.length

/-- What an event that turns `s` into `s'` leaves: the ranges queued lie end to end from the start of the file to
    the recorded offset, a poll that succeeds leaves no complete line beyond them, and what was half read is
    fetched again, though its size and mtime are unchanged. -/
structure NothingSkipped (s : RemoteLog Fp) (e : FetchEvent Fp) (s' : RemoteLog Fp) : Prop where
  contiguous : Tiles 0 s'.queued s'.consumed
  covered : e.succeeds = true → s'.lastLineEnd ≤ s'.consumed
  refetched : s.HalfRead e → s.queued.length < s'.queued.length

/-- A poll that takes what it has not read for read: the file is half read, and its size and mtime are those
    recorded; or it runs to its end with windows of no bytes while a complete line lies beyond the recorded
    offset; or another path's row answers for bytes that are not queued. -/
def Misled (c : FetchSettings) (hash : Bytes → Fp) (s : RemoteLog Fp) : FetchEvent Fp → Prop
  | .grow _ => False
  | .poll mtime others upTo =>
    s.HalfRead (.poll mtime others upTo) ∨
    (upTo = none ∧ c.sshMaxFileSize = 0 ∧ s.consumed < s.lastLineEnd) ∨
    (upTo ≠ some 0 ∧ ¬ s.Unchanged mtime ∧ TakenElsewhere c hash s mtime others ∧
      s.consumed < s.file.length)

omit [DecidableEq Fp] in
theorem RemoteLog.lastLineEnd_le (s : RemoteLog Fp) : s.lastLineEnd ≤ s.file.length :=
  (List.rdropWhile_prefix _ _).length_le

theorem file_poll (mtime : Mtime) (others : List (FileCheckpoint Fp)) (upTo : Option ℕ) :
    (fetchStep c hash s (.poll mtime others upTo)).file = s.file :=
  file_foldl_commit _ _

theorem lastLineEnd_poll (c : FetchSettings) (hash : Bytes → Fp) (s : RemoteLog Fp) (mtime : Mtime)
    (others : List (FileCheckpoint Fp)) (upTo : Option ℕ) :
    (fetchStep c hash s (.poll mtime others upTo)).lastLineEnd = s.lastLineEnd := by
  unfold RemoteLog.lastLineEnd
  rw [file_poll]

omit [DecidableEq Fp] in
theorem succeeds_poll (mtime : Mtime) (others : List (FileCheckpoint Fp)) (upTo : Option ℕ) :
    (FetchEvent.poll mtime others upTo).succeeds = true ↔ upTo = none := by
  cases upTo with
  | none => exact ⟨fun _ => rfl, fun _ => rfl⟩
  | some k => simp [FetchEvent.succeeds]

/-- **One event skips nothing exactly when it is not misled.** -/
theorem nothingSkipped_step_iff (h : s.Recorded c hash) (hs : Tiles 0 s.queued s.consumed)
    (e : FetchEvent Fp) : NothingSkipped s e (fetchStep c hash s e) ↔ ¬ Misled c hash s e := by
  cases e with
  | grow bytes => exact ⟨fun _ => id, fun _ => ⟨hs, fun hf => absurd hf (by simp [FetchEvent.succeeds]), False.elim⟩⟩
  | poll mtime others upTo =>
    have hlines := s.lastLineEnd_le
    have hle := h.consumed_le
    have hcase := poll_cases h hs mtime others upTo
    have hline := lastLineEnd_poll c hash s mtime others upTo
    generalize fetchStep c hash s (.poll mtime others upTo) = s' at hcase hline ⊢
    cases hcase with
    | nothing hwhy htaken hqueued hconsumed =>
      constructor
      · intro hsound hmisled
        rcases hmisled with hhalf | ⟨hnone, -, hlt⟩ | ⟨hmade, hun, htaken', -⟩
        · have hmore := hsound.refetched hhalf
          rw [hqueued] at hmore
          omega
        · have hcovered := hsound.covered ((succeeds_poll _ _ _).mpr hnone)
          omega
        · rcases htaken with hsame | hnot | hzero
          · exact hun hsame
          · exact hnot htaken'
          · exact hmade hzero
      · intro hnot
        refine ⟨by rw [hqueued, hconsumed]; exact hs, fun hsucc => ?_, fun hhalf => absurd (Or.inl hhalf) hnot⟩
        have hnone := (succeeds_poll _ _ _).mp hsucc
        rw [hline, hconsumed]
        by_contra hlt
        have hlt : s.consumed < s.lastLineEnd := by omega
        rcases hwhy with hsame | hend | hzero | hfailed
        · exact hnot (Or.inl ⟨by simp [hnone], hsame, by omega⟩)
        · omega
        · exact hnot (Or.inr (Or.inl ⟨hnone, hzero, hlt⟩))
        · exact hfailed hnone
    | elsewhere hun htaken hmade hqueued hconsumed =>
      constructor
      · intro hsound hmisled
        -- a tiling has one end, so the offset the skip records is where the queue ended before
        have hend : s.consumed = s.file.length := by
          have htiles := hsound.contiguous
          rw [hqueued, hconsumed] at htiles
          exact hs.unique htiles
        rcases hmisled with ⟨-, -, hlt⟩ | ⟨-, -, hlt⟩ | ⟨-, -, -, hlt⟩ <;> omega
      · intro hnot
        have hend : s.consumed = s.file.length := by
          by_contra hne
          exact hnot (Or.inr (Or.inr ⟨hmade, hun, htaken, by omega⟩))
        refine ⟨?_, fun _ => ?_, fun hhalf => absurd hhalf.2.1 hun⟩
        · rw [hqueued, hconsumed, ← hend]
          exact hs
        · omega
    | queued hun htaken hwindow htiles hend =>
      constructor
      · intro _ hmisled
        rcases hmisled with ⟨-, hsame, -⟩ | ⟨-, hzero, -⟩ | ⟨-, -, htaken', -⟩
        · exact hun hsame
        · omega
        · exact htaken htaken'
      · intro _
        refine ⟨htiles, fun hsucc => ?_, fun hhalf => absurd hhalf.2.1 hun⟩
        have hdone := hend ((succeeds_poll _ _ _).mp hsucc)
        omega

/-- A property of every event of a run and the state before it. -/
def AtEvery (c : FetchSettings) (hash : Bytes → Fp) (file : Bytes) (events : List (FetchEvent Fp))
    (P : FetchEvent Fp → RemoteLog Fp → Prop) : Prop :=
  ∀ before e after, events = before ++ e :: after → P e (runFetch c hash { file := file } before)

theorem runFetch_concat (file : Bytes) (before : List (FetchEvent Fp)) (e : FetchEvent Fp) :
    runFetch c hash { file := file } (before ++ [e]) =
      fetchStep c hash (runFetch c hash { file := file } before) e := by
  simp [runFetch]

theorem recorded_run (c : FetchSettings) (hash : Bytes → Fp) (file : Bytes) (events : List (FetchEvent Fp)) :
    (runFetch c hash { file := file } events).Recorded c hash := by
  induction events using List.reverseRecOn with
  | nil => exact ⟨nofun, nofun, nofun⟩
  | append_singleton before e ih =>
    rw [runFetch_concat]
    exact ih.step e

/-- What each event keeps, the run has: the ranges of every state lie end to end. -/
theorem tiles_run {file : Bytes} {events : List (FetchEvent Fp)}
    (h : AtEvery c hash file events fun e s =>
      Tiles 0 s.queued s.consumed → Tiles 0 (fetchStep c hash s e).queued (fetchStep c hash s e).consumed)
    (before after : List (FetchEvent Fp)) (heq : events = before ++ after) :
    Tiles 0 (runFetch c hash { file := file } before).queued (runFetch c hash { file := file } before).consumed := by
  induction before using List.reverseRecOn generalizing after with
  | nil => rfl
  | append_singleton before e ih =>
    rw [runFetch_concat]
    have heq : events = before ++ e :: after := by simpa using heq
    exact h before e after heq (ih (e :: after) heq)

/-- **In a run no byte is skipped exactly when no poll of it is misled.** -/
theorem nothing_skipped_iff (c : FetchSettings) (hash : Bytes → Fp) (file : Bytes)
    (events : List (FetchEvent Fp)) :
    (AtEvery c hash file events fun e s => NothingSkipped s e (fetchStep c hash s e)) ↔
      AtEvery c hash file events fun e s => ¬ Misled c hash s e := by
  constructor
  · intro h before e after heq
    have htiles := tiles_run (fun b x a hx _ => (h b x a hx).contiguous) before (e :: after) heq
    exact (nothingSkipped_step_iff (recorded_run c hash file before) htiles e).mp (h before e after heq)
  · intro h before e after heq
    have htiles := tiles_run (fun b x a hx hs =>
      ((nothingSkipped_step_iff (recorded_run c hash file b) hs x).mpr (h b x a hx)).contiguous)
      before (e :: after) heq
    exact (nothingSkipped_step_iff (recorded_run c hash file before) htiles e).mpr (h before e after heq)

/-- Two lines in windows of one line each; the first poll fails after the first window. -/
def halfRead : List (FetchEvent Bytes) := [.poll 5 [] (some 1), .poll 5 [] none]

/-- The file does not grow, the next poll succeeds, and the second line is never queued. -/
theorem halfRead_skips : ¬ ∀ (c : FetchSettings) (hash : Bytes → Bytes) (file : Bytes)
    (events : List (FetchEvent Bytes)),
    AtEvery c hash file events fun e s => NothingSkipped s e (fetchStep c hash s e) := by
  intro h
  have hcovered := (h ⟨2, 1⟩ id [65, 10, 66, 10] halfRead [.poll 5 [] (some 1)] (.poll 5 [] none) [] rfl).covered rfl
  revert hcovered
  decide

end RagPipeline.Ingest
