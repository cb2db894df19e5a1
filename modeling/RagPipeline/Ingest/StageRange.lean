/-
  RagPipeline.Ingest.StageRange — `_stage_range` with what it reads, saves and commits, turn by turn.

  A turn may fail at its read, at the storage or at the commit; a read may return less than it was asked for.
  The queue row and the checkpoint are one transaction.

    * `commit_staged`     — one turn adds a row that begins where the last one ended;
    * `stageLoop_staged`  — the loop ends, and what it has committed is a tiling;
    * `stageRange_tiles`  — the rows, their bytes and their checkpoints, whatever fails;
    * `stageLoop_whole`   — when nothing fails, the rows are the windows of `stageRange`.
-/
import RagPipeline.Ingest.RemoteFetch
import RagPipeline.Ingest.SourceQueue

namespace RagPipeline.Ingest

variable {Fp : Type}

/-! ## §1. The download. -/

/-- What `_stage_range` is handed. -/
structure StageJob (Fp : Type) where
  customerCode : String
  sourceName : String
  remotePath : String
  size : ℕ
  mtime : Mtime
  headFp : Option Fp
  maxAttempts : ℕ

/-- `LogSourceObject`, as it is queued. -/
structure QueuedObject (Fp : Type) where
  customerCode : String
  sourceName : String
  remotePath : String
  startOffset : ℕ
  endOffset : ℕ
  observedSize : ℕ
  observedMtime : Mtime
  headFingerprint : Option Fp
  storageKey : String
  status : SourceObjectStatus := .pending
  maxAttempts : ℕ

/-- The range of a row. -/
def QueuedObject.span (o : QueuedObject Fp) : Span := ⟨o.startOffset, o.endOffset⟩

/-- One transaction, and the bytes that were saved before it. -/
structure StageCommit (Fp : Type) where
  row : QueuedObject Fp
  checkpoint : FileCheckpoint Fp
  data : Bytes

/-- The world at each turn: what a read returns (`none` is an exception), whether the storage takes the file and
the database the transaction, and the fresh part of a storage key. -/
structure StageWorld where
  read : ℕ → ℕ → ℕ → Option Bytes
  saves : ℕ → Bool
  commits : ℕ → Bool
  hex : ℕ → String

/-- The variables of the loop, and what it has written. -/
structure StageState (Fp : Type) where
  offset : ℕ
  bytesRead : ℕ := 0
  queued : ℕ := 0
  saved : List (String × Bytes) := []
  committed : List (StageCommit Fp) := []

/-- `_basename`. -/
def basename (remotePath : String) : String :=
  let trimmed := (remotePath.toList.rdropWhile (· = '/')).rtakeWhile (· ≠ '/')
  if trimmed = [] then remotePath else String.ofList trimmed

/-- `data[: data.rfind(b"\n") + 1]`, all of it without a newline, or at the end of the file. -/
def stageCut (size offset : ℕ) (data : Bytes) : Bytes :=
  if size ≤ offset + data.length then data
  else
    let lines := data.rdropWhile (· ≠ newline)
    if lines = [] then data else lines

/-- `_queue_and_checkpoint`. -/
def StageJob.transaction (job : StageJob Fp) (key : String) (offset : ℕ) (data : Bytes) : StageCommit Fp where
  row := {
    customerCode := job.customerCode
    sourceName := job.sourceName
    remotePath := job.remotePath
    startOffset := offset
    endOffset := offset + data.length
    observedSize := job.size
    observedMtime := job.mtime
    headFingerprint := job.headFp
    storageKey := key
    maxAttempts := job.maxAttempts }
  checkpoint := ⟨job.size, job.mtime, offset + data.length, job.headFp⟩
  data := data

/-- The key of the file that a turn saves. -/
def StageJob.storageKey (job : StageJob Fp) (hex : String) : String :=
  job.customerCode ++ "/" ++ hex ++ "/" ++ job.sourceName ++ "-" ++ basename job.remotePath

/-- The file is saved. -/
def StageState.save (s : StageState Fp) (key : String) (data : Bytes) : StageState Fp :=
  { s with saved := s.saved ++ [(key, data)] }

/-- The transaction is committed, and the loop goes on behind it. -/
def StageState.commit (s : StageState Fp) (t : StageCommit Fp) : StageState Fp :=
  { s with
    offset := t.row.endOffset
    bytesRead := s.bytesRead + t.data.length
    queued := s.queued + 1
    committed := s.committed ++ [t] }

/-- The loop of `_stage_range`: where it stands when it ends, and whether by an exception. -/
def stageLoop (w : StageWorld) (c : FetchSettings) (job : StageJob Fp) :
    ℕ → StageState Fp → Option (StageState Fp × Bool)
  | 0, _ => none
  | fuel + 1, s =>
    if s.offset < job.size then
      match w.read s.queued (min c.sshMaxFileSize (job.size - s.offset)) s.offset with
      | none => some (s, true)
      | some [] => some (s, false)
      | some (b :: bs) =>
        let data := stageCut job.size s.offset (b :: bs)
        let key := job.storageKey (w.hex s.queued)
        if w.saves s.queued then
          let s' := s.save key data
          if w.commits s.queued then
            stageLoop w c job fuel (s'.commit (job.transaction key s.offset data))
          else some (s', true)
        else some (s, true)
    else some (s, false)

/-! ## §2. One turn. -/

/-- What is cut off is behind the last newline. -/
theorem stageCut_begins (size offset : ℕ) (data : Bytes) : stageCut size offset data <+: data := by
  unfold stageCut
  split
  · exact List.prefix_rfl
  · simp only []
    split
    · exact List.prefix_rfl
    · exact List.rdropWhile_prefix _ _

theorem stageCut_ne_nil (size offset : ℕ) {data : Bytes} (h : data ≠ []) : stageCut size offset data ≠ [] := by
  unfold stageCut
  split
  · exact h
  · simp only []
    split
    · exact h
    · next hlines => exact hlines

/-- **Where a piece ends**: at the size, at a newline, or it has none. -/
theorem stageCut_ends (size offset : ℕ) (data : Bytes) :
    size ≤ offset + (stageCut size offset data).length ∨ newline ∉ stageCut size offset data ∨
      (stageCut size offset data).getLast? = some newline := by
  unfold stageCut
  split
  · next hend => exact Or.inl hend
  · simp only []
    split
    · next hlines =>
      refine Or.inr (Or.inl fun hmem => ?_)
      have hall := List.rdropWhile_eq_nil_iff.mp hlines newline hmem
      simp at hall
    · next hlines =>
      refine Or.inr (Or.inr ?_)
      have hlast := List.rdropWhile_last_not (fun b => decide (b ≠ newline)) data hlines
      rw [List.getLast?_eq_some_getLast hlines]
      simpa using hlast

/-- What a committed row is. -/
structure StageCommit.Sound (job : StageJob Fp) (saved : List (String × Bytes)) (t : StageCommit Fp) : Prop where
  /-- the checkpoint stands at the end of the row -/
  checkpoint : t.checkpoint.lastOffset = t.row.endOffset
  /-- the row is its bytes, and they are saved -/
  length : t.row.endOffset = t.row.startOffset + t.data.length
  nonempty : t.data ≠ []
  stored : (t.row.storageKey, t.data) ∈ saved
  /-- it ends where a line ends -/
  ends : job.size ≤ t.row.endOffset ∨ newline ∉ t.data ∨ t.data.getLast? = some newline

/-- What the loop has written from `start` on. -/
structure StageState.Staged (job : StageJob Fp) (start : ℕ) (s : StageState Fp) : Prop where
  tiles : Tiles start (s.committed.map fun t => t.row.span) s.offset
  sound : ∀ t ∈ s.committed, t.Sound job s.saved
  bytesRead : s.offset = start + s.bytesRead
  queued : s.queued = s.committed.length

theorem staged_start (job : StageJob Fp) (start : ℕ) : StageState.Staged job start { offset := start } where
  tiles := rfl
  sound := fun _ h => absurd h List.not_mem_nil
  bytesRead := rfl
  queued := rfl

section Turn

variable {job : StageJob Fp} {start : ℕ} {s : StageState Fp}

/-- A file more does not matter. -/
theorem StageState.Staged.save (h : s.Staged job start) (key : String) (data : Bytes) :
    (s.save key data).Staged job start where
  tiles := h.tiles
  sound := fun t ht =>
    { h.sound t ht with stored := List.mem_append_left _ (h.sound t ht).stored }
  bytesRead := h.bytesRead
  queued := h.queued

/-- **One turn** adds a row that begins where the last one ended. -/
theorem StageState.Staged.commit (h : s.Staged job start) {key : String} {data : Bytes} (hdata : data ≠ [])
    (hsaved : (key, data) ∈ s.saved)
    (hends : job.size ≤ s.offset + data.length ∨ newline ∉ data ∨ data.getLast? = some newline) :
    (s.commit (job.transaction key s.offset data)).Staged job start where
  tiles := by
    show Tiles start ((s.committed ++ [job.transaction key s.offset data]).map fun t => t.row.span)
      (s.offset + data.length)
    rw [List.map_append, tiles_append]
    exact ⟨s.offset, h.tiles, rfl, Nat.le_add_right _ _, rfl⟩
  sound := by
    intro t ht
    cases List.mem_append.mp ht with
    | inl hold => exact h.sound t hold
    | inr hnew =>
      obtain rfl := List.mem_singleton.mp hnew
      exact ⟨rfl, rfl, hdata, hsaved, hends⟩
  bytesRead := by
    show s.offset + data.length = start + (s.bytesRead + data.length)
    rw [h.bytesRead, Nat.add_assoc]
  queued := by
    show s.queued + 1 = (s.committed ++ [job.transaction key s.offset data]).length
    rw [h.queued, List.length_append, List.length_singleton]

end Turn

/-! ## §3. The loop. -/

/-- The reads are of a file with these bytes; they may be short. -/
def StageWorld.Serves (w : StageWorld) (content : Bytes) : Prop :=
  ∀ n size offset data, w.read n size offset = some data → data <+: (content.drop offset).take size

/-- The bytes of the rows are those of the file. -/
def StageState.Copies (content : Bytes) (start : ℕ) (s : StageState Fp) : Prop :=
  (∀ t ∈ s.committed, t.data = (content.drop t.row.startOffset).take t.data.length) ∧
    s.committed.flatMap StageCommit.data = (content.drop start).take (s.offset - start)

section Loop

variable (w : StageWorld) (c : FetchSettings) (job : StageJob Fp)

/-- A turn that ends the loop, whatever fuel is left. -/
theorem stageLoop_stops {s s' : StageState Fp} {raised : Bool} {n : ℕ}
    (hturn : ∀ fuel, stageLoop w c job (fuel + 1) s = some (s', raised)) :
    ∀ fuel, n < fuel → stageLoop w c job fuel s = some (s', raised) := by
  intro fuel hfuel
  obtain ⟨fuel, rfl⟩ := Nat.exists_eq_succ_of_ne_zero (Nat.ne_zero_of_lt hfuel)
  exact hturn fuel

/-- One property of the states of the loop that its turns keep holds at its end, which it reaches. -/
theorem stageLoop_induction {P : StageState Fp → Prop}
    (hsave : ∀ s key data, P s → P (s.save key data))
    (hturn : ∀ s b bs key, P s → s.offset < job.size →
      w.read s.queued (min c.sshMaxFileSize (job.size - s.offset)) s.offset = some (b :: bs) →
      (key, stageCut job.size s.offset (b :: bs)) ∈ s.saved →
      P (s.commit (job.transaction key s.offset (stageCut job.size s.offset (b :: bs)))))
    (n : ℕ) {s : StageState Fp} (hn : job.size - s.offset ≤ n) (hs : P s) :
    ∃ s' raised, P s' ∧ ∀ fuel, n < fuel → stageLoop w c job fuel s = some (s', raised) := by
  induction n generalizing s with
  | zero =>
    have hend : ¬s.offset < job.size := by omega
    refine ⟨s, false, hs, stageLoop_stops w c job fun fuel => ?_⟩
    rw [stageLoop, if_neg hend]
  | succ n ih =>
    by_cases hmore : s.offset < job.size
    · cases hread : w.read s.queued (min c.sshMaxFileSize (job.size - s.offset)) s.offset with
      | none =>
        refine ⟨s, true, hs, stageLoop_stops w c job fun fuel => ?_⟩
        rw [stageLoop, if_pos hmore, hread]
      | some read =>
        cases read with
        | nil =>
          refine ⟨s, false, hs, stageLoop_stops w c job fun fuel => ?_⟩
          rw [stageLoop, if_pos hmore, hread]
        | cons b bs =>
          by_cases hsaves : w.saves s.queued = true
          · have hsaved := hsave s (job.storageKey (w.hex s.queued)) (stageCut job.size s.offset (b :: bs)) hs
            by_cases hcommits : w.commits s.queued = true
            · -- the piece is not empty, so less is left
              have hcut := stageCut_ne_nil job.size s.offset (List.cons_ne_nil b bs)
              have hlen := List.length_pos_iff.mpr hcut
              have hnext := hturn (s.save (job.storageKey (w.hex s.queued)) (stageCut job.size s.offset (b :: bs)))
                b bs (job.storageKey (w.hex s.queued)) hsaved hmore hread
                (List.mem_append_right _ List.mem_cons_self)
              obtain ⟨s', raised, hs', hrun⟩ := ih (s := (s.save (job.storageKey (w.hex s.queued))
                  (stageCut job.size s.offset (b :: bs))).commit (job.transaction (job.storageKey (w.hex s.queued))
                  s.offset (stageCut job.size s.offset (b :: bs))))
                (show job.size - (s.offset + (stageCut job.size s.offset (b :: bs)).length) ≤ n by omega) hnext
              refine ⟨s', raised, hs', fun fuel hfuel => ?_⟩
              obtain ⟨fuel, rfl⟩ := Nat.exists_eq_succ_of_ne_zero (Nat.ne_zero_of_lt hfuel)
              rw [stageLoop, if_pos hmore, hread]
              simp only [hsaves, hcommits, if_true]
              exact hrun fuel (Nat.lt_of_succ_lt_succ hfuel)
            · refine ⟨_, true, hsaved, stageLoop_stops w c job fun fuel => ?_⟩
              rw [stageLoop, if_pos hmore, hread]
              simp [hsaves, hcommits]
          · refine ⟨s, true, hs, stageLoop_stops w c job fun fuel => ?_⟩
            rw [stageLoop, if_pos hmore, hread]
            simp [hsaves]
    · refine ⟨s, false, hs, stageLoop_stops w c job fun fuel => ?_⟩
      rw [stageLoop, if_neg hmore]

/-- A piece of a read of the file is the file's bytes there. -/
theorem copies_turn {content : Bytes} (hserves : w.Serves content) {start : ℕ} {s : StageState Fp}
    (hstart : start ≤ s.offset) (hs : s.Copies content start) {b : UInt8} {bs : Bytes} (key : String)
    (hread : w.read s.queued (min c.sshMaxFileSize (job.size - s.offset)) s.offset = some (b :: bs)) :
    (s.commit (job.transaction key s.offset (stageCut job.size s.offset (b :: bs)))).Copies content start := by
  have hbegins : stageCut job.size s.offset (b :: bs) <+: content.drop s.offset :=
    ((stageCut_begins _ _ _).trans (hserves _ _ _ _ hread)).trans (List.take_prefix _ _)
  have hdata := List.prefix_iff_eq_take.mp hbegins
  constructor
  · intro t ht
    cases List.mem_append.mp ht with
    | inl hold => exact hs.1 t hold
    | inr hnew =>
      obtain rfl := List.mem_singleton.mp hnew
      exact hdata
  · show (s.committed ++ [job.transaction key s.offset _]).flatMap StageCommit.data =
      (content.drop start).take (s.offset + (stageCut job.size s.offset (b :: bs)).length - start)
    rw [List.flatMap_append, List.flatMap_singleton, hs.2, Nat.sub_add_comm hstart, List.take_add, List.drop_drop]
    rw [Nat.add_sub_cancel' hstart]
    exact congrArg _ hdata

/-- **`_stage_range` tiles what it fetched.**  The loop ends.  Its rows cover the bytes from the start to where
it stands, each is what it has saved, stands with its own checkpoint, and ends where a line does unless it
reaches the size or holds no newline; the counts are right; and the rows hold the bytes of the file, if the
reads are of one file. -/
theorem stageRange_tiles (start : ℕ) :
    ∃ (s : StageState Fp) (raised : Bool),
      (∀ fuel, job.size - start < fuel → stageLoop w c job fuel { offset := start } = some (s, raised)) ∧
      s.Staged job start ∧ ∀ content, w.Serves content → s.Copies content start := by
  obtain ⟨s, raised, ⟨hstaged, hcopies⟩, hrun⟩ := stageLoop_induction w c job
    (P := fun s => s.Staged job start ∧ ∀ content, w.Serves content → s.Copies content start)
    (fun s key data hs => ⟨hs.1.save key data, hs.2⟩)
    (fun s b bs key hs _ hread hsaved =>
      ⟨hs.1.commit (stageCut_ne_nil _ _ (List.cons_ne_nil b bs)) hsaved (stageCut_ends _ _ _),
        fun content hserves => copies_turn w c job hserves (hs.1.bytesRead ▸ Nat.le_add_right _ _)
          (hs.2 content hserves) key hread⟩)
    (job.size - start) (s := { offset := start }) le_rfl
    ⟨staged_start job start, fun content _ => ⟨fun _ h => absurd h List.not_mem_nil, by simp⟩⟩
  exact ⟨s, raised, hrun, hstaged, hcopies⟩

/-! ## §4. When nothing fails. -/

/-- Every read is whole, every file is saved and every transaction committed. -/
structure StageWorld.Whole (content : Bytes) : Prop where
  read : ∀ n size offset, w.read n size offset = some ((content.drop offset).take size)
  saves : ∀ n, w.saves n = true
  commits : ∀ n, w.commits n = true

/-- One window of the poll is one piece of the loop. -/
theorem stageWindow_eq (content : Bytes) (size offset : ℕ) : stageWindow c content size offset =
    stageCut size offset ((content.drop offset).take (min c.sshMaxFileSize (size - offset))) := rfl

/-- **The rows of a whole download** are the windows that a poll counts on. -/
theorem stageLoop_whole {content : Bytes} (h : w.Whole content) (fuel : ℕ) {s s' : StageState Fp} {raised : Bool}
    (hrun : stageLoop w c job (fuel + 1) s = some (s', raised)) :
    s'.committed.map (fun t => t.row.span) =
      s.committed.map (fun t => t.row.span) ++ stageFrom c content job.size fuel s.offset := by
  induction fuel generalizing s with
  | zero =>
    rw [stageLoop, h.read] at hrun
    split at hrun
    · cases hread : (content.drop s.offset).take (min c.sshMaxFileSize (job.size - s.offset)) with
      | nil =>
        rw [hread] at hrun
        obtain ⟨rfl, -⟩ := Prod.mk.inj (Option.some.inj hrun)
        exact (List.append_nil _).symm
      | cons b bs =>
        rw [hread] at hrun
        simp only [h.saves, h.commits, if_true] at hrun
        cases hrun
    · obtain ⟨rfl, -⟩ := Prod.mk.inj (Option.some.inj hrun)
      exact (List.append_nil _).symm
  | succ fuel ih =>
    rw [stageLoop, h.read] at hrun
    rw [stageFrom]
    split at hrun
    · next hmore =>
      rw [if_pos hmore, stageWindow_eq]
      cases hread : (content.drop s.offset).take (min c.sshMaxFileSize (job.size - s.offset)) with
      | nil =>
        rw [hread] at hrun
        obtain ⟨rfl, -⟩ := Prod.mk.inj (Option.some.inj hrun)
        -- nothing was read, and nothing is cut
        have hnil : stageCut job.size s.offset [] = [] := List.prefix_nil.mp (stageCut_begins _ _ _)
        rw [hnil]
        exact (List.append_nil _).symm
      | cons b bs =>
        rw [hread] at hrun
        simp only [h.saves, h.commits, if_true] at hrun
        have hcut := stageCut_ne_nil job.size s.offset (List.cons_ne_nil b bs)
        simp only [if_neg hcut]
        rw [ih hrun]
        show (s.committed ++ [_]).map (fun t : StageCommit Fp => t.row.span) ++ _ = _
        rw [List.map_append, List.append_assoc]
        rfl
    · next hend =>
      obtain ⟨rfl, -⟩ := Prod.mk.inj (Option.some.inj hrun)
      rw [if_neg hend]
      exact (List.append_nil _).symm

end Loop

end RagPipeline.Ingest
