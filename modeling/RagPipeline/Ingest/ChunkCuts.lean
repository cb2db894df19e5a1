/-
  RagPipeline.Ingest.ChunkCuts — when the chunks of a log file are stored as the file would be.

  The fetcher cuts a growing file where a poll's read ends: at a newline or at the end the file had, and
  so also inside an entry.  The parser sees one chunk at a time: what follows the cut has no header and is
  ignored, and what precedes it is stored as an entry of its own.

    * `decode_append`, `splitLines_append`, `splitEntries_append` — each stage splits at a clean cut;
    * `mem_parseInsert`   — what a chunk adds to the table when its rows fit;
    * `contents_concat`   — the entries of a file, chunk by chunk, when every cut is clean;
    * `chunks_lossless`   — so in every run of growth and polls;
    * `cutEntry_differs`  — and not where a cut falls inside an entry.
-/
import RagPipeline.Ingest.ParseInsert

namespace RagPipeline.Ingest

open RagPipeline.Lib RagPipeline.Stage2

/-! ## §1. Bytes, lines and entries at a cut. -/

/-- A newline byte ends what is before it, and after it the decoder starts anew. -/
theorem decodeFrom_append (s : Utf8State) (a b : Bytes) :
    decodeFrom s (a ++ newline :: b) = decodeFrom s a ++ '\n' :: decode b := by
  induction a generalizing s with
  | nil =>
    cases s with
    | idle => rfl
    | inside left lo hi code hlo =>
      have hout : ¬ (lo ≤ newline.toNat ∧ newline.toNat ≤ hi) := by
        intro h
        have hten : newline.toNat = 10 := rfl
        omega
      have hstep : utf8Step (.inside left lo hi code hlo) newline.toNat = ([replacement, '\n'], .idle) :=
        if_neg hout
      show (utf8Step (.inside left lo hi code hlo) newline.toNat).1 ++
        decodeFrom (utf8Step (.inside left lo hi code hlo) newline.toNat).2 b = _
      rw [hstep]
      rfl
  | cons x a ih =>
    have hone : ∀ bytes, decodeFrom s (x :: bytes) =
        (utf8Step s x.toNat).1 ++ decodeFrom (utf8Step s x.toNat).2 bytes := by
      intro bytes
      cases s <;> rfl
    rw [List.cons_append, hone, hone, ih, List.append_assoc]

theorem decode_append (a b : Bytes) : decode (a ++ newline :: b) = decode a ++ '\n' :: decode b :=
  decodeFrom_append .idle a b

theorem splitLines_cons {c : Char} {rest : LogText} (cur : LogText)
    (h : ∀ r, c = '\r' → rest = '\n' :: r → False) :
    splitLines cur (c :: rest) =
      if isLineBreak c then cur :: splitLines [] rest else splitLines (cur ++ [c]) rest := by
  rw [splitLines]
  exact h

theorem splitLines_newline (cur rest : LogText) : splitLines cur ('\n' :: rest) = cur :: splitLines [] rest := by
  rw [splitLines_cons cur (by intro r h; cases h)]
  rfl

/-- A line break ends the line, and the next one starts anew. -/
theorem splitLines_append (cur t u : LogText) :
    splitLines cur (t ++ '\n' :: u) = splitLines cur (t ++ ['\n']) ++ splitLines [] u := by
  have hlast : ∀ cur : LogText, splitLines cur ('\n' :: u) = splitLines cur ['\n'] ++ splitLines [] u := by
    intro cur
    rw [splitLines_newline, splitLines_newline]
    rfl
  -- a `\r` at the end of `t` takes the line break with it
  have hreturn : ∀ cur : LogText, splitLines cur ('\r' :: '\n' :: u) =
      splitLines cur ['\r', '\n'] ++ splitLines [] u := fun cur => rfl
  fun_induction splitLines cur t with
  | case1 cur hempty => exact hlast cur
  | case2 cur hne => exact hlast cur
  | case3 cur rest ih =>
    show cur :: splitLines [] (rest ++ '\n' :: u) = cur :: splitLines [] (rest ++ ['\n']) ++ _
    rw [ih]
    rfl
  | case4 cur c rest hnot hc ih =>
    cases rest with
    | nil =>
      -- the last character of `t`
      by_cases hcr : c = '\r'
      · rw [hcr]
        exact hreturn cur
      · rw [List.cons_append, List.cons_append, splitLines_cons cur fun r h => absurd h hcr,
          splitLines_cons cur fun r h => absurd h hcr, if_pos hc, if_pos hc, ih]
        rfl
    | cons d rest =>
      -- what follows the next character does not matter
      have hkeep : ∀ v r, c = '\r' → d :: (rest ++ v) = '\n' :: r → False := by
        intro v r hcr heq
        exact hnot rest hcr (by rw [(List.cons.inj heq).1])
      have hstep : ∀ v, splitLines cur (c :: (d :: rest ++ v)) = cur :: splitLines [] (d :: rest ++ v) := by
        intro v
        rw [List.cons_append, splitLines_cons cur (hkeep v), if_pos hc]
      show splitLines cur (c :: (d :: rest ++ '\n' :: u)) = splitLines cur (c :: (d :: rest ++ ['\n'])) ++ _
      rw [hstep, hstep, ih]
      rfl
  | case5 cur c rest hnot hc ih =>
    cases rest with
    | nil =>
      by_cases hcr : c = '\r'
      · rw [hcr]
        exact hreturn cur
      · rw [List.cons_append, List.cons_append, splitLines_cons cur fun r h => absurd h hcr,
          splitLines_cons cur fun r h => absurd h hcr, if_neg hc, if_neg hc, ih]
    | cons d rest =>
      have hkeep : ∀ v r, c = '\r' → d :: (rest ++ v) = '\n' :: r → False := by
        intro v r hcr heq
        exact hnot rest hcr (by rw [(List.cons.inj heq).1])
      have hstep : ∀ v, splitLines cur (c :: (d :: rest ++ v)) = splitLines (cur ++ [c]) (d :: rest ++ v) := by
        intro v
        rw [List.cons_append, splitLines_cons cur (hkeep v), if_neg hc]
      show splitLines cur (c :: (d :: rest ++ '\n' :: u)) = splitLines cur (c :: (d :: rest ++ ['\n'])) ++ _
      rw [hstep, hstep, ih]

/-- The lines of some bytes. -/
def linesOf (data : Bytes) : List LogText := splitLines [] (decode data)

/-- The bytes end with a line. -/
def EndsLine (data : Bytes) : Prop := ∃ a, data = a ++ [newline]

theorem linesOf_newline (a b : Bytes) : linesOf (a ++ newline :: b) = linesOf (a ++ [newline]) ++ linesOf b := by
  unfold linesOf
  rw [decode_append, decode_append, splitLines_append]
  rfl

theorem linesOf_append {a b : Bytes} (h : EndsLine a) : linesOf (a ++ b) = linesOf a ++ linesOf b := by
  obtain ⟨a, rfl⟩ := h
  rw [List.append_assoc, List.singleton_append, linesOf_newline]

section Entries

variable {Hash : Type} (w : ParserWorld Hash)

/-- The first line, if there is one, is a header. -/
def StartsEntry (lines : List LogText) : Prop := ∀ l, lines.head? = some l → isHeader w l = true

/-- An entry without its line number. -/
def RawEntry.content (e : RawEntry) : LogText × List LogText := (e.header, e.body)

/-- A header ends the open entry and starts one; another line belongs to the open entry. -/
theorem splitEntries_cons (cur : Option RawEntry) (idx : ℕ) (l : LogText) (lines : List LogText) :
    splitEntries w cur idx (l :: lines) =
      if isHeader w l then cur.toList ++ splitEntries w (some ⟨l, [], idx⟩) (idx + 1) lines
      else splitEntries w (cur.map fun e => { e with body := e.body ++ [l] }) (idx + 1) lines := rfl

/-- Entries do not depend on where the lines are counted from. -/
theorem splitEntries_content (cur cur' : Option RawEntry)
    (hcur : cur.map RawEntry.content = cur'.map RawEntry.content)
    (idx idx' : ℕ) (lines : List LogText) :
    (splitEntries w cur idx lines).map RawEntry.content =
      (splitEntries w cur' idx' lines).map RawEntry.content := by
  have hlist : cur.toList.map RawEntry.content = cur'.toList.map RawEntry.content := by
    rw [← Option.toList_map, ← Option.toList_map, hcur]
  induction lines generalizing cur cur' idx idx' with
  | nil => exact hlist
  | cons l lines ih =>
    rw [splitEntries_cons, splitEntries_cons]
    split
    · rw [List.map_append, List.map_append, hlist]
      exact congrArg _ (ih (some ⟨l, [], idx⟩) (some ⟨l, [], idx'⟩) rfl _ _ rfl)
    · -- the open record takes the line, and where it began is not looked at
      have hgrow : ∀ o : Option RawEntry, (o.map fun e => { e with body := e.body ++ [l] }).map RawEntry.content =
          (o.map RawEntry.content).map fun p => (p.1, p.2 ++ [l]) := by
        intro o
        cases o <;> rfl
      have hmore : (cur.map fun e => { e with body := e.body ++ [l] }).map RawEntry.content =
          (cur'.map fun e => { e with body := e.body ++ [l] }).map RawEntry.content := by
        rw [hgrow, hgrow, hcur]
      refine ih _ _ hmore _ _ ?_
      rw [← Option.toList_map, ← Option.toList_map, hmore]

/-- At a header the open entry is done. -/
theorem splitEntries_append (cur : Option RawEntry) (idx : ℕ) (a : List LogText) {b : List LogText}
    (h : StartsEntry w b) :
    splitEntries w cur idx (a ++ b) = splitEntries w cur idx a ++ splitEntries w none (idx + a.length) b := by
  induction a generalizing cur idx with
  | nil =>
    cases b with
    | nil => exact (List.append_nil _).symm
    | cons l b =>
      have hl := h l rfl
      show splitEntries w cur idx (l :: b) = cur.toList ++ splitEntries w none idx (l :: b)
      rw [splitEntries_cons, splitEntries_cons, if_pos hl, if_pos hl]
      rfl
  | cons l a ih =>
    have hidx : idx + (l :: a).length = idx + 1 + a.length := by
      rw [List.length_cons]
      omega
    rw [List.cons_append, hidx, splitEntries_cons, splitEntries_cons]
    split
    · rw [ih, List.append_assoc]
    · exact ih _ _

/-- Before the first header nothing is kept. -/
theorem splitEntries_none (idx : ℕ) (a b : List LogText) (h : ∀ l ∈ a, isHeader w l = false) :
    splitEntries w none idx (a ++ b) = splitEntries w none (idx + a.length) b := by
  induction a generalizing idx with
  | nil => rfl
  | cons l a ih =>
    have hl := h l List.mem_cons_self
    rw [List.cons_append, splitEntries_cons, if_neg (by simp [hl]), List.length_cons, Nat.add_comm a.length,
      ← Nat.add_assoc]
    exact ih (idx + 1) fun l' hl' => h l' (List.mem_cons_of_mem _ hl')

/-! ## §2. The entries of some bytes. -/

/-- The entries that some lines make. -/
def contentsOfLines (lines : List LogText) : List (LogText × List LogText) :=
  (splitEntries w none 1 lines).map RawEntry.content

/-- The entries that some bytes make. -/
def contentsOf (data : Bytes) : List (LogText × List LogText) := contentsOfLines w (linesOf data)

/-- They can be read off with the lines counted from anywhere. -/
theorem contentsOfLines_eq (idx : ℕ) (lines : List LogText) :
    contentsOfLines w lines = (splitEntries w none idx lines).map RawEntry.content :=
  splitEntries_content w none none rfl 1 idx lines

theorem contentsOfLines_append (a : List LogText) {b : List LogText} (h : StartsEntry w b) :
    contentsOfLines w (a ++ b) = contentsOfLines w a ++ contentsOfLines w b := by
  rw [contentsOfLines_eq w 1 (a ++ b), splitEntries_append w none 1 a h, List.map_append, ← contentsOfLines_eq,
    ← contentsOfLines_eq]

theorem contentsOfLines_none {a : List LogText} (b : List LogText) (h : ∀ l ∈ a, isHeader w l = false) :
    contentsOfLines w (a ++ b) = contentsOfLines w a ++ contentsOfLines w b := by
  have hempty : contentsOfLines w a = [] := by
    have hnone := splitEntries_none w 1 a [] h
    rw [List.append_nil] at hnone
    unfold contentsOfLines
    rw [hnone]
    rfl
  rw [hempty, contentsOfLines_eq w 1 (a ++ b), splitEntries_none w 1 a b h, ← contentsOfLines_eq]
  rfl

/-- Where bytes can be cut into `a` and `b`: at their start; at the end of a line, before a header or before
    any entry; or between a line and its newline, if a header follows that. -/
inductive CleanCut (a b : Bytes) : Prop where
  | start (h : a = [])
  | entry (hline : EndsLine a) (hentry : StartsEntry w (linesOf b))
  | noEntry (hline : EndsLine a) (hnone : ∀ l ∈ linesOf a, isHeader w l = false)
  | newline (hline : linesOf (a ++ [newline]) = linesOf a)
      (hentry : ∃ rest, b = Ingest.newline :: rest ∧ StartsEntry w (linesOf rest))

/-- A clean cut loses no entry and makes none. -/
theorem CleanCut.contents {w : ParserWorld Hash} {a b : Bytes} (h : CleanCut w a b) :
    contentsOf w (a ++ b) = contentsOf w a ++ contentsOf w b := by
  unfold contentsOf
  cases h with
  | start hnil =>
    rw [hnil]
    rfl
  | entry hline hentry => rw [linesOf_append hline, contentsOfLines_append w _ hentry]
  | noEntry hline hnone => rw [linesOf_append hline, contentsOfLines_none w _ hnone]
  | newline hline hentry =>
    obtain ⟨rest, hb, hentry⟩ := hentry
    -- the second side opens with the empty rest of a line, which is a line of its own there
    have hblank : linesOf b = [] :: linesOf rest := by
      rw [hb]
      exact linesOf_newline [] rest
    have hdropped : contentsOfLines w ([[]] ++ linesOf rest) = contentsOfLines w (linesOf rest) := by
      rw [contentsOfLines_none w _ (by
        intro l hl
        rw [List.mem_singleton.mp hl]
        rfl)]
      rfl
    rw [hblank]
    show _ = _ ++ contentsOfLines w ([[]] ++ linesOf rest)
    rw [hdropped, hb, linesOf_newline, hline, contentsOfLines_append w _ hentry]

/-- The key of an entry's row; the line number has no part in it. -/
def keyOfContent (customer : String) (e : LogText × List LogText) : EntryKey Hash :=
  ⟨customer, w.entryHash (List.intercalate ['\n'] (e.1 :: e.2)), timestampOf w e.1⟩

/-- The keys of the rows that some bytes make. -/
def keysOf (customer : String) (data : Bytes) : List (EntryKey Hash) :=
  (contentsOf w data).map (keyOfContent w customer)

/-- Every entry of the bytes fits the columns of its row. -/
def RowsFit (data : Bytes) : Prop := ∀ e ∈ contentsOf w data, rowFits w (buildRecord w ⟨e.1, e.2, 0⟩) = true

theorem keysOf_eq (customer : String) (data : Bytes) :
    keysOf w customer data = (parse w (decode data)).map (keyOf w customer) := by
  unfold keysOf contentsOf contentsOfLines parse
  rw [List.map_map, List.map_map]
  rfl

/-- So do the records. -/
theorem RowsFit.parse {w : ParserWorld Hash} {data : Bytes} (h : RowsFit w data) :
    ∀ rec ∈ parse w (decode data), rowFits w rec = true := by
  intro rec hrec
  obtain ⟨e, he, rfl⟩ := List.mem_map.mp hrec
  exact h _ (List.mem_map_of_mem he)

/-! ## §3. What a chunk adds to the table. -/

/-- No line has a newline in it. -/
theorem newline_not_mem (cur t : LogText) (hcur : '\n' ∉ cur) : ∀ l ∈ splitLines cur t, '\n' ∉ l := by
  have hfirst : ∀ {cur rest : LogText}, '\n' ∉ cur → (∀ l ∈ splitLines [] rest, '\n' ∉ l) →
      ∀ l ∈ cur :: splitLines [] rest, '\n' ∉ l := by
    intro cur rest hcur h l hl
    cases List.mem_cons.mp hl with
    | inl heq => exact heq ▸ hcur
    | inr hmem => exact h l hmem
  fun_induction splitLines cur t with
  | case1 cur hempty => exact fun l hl => absurd hl List.not_mem_nil
  | case2 cur hne =>
    intro l hl
    exact List.mem_singleton.mp hl ▸ hcur
  | case3 cur rest ih => exact hfirst hcur (ih List.not_mem_nil)
  | case4 cur c rest hnot hc ih => exact hfirst hcur (ih List.not_mem_nil)
  | case5 cur c rest hnot hc ih =>
    refine ih fun hmem => ?_
    cases List.mem_append.mp hmem with
    | inl hold => exact hcur hold
    | inr hlast =>
      rw [← List.mem_singleton.mp hlast] at hc
      exact hc rfl

/-- The headers of the entries are lines. -/
theorem header_mem (cur : Option RawEntry) (idx : ℕ) (lines : List LogText) :
    ∀ e ∈ splitEntries w cur idx lines,
      e.header ∈ lines ∨ ∃ e', cur = some e' ∧ e.header = e'.header := by
  induction lines generalizing cur idx with
  | nil =>
    intro e he
    exact Or.inr ⟨e, Option.mem_toList.mp he, rfl⟩
  | cons l lines ih =>
    rw [splitEntries_cons]
    intro e he
    split at he
    · cases List.mem_append.mp he with
      | inl hopen => exact Or.inr ⟨e, Option.mem_toList.mp hopen, rfl⟩
      | inr hrest =>
        cases ih (some ⟨l, [], idx⟩) (idx + 1) e hrest with
        | inl hmem => exact Or.inl (List.mem_cons_of_mem _ hmem)
        | inr hcur =>
          obtain ⟨e', heq, hheader⟩ := hcur
          rw [hheader, ← Option.some.inj heq]
          exact Or.inl List.mem_cons_self
    · cases ih _ (idx + 1) e he with
      | inl hmem => exact Or.inl (List.mem_cons_of_mem _ hmem)
      | inr hcur =>
        obtain ⟨e', heq, hheader⟩ := hcur
        obtain ⟨e'', hopen, rfl⟩ := Option.map_eq_some_iff.mp heq
        exact Or.inr ⟨e'', hopen, hheader⟩

/-- The timestamp of a record is that of the first line of its text. -/
def Timed (rec : LogRecord) : Prop := rec.timestamp = timestampOf w (rec.rawBody.takeWhile (· ≠ '\n'))

theorem takeWhile_rawBodyOf (e : RawEntry) (h : '\n' ∉ e.header) :
    (rawBodyOf e).takeWhile (· ≠ '\n') = e.header := by
  have hheader : ∀ c ∈ e.header, decide (c ≠ '\n') = true := by
    intro c hc
    refine decide_eq_true fun heq => ?_
    exact h (heq ▸ hc)
  unfold rawBodyOf
  cases e.body with
  | nil =>
    rw [List.intercalate_singleton]
    exact List.takeWhile_eq_self_iff.mpr hheader
  | cons l body =>
    rw [List.intercalate_cons_cons, List.append_assoc, List.takeWhile_append_of_pos hheader]
    exact List.append_nil _

theorem timed_parse (text : LogText) : ∀ rec ∈ parse w text, Timed w rec := by
  intro rec hrec
  obtain ⟨e, he, rfl⟩ := List.mem_map.mp hrec
  have hheader : '\n' ∉ e.header := by
    cases header_mem w none 1 _ e he with
    | inl hmem => exact newline_not_mem [] text List.not_mem_nil _ hmem
    | inr hcur =>
      obtain ⟨_, hnone, _⟩ := hcur
      cases hnone
  unfold Timed
  show timestampOf w e.header = timestampOf w ((rawBodyOf e).takeWhile (· ≠ '\n'))
  rw [takeWhile_rawBodyOf e hheader]

variable [DecidableEq Hash]

variable {w} (customer : String)

/-- A row is in the table afterwards, and what was there stays. -/
theorem mem_insertRow (table : List (EntryKey Hash)) (rec : LogRecord) (k : EntryKey Hash) :
    k ∈ insertRow w customer table rec ↔ k ∈ table ∨ k = keyOf w customer rec := by
  unfold insertRow
  split
  case isTrue hthere =>
    constructor
    · exact Or.inl
    · intro h
      rcases h with h | h
      · exact h
      · exact h ▸ hthere
  case isFalse _ => rw [List.mem_append, List.mem_singleton]

/-- So are the rows of an insert that fit. -/
theorem insertDedup_fit (table : List (EntryKey Hash)) {rows : List LogRecord}
    (hrows : ∀ rec ∈ rows, rowFits w rec = true) :
    ∃ table', insertDedup w customer table rows = some table' ∧
      ∀ k, k ∈ table' ↔ k ∈ table ∨ k ∈ rows.map (keyOf w customer) := by
  refine ⟨_, if_pos (List.all_eq_true.mpr hrows), fun k => ?_⟩
  clear hrows
  induction rows generalizing table with
  | nil => simp
  | cons rec rows ih => rw [List.foldl_cons, ih, mem_insertRow, List.map_cons, List.mem_cons, or_assoc]

/-- What the loop has seen is in its batch, and what is in its batch fits. -/
structure Inserting.Sound (w : ParserWorld Hash) (st : Inserting Hash) : Prop where
  seen : ∀ h ∈ st.seen, ∃ rec ∈ st.batch, h = w.entryHash rec.rawBody ∧ Timed w rec
  fits : ∀ rec ∈ st.batch, rowFits w rec = true

/-- In the table, or about to be. -/
def Inserting.Has (w : ParserWorld Hash) (customer : String) (st : Inserting Hash) (k : EntryKey Hash) : Prop :=
  k ∈ st.table ∨ k ∈ st.batch.map (keyOf w customer)

/-- One record that fits: its key is there afterwards, and no other is added. -/
theorem insertRecord_has (hinj : Function.Injective w.entryHash) {st : Inserting Hash} (hst : st.Sound w)
    {rec : LogRecord} (hrec : Timed w rec) (hfits : rowFits w rec = true) :
    ∃ st', insertRecord w customer st rec = some st' ∧ st'.Sound w ∧
      ∀ k, st'.Has w customer k ↔ st.Has w customer k ∨ k = keyOf w customer rec := by
  have hbatch : ∀ rec' ∈ st.batch ++ [rec], rowFits w rec' = true := by
    intro rec' hrec'
    cases List.mem_append.mp hrec' with
    | inl hold => exact hst.fits rec' hold
    | inr hlast => exact List.mem_singleton.mp hlast ▸ hfits
  unfold insertRecord
  dsimp only
  split
  case isTrue hseen =>
    refine ⟨st, rfl, hst, fun k => ?_⟩
    -- the same text was seen, so a record of the same time
    obtain ⟨rec', hmem, hhash, hrec'⟩ := hst.seen _ hseen
    have hbody := hinj hhash
    have htime : rec.timestamp = rec'.timestamp := by
      rw [hrec, hrec', hbody]
    have hkey : keyOf w customer rec = keyOf w customer rec' := by
      unfold keyOf
      rw [hbody, htime]
    constructor
    · exact Or.inl
    · intro h
      rcases h with h | h
      · exact h
      · rw [h, hkey]
        exact Or.inr (List.mem_map_of_mem hmem)
  case isFalse hnew =>
    split
    case isTrue hfull =>
      -- the batch is written and what it has seen is forgotten
      obtain ⟨table', hwritten, hhas⟩ := insertDedup_fit customer st.table hbatch
      rw [hwritten]
      refine ⟨_, rfl, ⟨fun h hh => absurd hh List.not_mem_nil, fun r hr => absurd hr List.not_mem_nil⟩, fun k => ?_⟩
      show k ∈ table' ∨ k ∈ [] ↔ _
      rw [hhas, List.map_append, List.mem_append, List.map_singleton, List.mem_singleton]
      unfold Inserting.Has
      simp only [List.not_mem_nil, or_false, or_assoc]
    case isFalse hfull =>
      refine ⟨_, rfl, ⟨?_, hbatch⟩, fun k => ?_⟩
      · intro h hh
        cases List.mem_cons.mp hh with
        | inl heq => exact ⟨rec, List.mem_append_right _ List.mem_cons_self, heq, hrec⟩
        | inr hold =>
          obtain ⟨rec', hmem, hhash, hrec'⟩ := hst.seen h hold
          exact ⟨rec', List.mem_append_left _ hmem, hhash, hrec'⟩
      · show k ∈ st.table ∨ k ∈ (st.batch ++ [rec]).map _ ↔ _
        rw [List.map_append, List.mem_append, List.map_singleton, List.mem_singleton, ← or_assoc]
        rfl

/-- The records in turn. -/
theorem foldlM_insertRecord_has (hinj : Function.Injective w.entryHash) (records : List LogRecord)
    (hrecords : ∀ rec ∈ records, Timed w rec ∧ rowFits w rec = true) {st : Inserting Hash} (hst : st.Sound w) :
    ∃ st', records.foldlM (insertRecord w customer) st = some st' ∧ st'.Sound w ∧
      ∀ k, st'.Has w customer k ↔ st.Has w customer k ∨ k ∈ records.map (keyOf w customer) := by
  induction records generalizing st with
  | nil => exact ⟨st, rfl, hst, fun k => by simp⟩
  | cons rec records ih =>
    obtain ⟨htimed, hfits⟩ := hrecords rec List.mem_cons_self
    obtain ⟨mid, hstep, hmid, hone⟩ := insertRecord_has customer hinj hst htimed hfits
    obtain ⟨st', hrest, hst', hhas⟩ := ih (fun r hr => hrecords r (List.mem_cons_of_mem _ hr)) hmid
    refine ⟨st', ?_, hst', fun k => ?_⟩
    · rw [List.foldlM_cons, hstep]
      exact hrest
    · rw [hhas, hone, List.map_cons, List.mem_cons, or_assoc]

/-- **A chunk whose rows fit adds the keys of its entries, and no other.** -/
theorem mem_parseInsert (hinj : Function.Injective w.entryHash) (table : List (EntryKey Hash)) {data : Bytes}
    (hfits : RowsFit w data) (k : EntryKey Hash) :
    k ∈ parseInsert w customer table data ↔ k ∈ table ∨ k ∈ keysOf w customer data := by
  have hnew : ({ table := table } : Inserting Hash).Sound w :=
    ⟨fun h hh => absurd hh List.not_mem_nil, fun r hr => absurd hr List.not_mem_nil⟩
  obtain ⟨st, hrun, hst, hhas⟩ := foldlM_insertRecord_has customer hinj (parse w (decode data))
    (fun rec hrec => ⟨timed_parse w _ rec hrec, hfits.parse rec hrec⟩) hnew
  obtain ⟨table', hlast, hmem⟩ := insertDedup_fit customer st.table hst.fits
  have hresult : parseInsert w customer table data = table' := by
    unfold parseInsert
    dsimp only
    rw [hrun, Option.bind_some, hlast]
    rfl
  rw [hresult, hmem, keysOf_eq]
  refine (hhas k).trans (or_congr ?_ Iff.rfl)
  show k ∈ table ∨ k ∈ [] ↔ k ∈ table
  simp

end Entries

/-! ## §4. The chunks of a run. -/

/-- The bytes of a queued range, of the file as it is: what is written of it does not change. -/
def chunkOf (file : Bytes) (r : Span) : Bytes := (file.drop r.start).take (r.stop - r.start)

section Store

variable {Hash : Type} [DecidableEq Hash] (w : ParserWorld Hash)

/-- The chunks of the file in some order, parsed and stored one after the other. -/
def storeChunks (customer : String) (file : Bytes) (order : List Span) : List (EntryKey Hash) :=
  order.foldl (fun table r => parseInsert w customer table (chunkOf file r)) []

/-- The ranges are cut cleanly out of the file, and the rows of their entries fit. -/
def CleanlyCut (file : Bytes) (rs : List Span) : Prop :=
  ∀ r ∈ rs, CleanCut w (file.take r.start) (chunkOf file r) ∧ RowsFit w (chunkOf file r)

/-- In whatever order the queued chunks are stored, for whatever customer, the table has the keys that the
    same bytes would give it at once. -/
def StoredAsWhole (file : Bytes) (queued : List Span) (consumed : ℕ) : Prop :=
  ∀ (customer : String) (order : List Span), order.Perm queued → ∀ k : EntryKey Hash,
    k ∈ storeChunks w customer file order ↔ k ∈ parseInsert w customer [] (file.take consumed)

variable {w} {customer : String}

theorem mem_storeChunks (hinj : Function.Injective w.entryHash) {file : Bytes} {order : List Span}
    (hfits : ∀ r ∈ order, RowsFit w (chunkOf file r)) (k : EntryKey Hash) :
    k ∈ storeChunks w customer file order ↔ ∃ r ∈ order, k ∈ keysOf w customer (chunkOf file r) := by
  unfold storeChunks
  induction order using List.reverseRecOn with
  | nil => simp
  | append_singleton order r ih =>
    rw [List.foldl_concat, mem_parseInsert customer hinj _ (hfits r (List.mem_append_right _ List.mem_cons_self)),
      ih fun r' hr' => hfits r' (List.mem_append_left _ hr')]
    constructor
    · intro h
      rcases h with h | h
      · obtain ⟨r', hr', hk⟩ := h
        exact ⟨r', List.mem_append_left _ hr', hk⟩
      · exact ⟨r, List.mem_append_right _ List.mem_cons_self, h⟩
    · intro h
      obtain ⟨r', hr', hk⟩ := h
      cases List.mem_append.mp hr' with
      | inl hold => exact Or.inl ⟨r', hold, hk⟩
      | inr hlast => exact Or.inr (List.mem_singleton.mp hlast ▸ hk)

omit [DecidableEq Hash] in
/-- The entries of a file, chunk by chunk. -/
theorem contents_concat {file : Bytes} {rs : List Span} {b : ℕ} (htiles : Tiles 0 rs b) (hb : b ≤ file.length)
    (hcut : CleanlyCut w file rs) :
    contentsOf w (file.take b) = rs.flatMap fun r => contentsOf w (chunkOf file r) := by
  induction rs using List.reverseRecOn generalizing b with
  | nil =>
    have hend : 0 = b := htiles
    rw [← hend]
    rfl
  | append_singleton rs r ih =>
    obtain ⟨m, hrs, hstart, hle, hstop⟩ := (tiles_append rs [r]).mp htiles
    have hstop : r.stop = b := hstop
    -- the last chunk is what the ones before it leave of the first `b` bytes
    have hsplit : file.take b = file.take r.start ++ chunkOf file r := by
      unfold chunkOf
      rw [← List.take_add, hstop]
      congr 1
      omega
    have hold : CleanlyCut w file rs := fun r' hr' => hcut r' (List.mem_append_left _ hr')
    have hlast := hcut r (List.mem_append_right _ List.mem_cons_self)
    rw [hsplit, hlast.1.contents, hstart, ih hrs (by omega) hold, List.flatMap_append]
    simp

/-- Ranges that are laid end to end and cut cleanly are stored as the bytes would be. -/
theorem storedAsWhole (hinj : Function.Injective w.entryHash) {file : Bytes} {rs : List Span} {b : ℕ}
    (htiles : Tiles 0 rs b) (hb : b ≤ file.length) (hcut : CleanlyCut w file rs) :
    StoredAsWhole w file rs b := by
  intro customer order hperm k
  have hwhole := contents_concat htiles hb hcut
  have hfits : RowsFit w (file.take b) := by
    intro e he
    rw [hwhole] at he
    obtain ⟨r, hr, he⟩ := List.mem_flatMap.mp he
    exact (hcut r hr).2 e he
  have hkeys : keysOf w customer (file.take b) = rs.flatMap fun r => keysOf w customer (chunkOf file r) := by
    unfold keysOf
    rw [hwhole, List.map_flatMap]
  rw [mem_storeChunks hinj fun r hr => (hcut r (hperm.mem_iff.mp hr)).2, mem_parseInsert customer hinj _ hfits, hkeys,
    List.mem_flatMap]
  constructor
  · intro h
    obtain ⟨r, hr, hk⟩ := h
    exact Or.inr ⟨r, hperm.mem_iff.mp hr, hk⟩
  · intro h
    rcases h with h | h
    · exact absurd h List.not_mem_nil
    · obtain ⟨r, hr, hk⟩ := h
      exact ⟨r, hperm.mem_iff.mpr hr, hk⟩

end Store

section Run

variable {Hash Fp : Type} [DecidableEq Fp] (w : ParserWorld Hash) (c : FetchSettings) (hash : Bytes → Fp)

/-- What a poll may do to the promise: nothing when every window that it queues is cut cleanly and its rows fit,
    and when no other path's row answers for bytes that are not queued. -/
def PollsCleanly (e : FetchEvent Fp) (s : RemoteLog Fp) : Prop :=
  match e with
  | .grow _ => True
  | .poll mtime others upTo =>
    (upTo ≠ some 0 → ¬ s.Unchanged mtime → TakenElsewhere c hash s mtime others →
      s.consumed = s.file.length) ∧
    (¬ s.Unchanged mtime → ¬ TakenElsewhere c hash s mtime others →
      CleanlyCut w s.file (madeOf upTo (stageRange c s.file s.consumed s.file.length)))

/-- What the promise rests on. -/
structure Cut (s : RemoteLog Fp) : Prop where
  tiles : Tiles 0 s.queued s.consumed
  clean : CleanlyCut w s.file s.queued

variable {w c hash} {s : RemoteLog Fp}

omit [DecidableEq Fp] in
theorem foldl_commit_queued (size : ℕ) (mtime : Mtime) (fp : Fp) (rs : List Span) (s : RemoteLog Fp) :
    ((rs.map fun r => (⟨some r, ⟨size, mtime, r.stop, some fp⟩⟩ : FetchCommit Fp)).foldl
      RemoteLog.commit s).queued = s.queued ++ rs := by
  induction rs generalizing s with
  | nil => exact (List.append_nil _).symm
  | cons r rs ih =>
    rw [List.map_cons, List.foldl_cons, ih]
    exact List.append_assoc s.queued [r] rs

/-- What a poll queues is windows of the rest of the file. -/
theorem queued_poll (h : s.Recorded c hash) (hs : Tiles 0 s.queued s.consumed) (mtime : Mtime)
    (others : List (FileCheckpoint Fp)) (upTo : Option ℕ) :
    let s' := fetchStep c hash s (.poll mtime others upTo)
    s'.queued = s.queued ∨ (¬ s.Unchanged mtime ∧ ¬ TakenElsewhere c hash s mtime others ∧
      s'.queued = s.queued ++ madeOf upTo (stageRange c s.file s.consumed s.file.length)) := by
  intro s'
  have hmade : s'.queued = ((madeOf upTo (planCommits c s.file (s.probe c hash mtime) (planIncremental s.checkpoint
      (s.checkpoint.toList ++ others) (s.probe c hash mtime) c.sshFingerprintBytes))).foldl
        RemoteLog.commit s).queued := rfl
  have hcase := poll_cases h hs mtime others upTo
  cases hcase with
  | nothing _ _ hqueued _ => exact Or.inl hqueued
  | elsewhere _ _ _ hqueued _ => exact Or.inl hqueued
  | queued hun htaken _ _ _ =>
    unfold planCommits at hmade
    cases plan_cases h mtime others with
    | unchanged hsame => exact absurd hsame hun
    | elsewhere _ htaken' => exact absurd htaken' htaken
    | noNewBytes _ _ _ hpull hsave =>
      rw [if_neg (by simp [hpull])] at hmade
      exact Or.inl (hmade.trans (skip_same s upTo (s.probe c hash mtime) _ (Or.inr hsave)).1)
    | tail _ _ hpull hstart =>
      rw [if_pos hpull, hstart, madeOf_map] at hmade
      exact Or.inr ⟨hun, htaken, hmade.trans
        (foldl_commit_queued s.file.length mtime (headHash c hash s.file) _ s)⟩

/-- **One event keeps it.** -/
theorem Cut.step (h : s.Recorded c hash) (hs : Cut w s) {e : FetchEvent Fp} (he : PollsCleanly w c hash e s) :
    Cut w (fetchStep c hash s e) := by
  cases e with
  | grow bytes =>
    -- a queued range ends within the old file, so its bytes and those before it stay
    refine ⟨hs.tiles, fun r hr => ?_⟩
    have hstop := (hs.tiles.stop_le hr).trans h.consumed_le
    have hle := hs.tiles.start_le_stop hr
    have hbefore : (s.file ++ bytes).take r.start = s.file.take r.start :=
      List.take_append_of_le_length (hle.trans hstop)
    have hchunk : chunkOf (s.file ++ bytes) r = chunkOf s.file r := by
      unfold chunkOf
      rw [List.drop_append_of_le_length (hle.trans hstop), List.take_append_of_le_length]
      rw [List.length_drop]
      omega
    show CleanCut w ((s.file ++ bytes).take r.start) (chunkOf (s.file ++ bytes) r) ∧
      RowsFit w (chunkOf (s.file ++ bytes) r)
    rw [hbefore, hchunk]
    exact hs.clean r hr
  | poll mtime others upTo =>
    constructor
    · cases poll_cases h hs.tiles mtime others upTo with
      | nothing _ _ hqueued hconsumed =>
        rw [hqueued, hconsumed]
        exact hs.tiles
      | elsewhere hun htaken hmade hqueued hconsumed =>
        rw [hqueued, hconsumed, ← he.1 hmade hun htaken]
        exact hs.tiles
      | queued _ _ _ htiles _ => exact htiles
    · rw [CleanlyCut, file_poll]
      intro r hr
      rcases queued_poll h hs.tiles mtime others upTo with hsame | ⟨hun, htaken, hmore⟩
      · exact hs.clean r (hsame ▸ hr)
      · rw [hmore] at hr
        cases List.mem_append.mp hr with
        | inl hold => exact hs.clean r hold
        | inr hnew => exact he.2 hun htaken r hnew

/-- What each event keeps, the run has. -/
theorem cut_run {file : Bytes} {events : List (FetchEvent Fp)}
    (h : AtEvery c hash file events (PollsCleanly w c hash)) (before after : List (FetchEvent Fp))
    (heq : events = before ++ after) : Cut w (runFetch c hash { file := file } before) := by
  induction before using List.reverseRecOn generalizing after with
  | nil => exact ⟨rfl, fun r hr => absurd hr List.not_mem_nil⟩
  | append_singleton before e ih =>
    rw [runFetch_concat]
    have heq : events = before ++ e :: after := by simpa using heq
    exact (ih (e :: after) heq).step (recorded_run c hash file before) (h before e after heq)

/-- **In a run whose polls cut cleanly, the chunks are stored as the file would be.** -/
theorem chunks_lossless [DecidableEq Hash] (hinj : Function.Injective w.entryHash) (file : Bytes)
    (events : List (FetchEvent Fp)) (h : AtEvery c hash file events (PollsCleanly w c hash)) :
    AtEvery c hash file events fun e s =>
      StoredAsWhole w (fetchStep c hash s e).file (fetchStep c hash s e).queued
        (fetchStep c hash s e).consumed := by
  intro before e after heq
  have hcut := cut_run h (before ++ [e]) after (by simpa using heq)
  have hrec := recorded_run c hash file (before ++ [e])
  rw [runFetch_concat] at hcut hrec
  exact storedAsWhole hinj hcut.tiles hrec.consumed_le hcut.clean

end Run

/-! ## §5. A cut inside an entry. -/

/-- Entries of one time, told apart by their texts. -/
def plainWorld : ParserWorld LogText := ⟨Char.isDigit, Char.isAlphanum, fun _ => some 0, id, fun _ => true⟩

/-- The bytes of an ASCII text. -/
def ascii (t : String) : Bytes := t.toList.map fun ch => UInt8.ofNat ch.toNat

/-- An entry's header line. -/
def headerLine : Bytes := ascii "2026-01-01 00:00:00,000 (U) [7] INFO A\n"

/-- Two entries in windows that hold one of them. -/
theorem twoEntries_lossless :
    AtEvery ⟨40, 1⟩ id (headerLine ++ headerLine) [FetchEvent.poll 5 [] none] fun e s =>
      StoredAsWhole plainWorld (fetchStep ⟨40, 1⟩ id s e).file (fetchStep ⟨40, 1⟩ id s e).queued
        (fetchStep ⟨40, 1⟩ id s e).consumed := by
  refine chunks_lossless Function.injective_id _ _ fun before e after heq => ?_
  cases before with
  | nil =>
    obtain ⟨rfl, -⟩ := List.cons.inj heq
    refine ⟨?_, fun _ _ => ?_⟩
    · intro _ _ htaken
      obtain ⟨_, k, hk, _⟩ := htaken
      exact absurd hk List.not_mem_nil
    · show CleanlyCut plainWorld (headerLine ++ headerLine)
        (stageRange ⟨40, 1⟩ (headerLine ++ headerLine) 0 (headerLine ++ headerLine).length)
      -- each window holds one of the entries, and the second begins with a header
      rw [show stageRange ⟨40, 1⟩ (headerLine ++ headerLine) 0 (headerLine ++ headerLine).length =
        [⟨0, 39⟩, ⟨39, 78⟩] by decide +kernel]
      intro r hr
      cases List.mem_cons.mp hr with
      | inl hfirst =>
        rw [hfirst]
        exact ⟨.start rfl, by unfold RowsFit; decide +kernel⟩
      | inr hsecond =>
        rw [List.mem_singleton.mp hsecond]
        refine ⟨.entry ⟨headerLine.dropLast, by decide +kernel⟩ fun l hl => ?_, by unfold RowsFit; decide +kernel⟩
        have hline : (linesOf (chunkOf (headerLine ++ headerLine) ⟨39, 78⟩)).head?.all
            (isHeader plainWorld) = true := by
          decide +kernel
        rw [hl] at hline
        exact hline
  | cons x before =>
    have hnil := (List.cons.inj heq).2
    cases before <;> cases hnil

/-- An entry is written in two goes, with a poll after each. -/
def twoGoes : List (FetchEvent Bytes) :=
  [.grow headerLine, .poll 1 [] none, .grow (ascii "body\n"), .poll 2 [] none]

/-- Its first line is stored as an entry, and its body is not stored. -/
theorem cutEntry_differs : ¬ ∀ (w : ParserWorld LogText) (c : FetchSettings) (hash : Bytes → Bytes)
    (events : List (FetchEvent Bytes)), Function.Injective w.entryHash →
    let s := runFetch c hash { file := [] } events
    s.consumed = s.file.length → StoredAsWhole w s.file s.queued s.consumed := by
  intro h
  have hstored := h plainWorld ⟨1000, 1⟩ id twoGoes Function.injective_id (by decide +kernel) "C"
    [⟨0, 39⟩, ⟨39, 44⟩] (by decide +kernel)
    ⟨"C", "2026-01-01 00:00:00,000 (U) [7] INFO A\nbody".toList, some 0⟩
  revert hstored
  decide +kernel

end RagPipeline.Ingest
