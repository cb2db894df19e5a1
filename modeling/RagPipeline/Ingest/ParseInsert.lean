/-
  RagPipeline.Ingest.ParseInsert — from the bytes of a queued chunk to the rows of `log_entries`.

  The worker decodes the bytes (`decode`), the parser splits the text into lines and the lines into
  entries, each from a header line to the line before the next one (`splitEntries`), and the store keeps an
  entry once for its customer, content hash and timestamp (`insertDedup`), or nothing of a chunk with a row
  that does not fit.

  Of a record the columns that the header line gives are modelled, and its text.  Python's character classes
  and `strptime` with the customer's zone are parameters, and so are the content hash and whether PostgreSQL
  takes what `_classify_and_extract` reads off the message and the body.
-/
import RagPipeline.Ingest.RemoteFetch
import RagPipeline.Lib.Strip
import RagPipeline.Stage2.Entry

namespace RagPipeline.Ingest

open RagPipeline.Lib RagPipeline.Stage2

/-! ## §1. `data.decode("utf-8", errors="replace")`. -/

/-- A decoded text. -/
abbrev LogText := List Char

/-- Between two characters, or `left` bytes before the end of one: the next of them is between `lo` and `hi`,
    and no such byte is an ASCII character. -/
inductive Utf8State where
  | idle
  | inside (left lo hi code : ℕ) (hlo : 128 ≤ lo)

/-- U+FFFD. -/
def replacement : Char := Char.ofNat 0xFFFD

/-- A byte between two characters. -/
def utf8Start (b : ℕ) : LogText × Utf8State :=
  if b < 0x80 then ([Char.ofNat b], .idle)
  else if 0xC2 ≤ b ∧ b ≤ 0xDF then ([], .inside 1 0x80 0xBF (b - 0xC0) (by decide))
  else if b = 0xE0 then ([], .inside 2 0xA0 0xBF 0 (by decide))
  else if b = 0xED then ([], .inside 2 0x80 0x9F 13 (by decide))
  else if 0xE1 ≤ b ∧ b ≤ 0xEF then ([], .inside 2 0x80 0xBF (b - 0xE0) (by decide))
  else if b = 0xF0 then ([], .inside 3 0x90 0xBF 0 (by decide))
  else if 0xF1 ≤ b ∧ b ≤ 0xF3 then ([], .inside 3 0x80 0xBF (b - 0xF0) (by decide))
  else if b = 0xF4 then ([], .inside 3 0x80 0x8F 4 (by decide))
  else ([replacement], .idle)

/-- One byte: a sequence that it does not continue is replaced, and it starts anew. -/
def utf8Step (s : Utf8State) (b : ℕ) : LogText × Utf8State :=
  match s with
  | .idle => utf8Start b
  | .inside left lo hi code _ =>
      if lo ≤ b ∧ b ≤ hi then
        if left = 1 then ([Char.ofNat (code * 64 + (b - 0x80))], .idle)
        else ([], .inside (left - 1) 0x80 0xBF (code * 64 + (b - 0x80)) (by decide))
      else (replacement :: (utf8Start b).1, (utf8Start b).2)

/-- The bytes from a state on; what is cut off at the end is replaced. -/
def decodeFrom : Utf8State → Bytes → LogText
  | .idle, [] => []
  | .inside .., [] => [replacement]
  | s, b :: bytes => (utf8Step s b.toNat).1 ++ decodeFrom (utf8Step s b.toNat).2 bytes

/-- The text of some bytes. -/
def decode (bytes : Bytes) : LogText := decodeFrom .idle bytes

/-! ## §2. `text.splitlines()`. -/

/-- The characters a line ends at. -/
def isLineBreak (c : Char) : Bool :=
  let n := c.toNat
  (10 ≤ n && n ≤ 13) || (28 ≤ n && n ≤ 30) || n == 0x85 || n == 0x2028 || n == 0x2029

/-- The lines, `cur` being what the first one has so far; `\r\n` is one break. -/
def splitLines : LogText → LogText → List LogText
  | cur, [] => if cur.isEmpty then [] else [cur]
  | cur, '\r' :: '\n' :: rest => cur :: splitLines [] rest
  | cur, c :: rest => if isLineBreak c then cur :: splitLines [] rest else splitLines (cur ++ [c]) rest

/-! ## §3. Entries. -/

/-- What the parser and the store are run with: `\d`, `\w`, the instant of a timestamp's text in the
    customer's zone (`None` where `strptime` raises), the content hash, and whether `mi_program`,
    `mi_transaction` and the JSONB `fields` take what an entry of this text has for them. -/
structure ParserWorld (Hash : Type) where
  isDecimal : Char → Bool
  isWord : Char → Bool
  instantOf : LogText → Option Instant
  entryHash : LogText → Hash
  extractFits : LogText → Bool

variable {Hash : Type} (w : ParserWorld Hash)

/-- The text matches the classes, one character each. -/
def startsLike : List (Char → Bool) → LogText → Bool
  | [], _ => true
  | _, [] => false
  | p :: ps, c :: cs => p c && startsLike ps cs

/-- `\d{4}-\d{2}-\d{2} \d{2}:\d{2}:\d{2},\d{3}` and a blank. -/
def timestampShape : List (Char → Bool) :=
  let d := w.isDecimal
  let is := fun x c => decide (c = x)
  [d, d, d, d, is '-', d, d, is '-', d, d, is ' ', d, d, is ':', d, d, is ':', d, d, is ',', d, d, d, is ' ']

/-- `_TS_START.match(line)`. -/
def isHeader (line : LogText) : Bool := startsLike (timestampShape w) line

/-- An entry: header line, body lines, and the number of the header line. -/
structure RawEntry where
  header : LogText
  body : List LogText
  startLine : ℕ

/-- `_split_entries` from line `idx` on, `cur` being the entry that is open: lines before the first header are
    ignored. -/
def splitEntries : Option RawEntry → ℕ → List LogText → List RawEntry
  | cur, _, [] => cur.toList
  | cur, idx, line :: rest =>
      if isHeader w line then cur.toList ++ splitEntries (some ⟨line, [], idx⟩) (idx + 1) rest
      else splitEntries (cur.map fun e => { e with body := e.body ++ [line] }) (idx + 1) rest

/-! ## §4. Records. -/

/-- The groups of `_HEADER` after the timestamp. -/
structure HeaderGroups where
  user : LogText
  thread : LogText
  level : LogText
  rest : LogText

/-- After `[`: the thread, `] `, a level and white space. -/
def threadAndLevel (user t : LogText) : Option HeaderGroups :=
  match t.dropWhile fun c => decide (c ≠ ']') with
  | ']' :: ' ' :: more =>
      let level := more.takeWhile w.isWord
      let after := more.dropWhile w.isWord
      if !level.isEmpty && after.head?.any isSpace then
        some ⟨user, t.takeWhile fun c => decide (c ≠ ']'), level, after.dropWhile isSpace⟩
      else none
  | _ => none

/-- After `(`: a user, as short as the rest allows, and `) [`. -/
def userAndThread : LogText → LogText → Option HeaderGroups
  | _, [] => none
  | user, c :: cs =>
      (match c, cs with
        | ')', ' ' :: '[' :: rest => threadAndLevel w user rest
        | _, _ => none) <|> userAndThread (user ++ [c]) cs

/-- `_HEADER.match(header_line)`. -/
def matchHeader (header : LogText) : Option HeaderGroups :=
  if isHeader w header then
    match header.drop 24 with
    | '(' :: rest => userAndThread w [] rest
    | _ => none
  else none

/-- Not `\s`. -/
def isInk (c : Char) : Bool := !isSpace c

/-- `_REST.match(rest)`: the logger and the method. -/
def matchRest (rest : LogText) : Option (LogText × LogText) :=
  match rest.dropWhile isInk with
  | ' ' :: more =>
      match more.dropWhile isInk with
      | ' ' :: '-' :: ' ' :: _ =>
          if (rest.takeWhile isInk).isEmpty || (more.takeWhile isInk).isEmpty then none
          else some (rest.takeWhile isInk, more.takeWhile isInk)
      | _ => none
  | _ => none

/-- `_NULL_USERS`. -/
def nullUsers : List LogText := ["".toList, "(null)".toList, "null".toList]

/-- `_normalise_user`. -/
def normaliseUser (raw : LogText) : Option LogText :=
  let v := stripBy isSpace raw
  -- leftover parens from "((null))"
  let v := if v.head? = some '(' ∧ v.getLast? = some ')' then stripBy isSpace (v.drop 1).dropLast else v
  if v.map Char.toLower ∈ nullUsers then none else some v

/-- `LogRecord`: its place, its text, and what its header line says. -/
structure LogRecord where
  lineNumber : ℕ
  rawBody : LogText
  timestamp : Option Instant
  user : Option LogText
  thread : Option LogText
  level : Option LogText
  logger : Option LogText
  method : Option LogText

/-- `"\n".join([header_line, *body_lines])`. -/
def rawBodyOf (e : RawEntry) : LogText := List.intercalate ['\n'] (e.header :: e.body)

/-- The timestamp of a header line; a header that is not parseable has none. -/
def timestampOf (header : LogText) : Option Instant :=
  if (matchHeader w header).isSome then w.instantOf (header.take 23) else none

/-- `_build_record`. -/
def buildRecord (e : RawEntry) : LogRecord :=
  let groups := matchHeader w e.header
  let named := groups.bind fun g => matchRest g.rest
  { lineNumber := e.startLine, rawBody := rawBodyOf e, timestamp := timestampOf w e.header,
    user := groups.bind fun g => normaliseUser g.user,
    thread := (groups.map HeaderGroups.thread).filter fun t => !t.isEmpty,
    level := groups.map HeaderGroups.level, logger := named.map Prod.fst, method := named.map Prod.snd }

/-- **`parse`.** -/
def parse (text : LogText) : List LogRecord := (splitEntries w none 1 (splitLines [] text)).map (buildRecord w)

/-! ## §5. The store. -/

/-- What identifies a row of `log_entries`. -/
structure EntryKey (Hash : Type) where
  customer : String
  entryHash : Hash
  timestamp : Option Instant
  deriving DecidableEq

/-- The key of a record's row. -/
def keyOf (customer : String) (rec : LogRecord) : EntryKey Hash :=
  ⟨customer, w.entryHash rec.rawBody, rec.timestamp⟩

/-- The text goes into a `VARCHAR(n)`: what is past its end is blank, and is cut off. -/
def fitsVarchar (n : ℕ) (text : Option LogText) : Bool :=
  text.all fun t => (t.drop n).all fun c => decide (c = ' ')

/-- PostgreSQL takes the record's row. -/
def rowFits (rec : LogRecord) : Bool :=
  rec.rawBody.all (fun c => decide (c ≠ Char.ofNat 0)) && fitsVarchar 8 rec.level && fitsVarchar 16 rec.thread
    && fitsVarchar 64 rec.user && fitsVarchar 256 rec.logger && fitsVarchar 128 rec.method
    && w.extractFits rec.rawBody

variable [DecidableEq Hash] (customer : String)

/-- `ON CONFLICT DO NOTHING`: a row whose key is there is not inserted, a missing timestamp being a value like
    any other. -/
def insertRow (table : List (EntryKey Hash)) (rec : LogRecord) : List (EntryKey Hash) :=
  if keyOf w customer rec ∈ table then table else table ++ [keyOf w customer rec]

/-- `_insert_dedup`: a row that does not fit its columns fails the statement. -/
def insertDedup (table : List (EntryKey Hash)) (rows : List LogRecord) : Option (List (EntryKey Hash)) :=
  if rows.all (rowFits w) then some (rows.foldl (insertRow w customer) table) else none

/-- `_INSERT_BATCH`. -/
def insertBatch : ℕ := 200

/-- The loop over the records: the table, the batch, and `seen_in_batch`. -/
structure Inserting (Hash : Type) where
  table : List (EntryKey Hash)
  batch : List LogRecord := []
  seen : List Hash := []

/-- One record. -/
def insertRecord (st : Inserting Hash) (rec : LogRecord) : Option (Inserting Hash) :=
  let h := w.entryHash rec.rawBody
  if h ∈ st.seen then some st
  else
    let batch := st.batch ++ [rec]
    if batch.length ≥ insertBatch then
      (insertDedup w customer st.table batch).map fun table => { table := table }
    else some { st with batch := batch, seen := h :: st.seen }

/-- **`run_log_parse_insert`**, on the bytes of a stored chunk; a failure rolls it back. -/
def parseInsert (table : List (EntryKey Hash)) (data : Bytes) : List (EntryKey Hash) :=
  let inserted := (parse w (decode data)).foldlM (insertRecord w customer) { table := table }
  (inserted.bind fun st => insertDedup w customer st.table st.batch).getD table

end RagPipeline.Ingest
