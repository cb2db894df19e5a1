/-
  RagPipeline.Stage2.Entry — one parsed log line, as Stage 2 reads it.

  `LogEntry` is a row of `log_entries`; `fields` is its JSON column.  The accessors are the ones the
  grouper is written in:

    * `stampedReqid`  — the request id the NEW log format stamps (`fields["reqid"]`);
    * `entryReqid`    — the id of a request or a body, wherever it is spelled;
    * `entryUser`     — the user named in the PAYLOAD, as the JSON value it is; `reqUser` prefers the header's
                        context user;
    * `entryServer`   — the leading path segment of the source file;
    * `streamPos`     — the durable position of a line in the tenant's stream.

  Python's truthiness matters in several of them (`a or b` skips an empty string), so it is spelled
  out as `pyOr`.  Instants are microseconds of UTC, as the store keeps them.
-/
import Mathlib.Data.List.Defs
import RagPipeline.Lib.DecimalText

namespace RagPipeline.Stage2

open RagPipeline.Lib

/-! ## §1. The row. -/

/-- A UTC instant, in microseconds. -/
abbrev Instant := Int

/-- A length of time, in microseconds. -/
abbrev Duration := Int

/-- One second. -/
def second : Duration := 1000000

/-- A row id. -/
abbrev UUID := Nat

/-- `LogEntryType`. -/
inductive EntryType where
  | request | requestBody | miCall | miResult | sql | response | info | error
  deriving DecidableEq, Repr

/-- A JSON value; a float keeps the text Python prints for it. -/
inductive Json where
  | null
  | bool (b : Bool)
  | int (i : Int)
  | float (text : String)
  | str (s : String)
  | arr (xs : List Json)
  | obj (kvs : List (String × Json))

/-- A JSON object, keys in order. -/
abbrev JObject := List (String × Json)

/-- A row of `log_entries`: the columns Stage 2 reads. -/
structure LogEntry where
  id : UUID
  jobId : UUID := 0
  customerCode : String := ""
  entryHash : Option String := none
  sourceFile : String
  lineNumber : Option Int := none
  timestamp : Option Instant
  level : Option String := none
  thread : Option String := none
  userCtx : Option String := none
  entryType : EntryType
  resultStatus : Option String := none
  message : Option String := none
  fields : JObject := []

/-! ## §2. Python's `or`, `str` and `dict.get`. -/

/-- A string counts as true when it is there and not empty. -/
def truthy : Option String → Bool
  | some s => decide (s ≠ "")
  | none => false

/-- `a or b` on optional strings. -/
def pyOr (a b : Option String) : Option String := if truthy a then a else b

/-- Whether Python counts a JSON value as true. -/
def Json.truthy : Json → Bool
  | .null => false
  | .bool b => b
  | .int i => decide (i ≠ 0)
  | .float t => decide (t ≠ "0.0" ∧ t ≠ "-0.0")
  | .str s => decide (s ≠ "")
  | .arr xs => !xs.isEmpty
  | .obj kvs => !kvs.isEmpty

/-- The quote of `repr`. -/
def singleQuote : Char := Char.ofNat 39

/-- The quote of a text that holds the other one. -/
def doubleQuote : Char := Char.ofNat 34

/-- A hexadecimal digit. -/
def hexDigit (n : ℕ) : Char := "0123456789abcdef".toList.getD n '0'

/-- A character between quotes, as `repr` writes it; what is not ASCII is taken as printable. -/
def reprChar (quote c : Char) : List Char :=
  let backslash := Char.ofNat 92
  if c = quote ∨ c = backslash then [backslash, c]
  else if c.toNat = 9 then [backslash, 't']
  else if c.toNat = 10 then [backslash, 'n']
  else if c.toNat = 13 then [backslash, 'r']
  else if c.toNat < 32 ∨ c.toNat = 127 then [backslash, 'x', hexDigit (c.toNat / 16), hexDigit (c.toNat % 16)]
  else [c]

/-- `repr(s)`: double quotes only around a text that has single ones and no double ones. -/
def pyQuoted (s : String) : String :=
  let cs := s.toList
  let quote := if singleQuote ∈ cs ∧ doubleQuote ∉ cs then doubleQuote else singleQuote
  String.ofList (quote :: cs.flatMap (reprChar quote) ++ [quote])

mutual

/-- `repr(v)` of a decoded JSON value. -/
def Json.pyRepr : Json → String
  | .null => "None"
  | .bool b => if b then "True" else "False"
  | .int i => toString i
  | .float t => t
  | .str s => pyQuoted s
  | .arr xs => "[" ++ ", ".intercalate (Json.pyReprs xs) ++ "]"
  | .obj kvs => "\x7b" ++ ", ".intercalate (Json.pyReprItems kvs) ++ "\x7d"

def Json.pyReprs : List Json → List String
  | [] => []
  | v :: vs => v.pyRepr :: Json.pyReprs vs

def Json.pyReprItems : List (String × Json) → List String
  | [] => []
  | (k, v) :: kvs => (pyQuoted k ++ ": " ++ v.pyRepr) :: Json.pyReprItems kvs

end

/-- `str(v)`: a string is itself, anything else its `repr`. -/
def Json.pyStr : Json → String
  | .str s => s
  | v => v.pyRepr

/-- `d.get(k)`. -/
def JObject.get? (d : JObject) (k : String) : Option Json := d.lookup k

/-- `d.get(k)` when a true value is there, as text. -/
def JObject.text? (d : JObject) (k : String) : Option String :=
  match d.get? k with
  | some v => if v.truthy then some v.pyStr else none
  | none => none

/-- `d.get(k)` as an optional text: a value Python counts as false keeps no more than its presence. -/
def JObject.value? (d : JObject) (k : String) : Option String :=
  match d.get? k with
  | none | some .null => none
  | some v => if v.truthy then some v.pyStr else some ""

/-- `f.get("params")` when it is an object, else the empty object. -/
def LogEntry.params (e : LogEntry) : JObject :=
  match JObject.get? e.fields "params" with
  | some (.obj p) => p
  | _ => []

/-! ## §3. Users. -/

/-- A piece of a list or an object, written out; the stored keys of an object come in one order. -/
inductive Piece where
  | none
  | number (x : ℚ)
  | infinite (text : String)
  | text (s : String)
  | list (length : ℕ)
  | dict (size : ℕ)
  | key (k : String)
  deriving DecidableEq

/-- A user as Python compares it: `7`, `7.0` and `True` are numbers, the text `"7"` is no number, and a list or an
    object has no hash. -/
inductive User where
  | text (s : String)
  | number (x : ℚ)
  | infinite (text : String)
  | container (pieces : List Piece)
  deriving DecidableEq

mutual

/-- The pieces of a value. -/
def Json.pieces : Json → List Piece
  | .null => [.none]
  | .bool b => [.number (if b then 1 else 0)]
  | .int i => [.number i]
  | .float t =>
      match readDecimal asciiNumerals t.toList with
      | some d => [.number d.value]
      | none => [.infinite t]
  | .str s => [.text s]
  | .arr xs => .list xs.length :: Json.piecesOf xs
  | .obj kvs => .dict kvs.length :: Json.piecesOfItems kvs

def Json.piecesOf : List Json → List Piece
  | [] => []
  | v :: vs => v.pieces ++ Json.piecesOf vs

def Json.piecesOfItems : List (String × Json) → List Piece
  | [] => []
  | (k, v) :: kvs => .key k :: (v.pieces ++ Json.piecesOfItems kvs)

end

/-- The user a JSON value is; `null` is none. -/
def Json.user? (v : Json) : Option User :=
  match v.pieces with
  | [.none] => none
  | [.text s] => some (.text s)
  | [.number x] => some (.number x)
  | [.infinite t] => some (.infinite t)
  | pieces => some (.container pieces)

/-- Numbers of one value are one user, however they are written. -/
example : Json.user? (.int 7) = Json.user? (.float "7.0") := by decide +kernel

/-- `d.get(k)` as a user. -/
def JObject.user? (d : JObject) (k : String) : Option User := (d.get? k).bind Json.user?

/-- Whether Python counts a user as true. -/
def User.truthy : User → Bool
  | .text s => decide (s ≠ "")
  | .number x => decide (x ≠ 0)
  | .infinite _ => true
  | .container pieces => decide (pieces ≠ [.list 0] ∧ pieces ≠ [.dict 0])

/-- Whether a user is there and counts as true. -/
def namesUser (u : Option User) : Bool := u.any User.truthy

/-- `a or b` on users. -/
def userOr (a b : Option User) : Option User := if namesUser a then a else b

/-- Whether a user can be part of a key: `hash` raises `TypeError` for a list and for an object. -/
def User.hashable : User → Bool
  | .container _ => false
  | .text _ | .number _ | .infinite _ => true

/-- `e.user_ctx`, as a user. -/
def LogEntry.contextUser (e : LogEntry) : Option User := e.userCtx.map User.text

/-! ## §4. The grouper's accessors. -/

/-- `_stamped_reqid`: the id the new log format stamps on a line. -/
def stampedReqid (e : LogEntry) : Option String := JObject.text? e.fields "reqid"

/-- `_stamped_reqid_of`: the first stamped id of a list of lines. -/
def stampedReqidOf (es : List LogEntry) : Option String := es.findSome? stampedReqid

/-- `_entry_reqid`: the stamp, else `ReqID`/`ReqId`/`reqid` in the URL parameters, else in the body. -/
def entryReqid (e : LogEntry) : Option String :=
  (stampedReqid e).or
    ([e.params, e.fields].findSome? fun d => ["ReqID", "ReqId", "reqid"].findSome? d.text?)

/-- `_entry_user`: the user a request, a body or an M3 call names in its payload. -/
def entryUser (e : LogEntry) : Option User :=
  match e.entryType with
  | .request => userOr (e.params.user? "User") (e.params.user? "m3user")
  | .requestBody => JObject.user? e.fields "User"
  | .miCall => e.params.user? "m3user"
  | _ => none

/-- `req_user`: the context user, else the payload's. -/
def reqUser (e : LogEntry) : Option User := userOr e.contextUser (entryUser e)

/-- `_entry_server`: everything before the first `/` of the source file. -/
def entryServer (e : LogEntry) : String :=
  String.ofList (e.sourceFile.toList.takeWhile (fun c => decide (c ≠ '/')))

/-- `_INTERNAL`: the work lines. -/
def EntryType.internal : EntryType → Bool
  | .miCall | .miResult | .sql | .info | .error => true
  | .request | .requestBody | .response => false

/-! ## §5. Positions in the stream. -/

/-- `_stream_pos`: `(timestamp is None, timestamp, source_file or "", line_number or 0)`. -/
structure StreamPos where
  isNull : Bool
  ts : Option Instant
  file : String
  line : Int
  deriving DecidableEq, Repr

/-- `_stream_pos(e)`. -/
def streamPos (e : LogEntry) : StreamPos :=
  ⟨e.timestamp.isNone, e.timestamp, e.sourceFile, e.lineNumber.getD 0⟩

/-- `_NO_POS`: `datetime.min`, before every real position. -/
def noPos : StreamPos := ⟨false, some (-62135596800000000), "", -1⟩

/-- Tuple comparison, left to right. -/
def StreamPos.lt (a b : StreamPos) : Bool :=
  if a.isNull ≠ b.isNull then !a.isNull
  else if a.ts ≠ b.ts then decide (a.ts.getD 0 < b.ts.getD 0)
  else if a.file ≠ b.file then decide (a.file < b.file)
  else decide (a.line < b.line)

/-- Time order: the lines without a timestamp come last. -/
def timeLe (a b : LogEntry) : Bool :=
  match a.timestamp, b.timestamp with
  | some x, some y => decide (x ≤ y)
  | _, none => true
  | none, some _ => false

/-- `_entry_stream_order`: the order of the lines WITHIN one transaction, unparsable timestamps
    last. -/
def entryStreamOrderLe (a b : LogEntry) : Bool :=
  match a.timestamp, b.timestamp with
  | some x, some y =>
      decide (x < y) || (decide (x = y) && decide (a.lineNumber.getD 0 ≤ b.lineNumber.getD 0))
  | some _, none => true
  | none, some _ => false
  | none, none => decide (a.lineNumber.getD 0 ≤ b.lineNumber.getD 0)

end RagPipeline.Stage2
