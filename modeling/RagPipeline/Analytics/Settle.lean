/-
  RagPipeline.Analytics.Settle — `settle`: the calls that share a key, as one row.

    * `settleValue` — one value by its rule, from the ordered calls, what is carried and the values before it;
    * `settleKey`   — one key: the calls by their instants (a stable sort, those without an instant last), the
                      carried fields, the values one after the other;
    * `settle`      — every key; `none` is an exception.

  Numbers are values, so a trailing zero is not seen; their texts are a parameter, and so is what
  `fromisoformat` makes of a text in the tenant's zone.
-/
import RagPipeline.Analytics.NormaliseTotal
import RagPipeline.Analytics.Reads
import RagPipeline.Lib.OrderedDict
import Mathlib.Data.List.Sort
import Mathlib.Order.WithBot

namespace RagPipeline.Analytics.Settle

open RagPipeline.Stage2 RagPipeline.Lib

/-! ## §1. Settlements. -/

/-- `Rule`. -/
inductive Rule where
  | first | last | firstText | sum | count | min | max | distinctCount | difference | flag | lookup
  | nearbyCount | nearbyDistinct | nearbyLast | nearbyHas
  deriving DecidableEq, Repr

/-- `FLAG_OPS`. -/
inductive FlagOp where
  | lt | le | eq | ne | ge | gt
  deriving DecidableEq, Repr

/-- `Settled`. -/
structure Settled where
  name : String
  rule : Rule
  field : Option FieldName := none
  /-- what a `lookup` names: `lookup:<lookup>.<attribute>` -/
  looksUp : Option (String × String) := none
  statuses : List String := []
  only : List String := []
  left : Option String := none
  right : Option String := none
  op : FlagOp := .lt
  rightValue : Option Number := none
  methods : List String := []
  matching : List FieldName := []
  windowS : ℕ := 0

/-- `Settlement`; `validate` refuses two values of one name. -/
structure Settlement where
  reads : List String
  key : List FieldName
  carry : List FieldName := []
  values : List Settled
  names : (values.map Settled.name).Nodup

/-- An earlier value is named. -/
def earlier (seen : List String) (s : Settled) (name : Option String) : Bool :=
  name.any fun n => decide (n ∈ seen) && decide (n ≠ s.name)

/-- What `validate` asks of one value, after the names before it; the six comparisons are a type here. -/
def Settled.accepted (carried seen : List String) (s : Settled) : Bool :=
  decide (s.name ∉ seen) && decide (s.name ∉ carried) &&
  match s.rule with
  | .first | .last | .firstText | .sum | .min | .max | .distinctCount => s.field.isSome
  | .count => s.field.isNone
  | .difference => earlier seen s s.left && earlier seen s s.right
  | .flag => earlier seen s s.left && (if s.right.isNone then s.rightValue.isSome else earlier seen s s.right)
  | .lookup => s.looksUp.isSome && s.left.any fun n => decide (n ≠ "")
  | .nearbyCount => !s.methods.isEmpty && !s.matching.isEmpty && decide (0 < s.windowS)
  | .nearbyDistinct | .nearbyLast =>
      !s.methods.isEmpty && !s.matching.isEmpty && decide (0 < s.windowS) && s.field.isSome
  | .nearbyHas =>
      !s.methods.isEmpty && !s.matching.isEmpty && decide (0 < s.windowS) && s.field.isSome && earlier seen s s.left

/-- All values, in order. -/
def acceptedFrom (carried : List String) : List String → List Settled → Bool
  | _, [] => true
  | seen, s :: rest => s.accepted carried seen && acceptedFrom carried (s.name :: seen) rest

/-- `_carry_name`. -/
def carryName : FieldName → String
  | .column name => name
  | .attribute key => key

/-- `validate` has no problem; a settlement's own name is left out. -/
def Settlement.accepted (st : Settlement) : Bool :=
  !st.reads.isEmpty && !st.key.isEmpty && acceptedFrom (st.carry.map carryName) [] st.values

/-- What is read of the language: the texts of numbers and of instants, and the instant a text spells. -/
structure Spelling extends PythonTexts where
  timeText : Instant → String
  numberText : Number → String
  isoTime : String → Option Instant

/-! ## §2. Reading one call. -/

/-- What a call holds under a name. -/
inductive Cell where
  | plain (raw : Raw)
  | time (t : Instant)

/-- `_read`: an empty text is absent. -/
def read (row : FactRow) (name : FieldName) : Option Cell :=
  if name = .column "event_time" then row.eventTime.map .time
  else if name = .column "source_started_at" then row.sourceStartedAt.map .time
  else
    match row.resolveField name with
    | .none => none
    | .str text => if text = "" then none else some (.plain (.str text))
    | raw => some (.plain raw)

/-- The field that a text names. -/
def fieldOf (name : String) : FieldName :=
  match name.toList with
  | 'a' :: 't' :: 't' :: 'r' :: ':' :: key => .attribute (String.ofList key)
  | _ => .column name

/-- `_qualifies`. -/
def qualifies (s : Settled) (row : FactRow) : Bool :=
  passes s.only row.quantityClassification && passes s.statuses row.status

/-- A settled value. -/
inductive Value where
  | number (x : Number)
  | count (n : ℕ)
  | time (t : Instant)
  | text (s : String)
  deriving DecidableEq

variable (w : Spelling)

/-- `str` of a cell. -/
def cellText : Cell → String
  | .plain raw => raw.text.getD "None"
  | .time t => w.timeText t

/-- `str` of a value. -/
def valueText : Value → String
  | .number x => w.numberText x
  | .count n => toString n
  | .time t => w.timeText t
  | .text s => s

/-- `_time_or_none`. -/
def timeOrNone : Raw → Option Instant
  | .str text => w.isoTime text
  | _ => none

/-- `_numeric_or_time`: a number is tried first. -/
def numericOrTime : Cell → Option Value
  | .time t => some (.time t)
  | .plain raw =>
    match numericOrNone w.toPythonTexts raw with
    | some x => some (.number x)
    | none => (timeOrNone w raw).map .time

/-- `_text_or_none`. -/
def textOrNone (cell : Cell) : Option Value :=
  let text := w.strip (cellText w cell)
  if text = "" then none else some (.text text)

/-! ## §3. The rules. -/

/-- `v < c` of two settled values; a number and a time are not compared. -/
def valueLt : Value → Value → Option Bool
  | .number x, .number y => Number.lt x y
  | .time t, .time u => some (decide (t < u))
  | _, _ => none

/-- One step of `min(nums)` or `max(nums)`. -/
def keepExtreme (takes : Value → Value → Option Bool) (cur : Option Value) (v : Value) : Option (Option Value) :=
  match cur with
  | none => some (some v)
  | some c => (takes v c).map fun t => if t then some v else some c

/-- The numbers among some values. -/
def asNumber : Value → Option Number
  | .number x => some x
  | _ => none

/-- The rules that read a field of every qualifying call, on what is present of it. -/
def settleCells (rule : Rule) (cells : List Cell) : Option (Option Value) :=
  match rule with
  | .first => some (cells.head?.bind (numericOrTime w))
  | .last => some (cells.getLast?.bind (numericOrTime w))
  | .firstText => some (cells.head?.bind (textOrNone w))
  | .distinctCount => some (some (.count (cells.map (cellText w)).dedup.length))
  | .sum => (((cells.filterMap (numericOrTime w)).filterMap asNumber).foldlM (Number.add decimalContext)
      Number.zero).map fun x => some (.number x)
  | .min => (cells.filterMap (numericOrTime w)).foldlM (keepExtreme valueLt) none
  | _ => (cells.filterMap (numericOrTime w)).foldlM (keepExtreme fun v c => valueLt c v) none

/-- `_subtract`: two numbers give a number, two times the seconds between them. -/
def subtract : Option Value → Option Value → Option (Option Value)
  | some (.number x), some (.number y) => (Number.sub decimalContext x y).map fun z => some (.number z)
  | some (.time t), some (.time u) => some (some (.number (.finite ((t - u : ℤ) / (second : ℤ)))))
  | _, _ => some none

/-- The number of a value that is compared as one. -/
def comparedNumber : Value → Option Number
  | .number x => some x
  | .count n => some (.finite n)
  | _ => none

/-- The six comparisons, from "less" and "equal". -/
def FlagOp.holds (less equal : Bool) : FlagOp → Bool
  | .lt => less
  | .le => less || equal
  | .eq => equal
  | .ne => !equal
  | .ge => !less
  | .gt => !less && !equal

/-- `_compare`: a `TypeError` is no answer; comparing a NaN raises. -/
def compare (op : FlagOp) (a b : Option Value) : Option (Option Value) :=
  let answer := fun less equal => some (Value.count (if op.holds less equal then 1 else 0))
  match a, b with
  | some (.time t), some (.time u) => some (answer (decide (t < u)) (decide (t = u)))
  | some (.text s), some (.text t) => some (answer (decide (s < t)) (decide (s = t)))
  | some a, some b =>
    match comparedNumber a, comparedNumber b with
    | some x, some y => (Number.lt x y).map fun less => answer less (decide (x = y))
    | _, _ => some none
  | _, _ => some none

/-- The values that are settled so far. -/
abbrev Values := OrderedDict String (Option Value)

/-- The carried fields. -/
abbrev Carried := OrderedDict String Cell

/-- A key text: an empty one is none. -/
def keyText (text : String) : Option String := if text = "" then none else some text

/-- `_key_for`: an earlier value, a carried field, or the first call that has the field. -/
def keyFor (name : Option String) (calls : List FactRow) (carried : Carried) (values : Values) : Option String :=
  name.bind fun name =>
    if name = "" then none
    else
      match values.get? name, carried.get? name, carried.get? (carryName (fieldOf name)) with
      | some value, _, _ => value.bind fun v => keyText (valueText w v)
      | none, some cell, _ => keyText (cellText w cell)
      | none, none, some cell => keyText (cellText w cell)
      | none, none, none => (calls.filterMap fun r => read r (fieldOf name)).head?.map (cellText w)

/-- `_looked_up`. -/
def lookedUp (resolve : String → String → String → Option String) (s : Settled) (key : Option String) :
    Option Value :=
  key.bind fun key => s.looksUp.bind fun path => ((resolve path.1 path.2 key).bind keyText).map .text

/-- The number that a cell is compared as; a `float` has the value nearest to its text. -/
def cellNumber : Cell → Option Number
  | .plain (.bool b) => some (.finite (if b then 1 else 0))
  | .plain (.int n) => some (.finite n)
  | .plain (.decimal x _) => some x
  | .plain (.float shown) => (w.decimal shown).bind float
  | _ => none

/-- `==` of two cells. -/
def sameCell (a b : Cell) : Bool :=
  match cellNumber w a, cellNumber w b with
  | some x, some y => decide (x = y) && decide (x ≠ .nan)
  | none, none =>
    match a, b with
    | .time t, .time u => decide (t = u)
    | .plain (.str s), .plain (.str t) => decide (s = t)
    | .plain (.other s), .plain (.other t) => decide (s = t)
    | _, _ => false
  | _, _ => false

/-- The fields to match, of a call that has all of them. -/
def wanted (s : Settled) (row : FactRow) : Option (List Cell) := s.matching.mapM (read row)

/-- Whether a call has the wanted fields. -/
def matchesWanted (s : Settled) (cells : List Cell) (row : FactRow) : Bool :=
  match s.matching.mapM (read row) with
  | none => false
  | some cells' => (cells'.zip cells).all fun p => sameCell w p.1 p.2

/-- The context calls of a span. -/
def nearbyRows (s : Settled) (context : List FactRow) (lo hi : Instant) (cells : List Cell) : List FactRow :=
  context.filter fun r => (r.method.any fun method => decide (method ∈ s.methods)) &&
    (r.eventTime.any fun t => decide (lo ≤ t ∧ t ≤ hi)) && qualifies s r && matchesWanted w s cells r

/-- Where a call is in time: those without an instant are last. -/
def place (row : FactRow) : WithTop Instant :=
  match row.eventTime with
  | none => ⊤
  | some t => (t : WithTop Instant)

/-- `sorted(rows, key=event_time)`. -/
def ordered (rows : List FactRow) : List FactRow := rows.insertionSort fun a b => place a ≤ place b

/-- What a `nearby_*` rule makes of its rows. -/
def nearbyValue (s : Settled) (values : Values) (rows : List FactRow) : Option Value :=
  let seen := (ordered rows).filterMap fun r => s.field.bind fun f => (read r f).map (cellText w)
  match s.rule with
  | .nearbyCount => some (.count rows.length)
  | .nearbyDistinct => some (.count seen.dedup.length)
  | .nearbyLast => seen.getLast?.map .text
  | _ => ((s.left.bind fun name => values.get? name).join).map fun target =>
      .count (if valueText w target ∈ seen then 1 else 0)

/-- `at - timedelta(seconds=…)`: raises before the calendar. -/
def windowStart (t : Instant) (seconds : ℕ) : Option Instant :=
  if calendarStart ≤ t - seconds * second then some (t - seconds * second) else none

/-- `_nearby`. -/
def nearby (s : Settled) (calls context : List FactRow) (values : Values) : Option (Option Value) :=
  let timed := calls.filter fun r => r.eventTime.isSome
  let none_ := some (nearbyValue w s values [])
  if context = [] ∨ s.windowS = 0 then none_
  else
    match timed.head?, timed.getLast?.bind FactRow.eventTime with
    | some first, some hi =>
      match first.eventTime with
      | none => none_
      | some t => (windowStart t s.windowS).map fun lo =>
          nearbyValue w s values (((wanted s first).map (nearbyRows w s context lo hi)).getD [])
    | _, _ => none_

/-! ## §4. One key, and all of them. -/

/-- What `settle` is given beside the rows. -/
structure Around where
  context : List FactRow := []
  resolve : String → String → String → Option String := fun _ _ _ => none

/-- One value of the loop. -/
def settleValue (around : Around) (calls : List FactRow) (carried : Carried) (values : Values) (s : Settled) :
    Option (Option Value) :=
  let qualifying := calls.filter (qualifies s)
  match s.rule with
  | .first | .last | .firstText | .distinctCount | .sum | .min | .max =>
    -- `assert s.field is not None`
    s.field.bind fun f => settleCells w s.rule (qualifying.filterMap fun r => read r f)
  | .count => some (some (.count qualifying.length))
  | .difference => subtract (s.left.bind fun n => values.get? n).join (s.right.bind fun n => values.get? n).join
  | .flag => compare s.op (s.left.bind fun n => values.get? n).join
      (match s.right with
        | some n => (values.get? n).join
        | none => s.rightValue.map .number)
  | .lookup => some (lookedUp around.resolve s (keyFor w s.left calls carried values))
  | .nearbyCount | .nearbyDistinct | .nearbyLast | .nearbyHas => nearby w s calls around.context values

/-- `SettledRow`, without its key. -/
structure SettledRow where
  eventTime : Option Instant
  carried : Carried
  values : Values
  calls : ℕ

/-- The carried fields: each from the first call that has it. -/
def carriedOf (st : Settlement) (calls : List FactRow) : Carried :=
  st.carry.foldl (fun carried name =>
    match (calls.filterMap fun r => read r name).head? with
    | none => carried
    | some cell => carried.set (carryName name) cell) OrderedDict.empty

/-- The values, one after the other. -/
def valuesOf (st : Settlement) (around : Around) (calls : List FactRow) : Option Values :=
  st.values.foldlM (fun values s =>
    (settleValue w around calls (carriedOf st calls) values s).map (values.set s.name)) OrderedDict.empty

/-- `_settle_key`. -/
def settleKey (st : Settlement) (around : Around) (rows : List FactRow) : Option SettledRow :=
  let calls := ordered rows
  (valuesOf w st around calls).map fun values =>
    { eventTime := (calls.filterMap FactRow.eventTime).head?
      carried := carriedOf st calls
      values := values
      calls := rows.length }

/-- The key of a row; other methods and rows without one of the fields have none. -/
def settledKey (st : Settlement) (row : FactRow) : Option (List String) :=
  if row.method.any (fun method => decide (method ∈ st.reads)) then
    (st.key.mapM (read row)).map fun cells => cells.map (cellText w)
  else none

/-- The rows of a key. -/
def keyRows (st : Settlement) (rows : List FactRow) (key : List String) : List FactRow :=
  rows.filter fun r => decide (settledKey w st r = some key)

/-- **`settle`.** -/
def settle (st : Settlement) (around : Around) (rows : List FactRow) :
    Option (List (List String × SettledRow)) :=
  (rows.filterMap (settledKey w st)).dedup.mapM fun key =>
    (settleKey w st around (keyRows w st rows key)).map (Prod.mk key)

end RagPipeline.Analytics.Settle
