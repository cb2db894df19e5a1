/-
  RagPipeline.Analytics.StoredForms — declarations as they are stored: `settle_store.py` and `registry.py`.

  A settlement is one JSON document (`toJson`, `fromJson`), a metric definition one row of
  `analytics_metrics` (`toRow`, `fromRow`).  The declarations are those of the source, with texts for the
  fields they name; `SettledDecl.settled` and `MeasureDecl.measure` are what settling and folding read of
  them.

  A reader's `none` is an exception.  A member that has to be a text and is something else is one too: no
  writer stores such a member.
-/
import RagPipeline.Analytics.Settle
import RagPipeline.Analytics.NumericKeys
import RagPipeline.Stage2.Entry
import Mathlib.Data.Finset.Sort
import Mathlib.Data.String.Basic

namespace RagPipeline.Analytics.StoredForms

open RagPipeline.Stage2 RagPipeline.Lib
open RagPipeline.Analytics.Settle (Rule FlagOp Settled Settlement fieldOf carryName)
open RagPipeline.Analytics.NumericKeys (DigitTable cleaned storable)

/-! ## §1. Decimals. -/

/-- A `Decimal`; the payload of a NaN is a number, too. -/
inductive DecimalValue where
  | finite (d : Dec) (stored : storable d = true)
  | infinity (negative : Bool)
  | nan (negative signaling : Bool) (payload : ℕ)
  deriving DecidableEq

/-- The digits of a payload; none for zero. -/
def payloadText (payload : ℕ) : List Char := if payload = 0 then [] else (digitsOf payload).map digitChar

/-- `str(decimal)`. -/
def DecimalValue.text : DecimalValue → List Char
  | .finite d _ => d.text
  | .infinity negative => signText negative ++ ['I', 'n', 'f', 'i', 'n', 'i', 't', 'y']
  | .nan negative signaling payload =>
      signText negative ++ ((if signaling then ['s', 'N', 'a', 'N'] else ['N', 'a', 'N']) ++ payloadText payload)

/-- The number that arithmetic and comparisons see. -/
def DecimalValue.number : DecimalValue → Number
  | .finite d _ => .finite d.value
  | .infinity negative => .infinity negative
  | .nan _ signaling _ => if signaling then .snan else .nan

/-- What is read of the language: the digits, and `int` of a decoded value. -/
structure Language extends DigitTable where
  int : Json → Option ℤ
  int_int : ∀ n, int (.int n) = some n

variable (l : Language)

/-- The payload behind a NaN. -/
def readPayload (digits : List Char) : Option ℕ :=
  match spanDigits l.toNumerals digits with
  | (ds, []) => some (numberOf ds)
  | _ => none

/-- An infinity or a NaN, however it is written. -/
def readSpecial (text : List Char) : Option DecimalValue :=
  let sign := spanSign text
  let low := sign.2.map Char.toLower
  if low = ['i', 'n', 'f'] ∨ low = ['i', 'n', 'f', 'i', 'n', 'i', 't', 'y'] then some (.infinity sign.1)
  else if low.take 3 = ['n', 'a', 'n'] then (readPayload l (sign.2.drop 3)).map (.nan sign.1 false)
  else if low.take 4 = ['s', 'n', 'a', 'n'] then (readPayload l (sign.2.drop 4)).map (.nan sign.1 true)
  else none

/-- `Decimal(text)`. -/
def decimalOf (text : List Char) : Option DecimalValue :=
  match readSpecial l (cleaned text) with
  | some value => some value
  | none =>
    (readDecimal l.toNumerals (cleaned text)).bind fun d => if h : storable d = true then some (.finite d h) else none

/-! ## §2. Members of a document. -/

/-- `text.strip()`. -/
def strip (text : String) : String := String.ofList (stripBy isSpace text.toList)

/-- `text or None`. -/
def orNone (text : Option String) : Option String := text.filter fun s => decide (s ≠ "")

/-- A text or null. -/
def textJson (text : Option String) : Json := (text.map Json.str).getD .null

/-- Texts in a list. -/
def textsJson (texts : List String) : Json := .arr (texts.map Json.str)

/-- A member that is a text. -/
def asText : Json → Option String
  | .str s => some s
  | _ => none

/-- `raw.get(member) or None`, of a text. -/
def textOrNone : Option Json → Option (Option String)
  | none => some none
  | some (.str s) => some (orNone (some s))
  | some j => if j.truthy then none else some none

/-- What a loop over `member or ()` goes through: the characters of a text, the keys of an object. -/
def items : Option Json → Option (List Json)
  | none => some []
  | some (.arr xs) => some xs
  | some (.str s) => some (s.toList.map fun c => .str (String.singleton c))
  | some (.obj kvs) => some (kvs.map fun kv => .str kv.1)
  | some j => if j.truthy then none else some []

/-- `tuple(str(x) for x in member or ())`. -/
def textsOf (j : Option Json) : Option (List String) := (items j).map fun xs => xs.map Json.pyStr

/-- `frozenset(member or ())`. -/
def setOf (j : Option Json) : Option (Finset String) := ((items j).bind fun xs => xs.mapM asText).map List.toFinset

/-! ## §3. Settlements. -/

/-- `Rule`'s values. -/
def ruleValue : Rule → String
  | .first => "first"
  | .last => "last"
  | .firstText => "first_text"
  | .sum => "sum"
  | .count => "count"
  | .min => "min"
  | .max => "max"
  | .distinctCount => "distinct_count"
  | .difference => "difference"
  | .flag => "flag"
  | .lookup => "lookup"
  | .nearbyCount => "nearby_count"
  | .nearbyDistinct => "nearby_distinct"
  | .nearbyLast => "nearby_last"
  | .nearbyHas => "nearby_has"

/-- `Rule(value)`. -/
def ruleOf (value : String) : Option Rule :=
  [Rule.first, .last, .firstText, .sum, .count, .min, .max, .distinctCount, .difference, .flag, .lookup, .nearbyCount,
    .nearbyDistinct, .nearbyLast, .nearbyHas].find? fun r => decide (ruleValue r = value)

/-- `NEARBY`. -/
def isNearby : Rule → Bool
  | .nearbyCount | .nearbyDistinct | .nearbyLast | .nearbyHas => true
  | _ => false

/-- `Settled`. -/
structure SettledDecl where
  name : String
  rule : Rule
  field : Option String := none
  statuses : Finset String := ∅
  only : Finset String := ∅
  left : Option String := none
  right : Option String := none
  op : Option String := none
  rightValue : Option DecimalValue := none
  methods : List String := []
  matching : List String := []
  windowS : Option ℤ := none

/-- `Settlement`. -/
structure SettlementDecl where
  name : String
  reads : List String
  key : List String
  carry : List String := []
  values : List SettledDecl

/-- One value as `to_json` stores it. -/
def settledToJson (v : SettledDecl) : JObject :=
  [("name", .str v.name), ("rule", .str (ruleValue v.rule)), ("field", textJson v.field),
    ("statuses", textsJson (v.statuses.sort (· ≤ ·))), ("only", textsJson (v.only.sort (· ≤ ·))),
    ("left", textJson v.left), ("right", textJson v.right), ("op", textJson v.op),
    ("right_value", textJson (v.rightValue.map fun x => String.ofList x.text))] ++
  if isNearby v.rule then
    [("methods", textsJson v.methods), ("match", textsJson v.matching),
      ("window_s", (v.windowS.map Json.int).getD .null)]
  else []

/-- `to_json`. -/
def toJson (st : SettlementDecl) : JObject :=
  [("reads", textsJson st.reads), ("key", textsJson st.key), ("carry", textsJson st.carry),
    ("values", .arr (st.values.map fun v => .obj (settledToJson v)))]

/-- `Decimal(str(rv))`, unless there is none. -/
def rightOf : Option Json → Option (Option DecimalValue)
  | none | some .null | some (.str "") => some none
  | some j => (decimalOf l j.pyStr.toList).map some

/-- `int(raw["window_s"])`, unless there is none. -/
def windowOf : Option Json → Option (Option ℤ)
  | none | some .null | some (.str "") => some none
  | some j => (l.int j).map some

/-- `str(raw.get("name") or "").strip()`. -/
def nameOf : Option Json → String
  | some j => if j.truthy then strip j.pyStr else ""
  | none => ""

/-- One value as `from_json` reads it. -/
def settledFromJson : Json → Option SettledDecl
  | .obj raw => do
    let rule ← ((JObject.get? raw "rule").bind asText).bind ruleOf
    let field ← textOrNone (JObject.get? raw "field")
    let statuses ← setOf (JObject.get? raw "statuses")
    let only ← setOf (JObject.get? raw "only")
    let left ← textOrNone (JObject.get? raw "left")
    let right ← textOrNone (JObject.get? raw "right")
    let op ← textOrNone (JObject.get? raw "op")
    let rightValue ← rightOf l (JObject.get? raw "right_value")
    let methods ← textsOf (JObject.get? raw "methods")
    let matching ← textsOf (JObject.get? raw "match")
    let windowS ← windowOf l (JObject.get? raw "window_s")
    return ⟨nameOf (JObject.get? raw "name"), rule, field, statuses, only, left, right, op, rightValue, methods, matching,
      windowS⟩
  | _ => none

/-- `from_json`. -/
def fromJson (name : String) (doc : JObject) : Option SettlementDecl := do
  let values ← (items (doc.get? "values")).bind fun raws => raws.mapM (settledFromJson l)
  let reads ← textsOf (doc.get? "reads")
  let key ← textsOf (doc.get? "key")
  let carry ← textsOf (doc.get? "carry")
  return ⟨name, reads, key, carry, values⟩

/-! ## §4. What `validate` accepts of a settlement. -/

/-- `FLAG_OPS`. -/
def flagOps : List (String × FlagOp) :=
  [("<", .lt), ("<=", .le), ("==", .eq), ("!=", .ne), (">=", .ge), (">", .gt)]

/-- The text behind `LOOKUP_PREFIX`. -/
def lookupPath (field : Option String) : Option (List Char) :=
  field.bind fun f => if "lookup:".toList <+: f.toList then some (f.toList.drop 7) else none

/-- A settled value that was defined before is named. -/
def namesEarlier (seen : List String) (v : SettledDecl) (name : Option String) : Bool :=
  name.any fun n => decide (n ∈ seen) && decide (n ≠ v.name)

/-- What every `nearby_*` rule has to have. -/
def nearbyComplete (v : SettledDecl) : Bool :=
  !v.methods.isEmpty && !v.matching.isEmpty && v.windowS.any fun w => decide (0 < w)

/-- What `validate` asks of a value by its rule. -/
def SettledDecl.complete (seen : List String) (v : SettledDecl) : Bool :=
  match v.rule with
  | .first | .last | .firstText | .sum | .min | .max | .distinctCount => truthy v.field
  | .count => !truthy v.field
  | .difference => namesEarlier seen v v.left && namesEarlier seen v v.right
  | .flag => namesEarlier seen v v.left &&
      (if v.right.isNone then v.rightValue.isSome else namesEarlier seen v v.right) &&
      v.op.any fun op => decide (op ∈ flagOps.map Prod.fst)
  | .lookup => (lookupPath v.field).any (fun path => decide ('.' ∈ path)) && truthy v.left
  | .nearbyCount => nearbyComplete v
  | .nearbyDistinct | .nearbyLast => nearbyComplete v && truthy v.field
  | .nearbyHas => nearbyComplete v && truthy v.field && truthy v.left && namesEarlier seen v v.left

/-- What `validate` asks of one value, after the names before it. -/
def SettledDecl.accepted (carried seen : List String) (v : SettledDecl) : Bool :=
  decide (v.name ∉ seen) && decide (v.name ∉ carried) && v.complete seen

/-- All values, in order. -/
def acceptedFrom (carried : List String) : List String → List SettledDecl → Bool
  | _, [] => true
  | seen, v :: rest => v.accepted carried seen && acceptedFrom carried (v.name :: seen) rest

/-- `validate` has no problem. -/
def SettlementDecl.accepted (st : SettlementDecl) : Bool :=
  decide (strip st.name ≠ "") && !st.reads.isEmpty && !st.key.isEmpty &&
    acceptedFrom (st.carry.map fun c => carryName (fieldOf c)) [] st.values

/-! ## §5. What settling reads of a settlement. -/

/-- What a `lookup` looks up: `partition(".")`. -/
def looksUp (field : Option String) : Option (String × String) :=
  (lookupPath field).map fun path =>
    (String.ofList (path.takeWhile fun c => decide (c ≠ '.')),
      String.ofList ((path.dropWhile fun c => decide (c ≠ '.')).drop 1))

/-- One value.  A flag takes an empty `right` for none; a comparison outside the six is refused. -/
def SettledDecl.settled (v : SettledDecl) : Settled where
  name := v.name
  rule := v.rule
  field := v.field.map fieldOf
  looksUp := looksUp v.field
  statuses := v.statuses.sort (· ≤ ·)
  only := v.only.sort (· ≤ ·)
  left := v.left
  right := if v.rule = .flag then orNone v.right else v.right
  op := (v.op.bind fun op => flagOps.lookup op).getD .lt
  rightValue := v.rightValue.map DecimalValue.number
  methods := v.methods
  matching := v.matching.map fieldOf
  windowS := (v.windowS.getD 0).toNat

theorem name_not_mem_of_acceptedFrom {carried : List String} {values : List SettledDecl} {seen : List String}
    (h : acceptedFrom carried seen values = true) {name : String} (hname : name ∈ seen) :
    name ∉ values.map SettledDecl.name := by
  induction values generalizing seen with
  | nil => exact List.not_mem_nil
  | cons v rest ih =>
    simp only [acceptedFrom, SettledDecl.accepted, Bool.and_eq_true, decide_eq_true_eq] at h
    rw [List.map_cons, List.mem_cons, not_or]
    exact ⟨fun heq => h.1.1.1 (heq ▸ hname), ih h.2 (List.mem_cons_of_mem _ hname)⟩

/-- No two values of an accepted settlement have one name. -/
theorem nodup_of_acceptedFrom {carried : List String} {values : List SettledDecl} {seen : List String}
    (h : acceptedFrom carried seen values = true) : (values.map SettledDecl.name).Nodup := by
  induction values generalizing seen with
  | nil => exact List.nodup_nil
  | cons v rest ih =>
    rw [acceptedFrom, Bool.and_eq_true] at h
    exact List.nodup_cons.mpr ⟨name_not_mem_of_acceptedFrom h.2 List.mem_cons_self, ih h.2⟩

/-- A settlement that `validate` accepts. -/
structure Declared where
  decl : SettlementDecl
  accepted : decl.accepted = true

theorem Declared.acceptedValues (d : Declared) :
    acceptedFrom (d.decl.carry.map fun c => carryName (fieldOf c)) [] d.decl.values = true := by
  have h := d.accepted
  rw [SettlementDecl.accepted, Bool.and_eq_true] at h
  exact h.2

/-- What settling reads of it. -/
def Declared.settlement (d : Declared) : Settlement where
  reads := d.decl.reads
  key := d.decl.key.map fieldOf
  carry := d.decl.carry.map fieldOf
  values := d.decl.values.map SettledDecl.settled
  names := by
    rw [List.map_map]
    exact nodup_of_acceptedFrom d.acceptedValues

/-! ## §6. Metric definitions. -/

/-- `Aggregation`'s values. -/
def aggregationValue : Aggregation → String
  | .sum => "sum"
  | .count => "count"
  | .average => "average"
  | .stats => "stats"
  | .extent => "extent"
  | .percentile => "percentile"
  | .distinct => "distinct"
  | .latest => "latest"

/-- `Aggregation(value)`. -/
def aggregationOf (value : String) : Option Aggregation :=
  [Aggregation.sum, .count, .average, .stats, .extent, .percentile, .distinct, .latest].find? fun a =>
    decide (aggregationValue a = value)

/-- `Status`. -/
inductive MetricStatus where
  | draft | active | inactive
  deriving DecidableEq, Repr

/-- `Status`'s values. -/
def statusValue : MetricStatus → String
  | .draft => "draft"
  | .active => "active"
  | .inactive => "inactive"

/-- `Status(value)`. -/
def statusOf (value : String) : Option MetricStatus :=
  [MetricStatus.draft, .active, .inactive].find? fun s => decide (statusValue s = value)

/-- `Classification`'s values. -/
def classifications : List String := ["pick", "attempt", "correction", "non_quantity", "unusable"]

/-- `Measure`. -/
structure MeasureDecl where
  name : String
  aggregation : Aggregation
  field : Option String := none
  only : Finset String := ∅
  statuses : Finset String := ∅
  unit : Option String := none
  minus : Option String := none

/-- `MetricDefinition`. -/
structure MetricDecl where
  name : String
  dimensions : List String
  measures : List MeasureDecl
  grains : List String
  methodFilter : List String := []
  transactionFilter : List String := []
  status : MetricStatus := .draft
  source : String := "transaction"
  rollupsFrom : Option Instant := none

/-- The columns of an `analytics_metrics` row that are read back. -/
structure MetricRow where
  name : String
  dimensions : List String
  measures : List Json
  filter : JObject
  grains : List String
  source : Option String
  status : String
  rollupsFrom : Option Instant

/-- A key that is there only with a text. -/
def keyIfAny (key : String) (text : Option String) : JObject :=
  ((orNone text).map fun s => (key, Json.str s)).toList

/-- `measure_to_json`. -/
def measureToJson (m : MeasureDecl) : JObject :=
  [("name", .str m.name), ("aggregation", .str (aggregationValue m.aggregation)), ("field", textJson m.field),
    ("only", textsJson (m.only.sort (· ≤ ·))), ("statuses", textsJson (m.statuses.sort (· ≤ ·)))] ++
  (keyIfAny "unit" m.unit ++ keyIfAny "minus" m.minus)

/-- `to_row`. -/
def toRow (d : MetricDecl) : MetricRow where
  name := d.name
  dimensions := d.dimensions
  measures := d.measures.map fun m => .obj (measureToJson m)
  filter := [("methods", textsJson d.methodFilter), ("transactions", textsJson d.transactionFilter)]
  grains := d.grains
  source := some d.source
  status := statusValue d.status
  rollupsFrom := d.rollupsFrom

/-- `raw.get("field")`: a text or none. -/
def fieldFrom : Option Json → Option (Option String)
  | none | some .null => some none
  | some j => (asText j).map some

/-- `str(raw[key]).strip() or None`, when there is one. -/
def trimmedFrom : Option Json → Option String
  | none | some .null => none
  | some j => orNone (some (strip j.pyStr))

/-- `frozenset(Classification(x) for x in raw.get("only") or ())`. -/
def onlyFrom (j : Option Json) : Option (Finset String) :=
  ((items j).bind fun xs => xs.mapM fun x => (asText x).filter fun s => decide (s ∈ classifications)).map List.toFinset

/-- `measure_from_json`. -/
def measureFromJson : Json → Option MeasureDecl
  | .obj raw => do
    let name ← (JObject.get? raw "name").bind asText
    let aggregation ← ((JObject.get? raw "aggregation").bind asText).bind aggregationOf
    let field ← fieldFrom (JObject.get? raw "field")
    let only ← onlyFrom (JObject.get? raw "only")
    let statuses ← setOf (JObject.get? raw "statuses")
    return ⟨name, aggregation, field, only, statuses, trimmedFrom (JObject.get? raw "unit"),
      trimmedFrom (JObject.get? raw "minus")⟩
  | _ => none

/-- `tuple(filter.get(key) or ())`. -/
def filterOf (j : Option Json) : Option (List String) := (items j).bind fun xs => xs.mapM asText

/-- `from_row`. -/
def fromRow (row : MetricRow) : Option MetricDecl := do
  let measures ← row.measures.mapM measureFromJson
  let methodFilter ← filterOf (row.filter.get? "methods")
  let transactionFilter ← filterOf (row.filter.get? "transactions")
  let status ← statusOf row.status
  return {
    name := row.name
    dimensions := row.dimensions
    measures := measures
    grains := row.grains
    methodFilter := methodFilter
    transactionFilter := transactionFilter
    status := status
    source := (orNone row.source).getD "transaction"
    rollupsFrom := row.rollupsFrom }

/-- What the fold reads of a measure: an empty field is none. -/
def MeasureDecl.measure (m : MeasureDecl) : Measure where
  name := m.name
  aggregation := m.aggregation
  field := (orNone m.field).map fieldOf
  only := m.only.sort (· ≤ ·)
  statuses := m.statuses.sort (· ≤ ·)
  minus := (orNone m.minus).map fieldOf

/-- What the fold reads of a definition. -/
def MetricDecl.definition (d : MetricDecl) : MetricDefinition where
  measures := d.measures.map MeasureDecl.measure
  methodFilter := d.methodFilter
  transactionFilter := d.transactionFilter

/-! ## §7. What `validate` accepts of a metric definition. -/

/-- `FACT_FIELDS`. -/
def factFields : List String :=
  ["source_transaction_id", "source_started_at", "source_version_hash", "revision", "event_time", "business_date",
    "duration_ms", "method", "transaction_name", "transaction_type", "status", "item_number", "lot_number",
    "order_number", "delivery_number", "warehouse", "warehouse_id", "from_location", "to_location", "user_name",
    "device_id", "device_name", "quantity", "quantity_classification"]

/-- `RECORD_FIELDS`. -/
def recordFields : List String :=
  ["source_transaction_id", "source_started_at", "record_index", "event_time", "business_date", "method",
    "transaction_name", "mi_program", "mi_transaction"]

/-- `GRAINS`. -/
def grainNames : List String := ["hourly", "daily", "weekly", "monthly"]

/-- `_STATUSES`. -/
def transactionStatuses : List String := ["success", "soft", "error", "incomplete"]

/-- `QUANTITY_FIELD`'s methods. -/
def quantityMethods : List String := ["ConfirmPickLine", "ReportCount", "AddStockCountLine"]

/-- What validation is given: the attributes that are approved, and what a person said that a field is. -/
structure Registry where
  known : List String
  kinds : String → Option String := fun _ => none

variable (g : Registry)

/-- `_bad_field` has nothing against the name. -/
def usable (record : Bool) (name : String) : Bool :=
  match fieldOf name with
  | .attribute key => decide (record = true ↔ "rec.".toList <+: key.toList) && decide (key ∈ g.known)
  | .column name => decide (name ∈ if record then recordFields else factFields)

/-- `_kind_of`. -/
def kindOf (name : Option String) : Option String :=
  name.bind fun name =>
    match fieldOf name with
    | .attribute key => g.kinds key
    | .column _ => none

/-- `_ARITHMETIC`: what a slice refuses. -/
def isArithmetic : Aggregation → Bool
  | .count | .distinct => false
  | _ => true

/-- What the kinds of the two fields refuse. -/
def kindsAccept (m : MeasureDecl) : Bool :=
  let field := kindOf g m.field
  let minus := kindOf g m.minus
  if (field = some "slice" ∨ minus = some "slice") ∧ isArithmetic m.aggregation then false
  else if m.aggregation = .sum ∧ (field = some "level" ∨ minus = some "level") then
    decide (field = some "level" ∧ minus = some "level")
  else true

/-- What `validate` asks of a measure. -/
def MeasureDecl.accepted (d : MetricDecl) (m : MeasureDecl) : Bool :=
  let record := decide (d.source = "record")
  (m.field.all fun f => decide (f = "") || usable g record f) &&
    (decide (m.aggregation = .count) || truthy m.field) &&
    (m.minus.all fun f => decide (f = "") || (usable g record f && truthy m.field &&
      decide (m.aggregation ≠ .count) && decide (m.aggregation ≠ .distinct))) &&
    kindsAccept g m &&
    (if record then decide (m.statuses = ∅ ∧ m.only = ∅)
      else decide (∀ status ∈ m.statuses, status ∈ transactionStatuses)) &&
    (decide (m.field ≠ some "quantity") || record ||
      (!d.methodFilter.isEmpty && d.methodFilter.all fun x => decide (x ∈ quantityMethods)))

/-- `validate` has no problem. -/
def MetricDecl.accepted (d : MetricDecl) : Bool :=
  decide (d.source = "transaction" ∨ d.source = "record") &&
    d.dimensions.all (usable g (decide (d.source = "record"))) &&
    (d.grains.all fun grain => decide (grain ∈ grainNames)) &&
    d.measures.all (MeasureDecl.accepted g d)

end RagPipeline.Analytics.StoredForms
