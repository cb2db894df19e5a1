/-
  RagPipeline.Analytics.Normalise — `normalise`, one transaction row as a fact or a quality issue.

  A fact is the transaction's contribution to every metric: its identity (BOTH columns, the id and the
  start), its local day, its dimensions, a quantity for the three methods that carry one, and the long
  tail of attributes.  A quantity method without a readable quantity is quarantined, never folded as
  zero.

  What the interpreter supplies is a parameter: `digest` is `sha256` of the canonical text of a fact,
  `localDate` a zone's calendar, `parseDecimal` the decimal constructor.  `FieldConfig` is what the
  tenant's switches make of a transaction's response lines (`payload.extract` under the approved
  fields, `payload.record_total`).
-/
import RagPipeline.Analytics.Roles
import RagPipeline.Stage2.Store

namespace RagPipeline.Analytics

open RagPipeline.Stage2 RagPipeline.Lib

/-! ## §1. The contract. -/

/-- `QUANTITY_FIELD`: the methods that carry a quantity, and the attribute it is in. -/
def quantityField (method : Option String) : Option String :=
  match method with
  | some "ConfirmPickLine" => some "QuantityPicked"
  | some "ReportCount" => some "CountedQuantity"
  | some "AddStockCountLine" => some "CountedQuantity"
  | _ => none

/-- `Classification`. -/
inductive Classification where
  | pick | attempt | correction | nonQuantity | unusable
  deriving DecidableEq, Repr

/-- `classify`: the allow-list first, then the sign. -/
def classify (method : Option String) (quantity : Option Rat) : Classification :=
  match quantityField method, quantity with
  | none, _ => .nonQuantity
  | some _, none => .unusable
  | some _, some q => if 0 < q then .pick else if q = 0 then .attempt else .correction

/-- `usable_dimension_value`: neither empty nor a placeholder. -/
def usableDimensionValue (type : Option String) : Bool :=
  truthy type && !(type.getD "").toList.any fun c => decide (c = 'x' ∨ c = 'X')

/-! ## §2. Facts. -/

/-- What a fact says: `FACT_FIELDS` without the hash and the revision, and the attributes.  The three
    bookkeeping attributes (`__src_fp`, `__norm_v`, `__mi_records`) are fields of their own. -/
structure FactContent (Fp : Type) where
  sourceTransactionId : UUID
  sourceStartedAt : Option Instant
  eventTime : Option Instant
  businessDate : Option Day
  durationMs : Option Int
  method : Option String
  transactionName : Option String
  transactionType : Option String
  status : TxnStatus
  itemNumber : Option String
  lotNumber : Option String
  orderNumber : Option String
  deliveryNumber : Option String
  warehouse : Option String
  warehouseId : Option String
  fromLocation : Option String
  toLocation : Option String
  userName : Option String
  deviceId : Option String
  deviceName : Option String
  quantity : Option Rat
  classification : Classification
  attributes : JObject
  srcFp : Option Fp
  normVersion : Option Nat
  miRecords : Nat

/-- The identity of a fact: the id AND the event time. -/
abbrev FactKey := UUID × Option Instant

variable {Fp : Type}

/-- `key_of`. -/
def FactContent.key (f : FactContent Fp) : FactKey := (f.sourceTransactionId, f.eventTime)

/-- A row of `analytics_quality_issues`. -/
structure QualityIssue where
  sourceTransactionId : UUID
  sourceStartedAt : Option Instant
  reason : String
  detail : String
  method : Option String
  field : String
  raw : Option Json
  present : Bool

/-- `_SRC_FP_KEY`, `_NORM_V_KEY`, `_MI_RECORDS_KEY`: what the stamps of a fact overwrite in its attributes. -/
def stampKeys : List String := ["__src_fp", "__norm_v", "__mi_records"]

/-- The attributes without the stamps. -/
def unstamped (attributes : JObject) : JObject := attributes.filter fun kv => decide (kv.1 ∉ stampKeys)

/-- `_canonical` of a quantity: `normalize()` rounds it to the context. -/
def canonicalQuantity (q : Rat) : Rat := (decimalContext.round q).getD q

/-- `_canonical` of the attributes: sorted by key, a float as its text. -/
def canonicalAttributes (attributes : JObject) : JObject :=
  (Json.canonicalItems (unstamped attributes)).insertionSort fun a b => a.1 ≤ b.1

/-- What is hashed of a fact. -/
def FactContent.canonical (f : FactContent Fp) : FactContent Fp :=
  { f with
    quantity := f.quantity.map canonicalQuantity
    attributes := canonicalAttributes f.attributes }

/-- The functions the fold calls and does not define. -/
structure FoldWorld (Fp : Type) where
  /-- `sha256(json.dumps(payload))`. -/
  digest : FactContent Fp → Fp
  /-- The local calendar day of an instant. -/
  localDate : Zone → Instant → Day
  /-- `Decimal(text)`. -/
  parseDecimal : String → Option Rat

/-- What the tenant's switches make of the response lines of a transaction of this name. -/
structure FieldConfig where
  /-- `payload.select(payload.extract(lines, mi), approved)`. -/
  responseAttributes : Option String → List LogEntry → JObject
  /-- `payload.record_total(lines)`. -/
  recordTotal : List LogEntry → Nat

/-- `_fingerprint`. -/
def FoldWorld.hash (fw : FoldWorld Fp) (f : FactContent Fp) : Fp := fw.digest f.canonical

/-- Two payloads with one digest are the same payload. -/
def FoldWorld.CollisionFree (fw : FoldWorld Fp) : Prop := Function.Injective fw.digest

/-- A fact as the fold builds it: what it says, and the hash of that. -/
structure Built (fw : FoldWorld Fp) where
  content : FactContent Fp
  sourceVersionHash : Fp
  fingerprinted : sourceVersionHash = fw.hash content

/-- A row of `analytics_facts`; `id` and `created_at` are not read by the fold. -/
structure Fact (fw : FoldWorld Fp) extends Built fw where
  revision : Nat

/-- `_fingerprint`, put on the fact. -/
def FoldWorld.build (fw : FoldWorld Fp) (content : FactContent Fp) : Built fw :=
  ⟨content, fw.hash content, rfl⟩

/-- `key_of`. -/
def Built.key {fw : FoldWorld Fp} (f : Built fw) : FactKey := f.content.key

/-- `key_of`. -/
def Fact.key {fw : FoldWorld Fp} (f : Fact fw) : FactKey := f.content.key

/-- **The hash decides**: facts with equal hashes say the same, up to what the payload does not tell apart. -/
theorem sourceVersionHash_eq_iff {fw : FoldWorld Fp} (hfw : fw.CollisionFree) {f g : Built fw} :
    f.sourceVersionHash = g.sourceVersionHash ↔ f.content.canonical = g.content.canonical := by
  rw [f.fingerprinted, g.fingerprinted]
  exact hfw.eq_iff

/-! ## §3. `normalise`. -/

/-- `_as_text`: the text without its blanks, or none. -/
def asText (v : Option String) : Option String :=
  v.bind fun s => match stripBy isSpace s.toList with
    | [] => none
    | cs => some (String.ofList cs)

/-- `str(value)`, none for `None`. -/
def jsonText : Option Json → Option String
  | none | some .null => none
  | some v => some v.pyStr

/-- `parse_quantity`. -/
def FoldWorld.parseQuantity (fw : FoldWorld Fp) (raw : Option Json) : Option Rat :=
  (asText (jsonText raw)).bind fw.parseDecimal

/-- `_cap_over_length` of one column. -/
def capText (limit : Nat) (v : Option String) : Option String := v.map (cap limit)

/-- `_NORMALISE_VERSION`. -/
def normaliseVersion : Nat := 2

/-- `dict.update`: the request attributes, then the response's; without the keys that the stamps take. -/
def mergedAttributes (request response : JObject) : JObject :=
  unstamped (Attrs.update (Attrs.update OrderedDict.empty request) response).items

/-- **`normalise`**, with the stamps the fold puts on a fact. -/
def FoldWorld.normalise (fw : FoldWorld Fp) (zone : Zone) (cfg : FieldConfig) (lines : List LogEntry)
    (row : TxnRow Fp) : Except QualityIssue (FactContent Fp) :=
  let v := row.values
  let attributes := mergedAttributes v.attributes (cfg.responseAttributes v.transactionName lines)
  let method := asText v.method
  let quantity := (quantityField method).bind fun f =>
    fw.parseQuantity (JObject.get? attributes f)
  match quantityField method, quantity with
  | some field, none =>
      .error
        { sourceTransactionId := row.id
          sourceStartedAt := v.startedAt
          reason := "unusable_quantity"
          detail := method.getD "" ++ " must carry a readable " ++ field ++
            ", but it is absent or unparsable"
          method := method
          field := field
          raw := JObject.get? attributes field
          present := (JObject.get? attributes field).isSome }
  | _, _ =>
      let type := asText v.transactionType
      .ok
        { sourceTransactionId := row.id
          sourceStartedAt := v.startedAt
          eventTime := v.startedAt
          businessDate := v.startedAt.map (fw.localDate zone)
          durationMs := v.durationMs
          method := capText 128 method
          transactionName := capText 128 (asText v.transactionName)
          transactionType := capText 32 (if usableDimensionValue type then type else none)
          status := v.status
          itemNumber := capText 128 (asText v.itemNumber)
          lotNumber := capText 64 (asText (jsonText (JObject.get? attributes "LotNumber")))
          orderNumber := capText 64 (asText v.orderNumber)
          deliveryNumber := capText 64 (asText v.deliveryNumber)
          warehouse := capText 16 (asText v.warehouse)
          warehouseId := capText 16 (asText v.warehouseId)
          fromLocation := capText 32 (asText (jsonText (JObject.get? attributes "FromLocation")))
          toLocation := capText 32 (asText (jsonText (JObject.get? attributes "ToLocation")))
          userName := capText 64 (asText v.userName)
          deviceId := capText 64 (asText v.deviceId)
          deviceName := capText 64 (asText v.deviceName)
          quantity := quantity
          classification := classify method quantity
          attributes := attributes
          srcFp := row.rowFingerprint
          normVersion := some normaliseVersion
          miRecords := cfg.recordTotal lines }

/-- The identity of a row of `log_transactions`. -/
def rowKey (row : TxnRow Fp) : FactKey := (row.id, row.startedAt)

/-- **A fact has the identity of its transaction**, and carries the transaction's digest and the
    version it was built by. -/
theorem normalise_ok {fw : FoldWorld Fp} {zone : Zone} {cfg : FieldConfig} {lines : List LogEntry}
    {row : TxnRow Fp} {f : FactContent Fp} (h : fw.normalise zone cfg lines row = .ok f) :
    f.key = rowKey row ∧ f.srcFp = row.rowFingerprint ∧ f.normVersion = some normaliseVersion := by
  unfold FoldWorld.normalise at h
  dsimp only at h
  split at h
  · exact absurd h (by simp)
  · obtain rfl := Except.ok.inj h
    exact ⟨rfl, rfl, rfl⟩

/-- A quarantined row is one whose method must carry a quantity; the issue names the transaction, the
    method and the attribute. -/
theorem normalise_error {fw : FoldWorld Fp} {zone : Zone} {cfg : FieldConfig} {lines : List LogEntry}
    {row : TxnRow Fp} {i : QualityIssue} (h : fw.normalise zone cfg lines row = .error i) :
    (i.sourceTransactionId, i.sourceStartedAt) = rowKey row ∧
      quantityField i.method = some i.field ∧ fw.parseQuantity i.raw = none := by
  unfold FoldWorld.normalise at h
  dsimp only at h
  split at h
  · next field hf hq =>
    obtain rfl := Except.error.inj h
    refine ⟨rfl, hf, ?_⟩
    simpa [hf] using hq
  · exact absurd h (by simp)

end RagPipeline.Analytics
