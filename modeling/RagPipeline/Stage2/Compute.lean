/-
  RagPipeline.Stage2.Compute — `_TxnBuilder.compute`, the columns of a transaction.

  A conversation's row is computed from its lines alone, in the order the lines stand in:

    * times      — the least and the greatest timestamp of the lines that have one;
    * outcome    — an error line beats a missing response, which beats a soft result;
    * dimensions — promoted from the merged request parameters and bodies, whatever their case;
    * attributes — every merged parameter that is no secret.

  `capOverLength` then trims each promoted text to the width of its column.

  What the interpreter itself supplies is a parameter: `displayDay` is the calendar day of an instant
  in a named zone, `millis` is `int(d.total_seconds() * 1000)` in binary floating point.
-/
import RagPipeline.Lib.OrderedDict
import RagPipeline.Lib.Strip
import RagPipeline.Stage2.Entry

namespace RagPipeline.Stage2

open RagPipeline.Lib

/-! ## §1. The row. -/

/-- A calendar day, counted from the epoch. -/
abbrev Day := Int

/-- `LogTransactionStatus`. -/
inductive TxnStatus where
  | success | soft | error | incomplete
  deriving DecidableEq, Repr

/-- The dictionary `compute` returns; `flow_id` is always `None` there and left out. -/
structure TxnValues where
  jobId : UUID
  customerCode : String
  sourceFileStart : String
  sourceFileEnd : String
  startedAt : Option Instant
  endedAt : Option Instant
  date : Option Day
  durationMs : Option Int
  userName : Option String
  userId : Option String
  employeeName : Option String
  company : Option String
  warehouse : Option String
  warehouseId : Option String
  division : Option String
  facility : Option String
  deviceId : Option String
  deviceName : Option String
  reqid : Option String
  method : Option String
  httpMethod : String
  endpointUrl : Option String
  transactionName : Option String
  transactionType : Option String
  route : Option String
  itemNumber : Option String
  deliveryNumber : Option String
  picklistSuffix : Option String
  orderNumber : Option String
  reportingNumber : Option String
  status : TxnStatus
  errorText : Option String
  entryCount : Nat
  miProgramCount : Nat
  requestSummary : Option String
  responseSummary : Option String
  attributes : JObject

/-! ## §2. Merged attributes. -/

/-- The dictionary `_merged_attrs` fills in. -/
abbrev Attrs := OrderedDict String Json

/-- `d.update(other)`. -/
def Attrs.update (d : Attrs) (other : JObject) : Attrs := other.foldl (fun d p => d.set p.1 p.2) d

/-- `isinstance(v, (dict, list))`. -/
def Json.isContainer : Json → Bool
  | .arr _ | .obj _ => true
  | .null | .bool _ | .int _ | .float _ | .str _ => false

/-- `(attrs, has_body, url)` so far. -/
structure Merged where
  attrs : Attrs := OrderedDict.empty
  hasBody : Bool := false
  url : Option String := none

/-- One turn of the loop of `_merged_attrs`. -/
def Merged.add (m : Merged) (e : LogEntry) : Merged :=
  match e.entryType with
  | .request =>
      { m with url := JObject.value? e.fields "url", attrs := Attrs.update m.attrs e.params }
  | .requestBody =>
      { m with
        hasBody := true
        attrs := Attrs.update m.attrs (e.fields.filter fun p => !p.2.isContainer) }
  | .miCall | .miResult | .sql | .response | .info | .error => m

/-- `_merged_attrs`. -/
def mergedAttrs (es : List LogEntry) : Merged := es.foldl Merged.add {}

/-- `str(v)` unless `v` is `None` or the empty string. -/
def Json.present? : Json → Option String
  | .null => none
  | .str s => if s = "" then none else some s
  | v => some v.pyStr

/-- The value of the last key that is `name` but for its case. -/
def ciLookup (d : Attrs) (name : String) : Option Json :=
  (d.items.reverse.find? fun p => decide (p.1.toLower = name.toLower)).map Prod.snd

/-- `_ci_get`: the first of the names that has a value. -/
def ciGet (d : Attrs) (names : List String) : Option String :=
  names.findSome? fun n => (ciLookup d n).bind Json.present?

/-- `_SENSITIVE`. -/
def sensitive : List String :=
  ["password", "accesstoken", "m3credentials", "m3usercredentials", "cipher"]

/-! ## §3. The method a URL names. -/

/-- A scheme: a letter, then letters, digits, `+`, `-` and `.`. -/
def isScheme : List Char → Bool
  | [] => false
  | c :: cs => c.isAlpha && cs.all fun d => d.isAlphanum || d ∈ ['+', '-', '.']

/-- The scheme, when there is one, and what follows it. -/
def splitScheme (cs : List Char) : List Char × List Char :=
  match cs.dropWhile (· ≠ ':') with
  | [] => ([], cs)
  | _ :: rest => if isScheme (cs.takeWhile (· ≠ ':')) then (cs.takeWhile (· ≠ ':'), rest) else ([], cs)

/-- `uses_params`: the schemes whose last segment ends at a semicolon. -/
def usesParams : List String :=
  ["", "ftp", "hdl", "prospero", "http", "https", "shttp", "rtsp", "rtsps", "rtspu", "sip", "sips", "mms", "sftp", "tel"]

/-- What follows `//host`. -/
def dropNetloc : List Char → List Char
  | '/' :: '/' :: rest => rest.dropWhile fun c => c ∉ ['/', '?', '#']
  | cs => cs

/-- `s.rstrip("/")`. -/
def rstripSlash (cs : List Char) : List Char := (cs.reverse.dropWhile (· = '/')).reverse

/-- `s.rsplit("/", 1)[-1]`. -/
def lastSegment (cs : List Char) : List Char := (cs.reverse.takeWhile (· ≠ '/')).reverse

/-- What is looked at of a URL: no control characters and blanks in front, no tabs and line ends at all. -/
def cleanUrl (cs : List Char) : List Char :=
  (cs.dropWhile fun c => decide (c.toNat ≤ 32)).filter fun c => decide (c.toNat ∉ [9, 10, 13])

/-- `urlparse(url).path`: no scheme, host, query or fragment, no `;params` on the last segment; a host in
    brackets, which may raise, is left out. -/
def urlPath (cs : List Char) : List Char :=
  let parts := splitScheme (cleanUrl cs)
  let path := (dropNetloc parts.2).takeWhile fun c => c ∉ ['?', '#']
  if (String.ofList parts.1).toLower ∈ usesParams then
    path.take (path.length - (lastSegment path).length) ++ (lastSegment path).takeWhile (· ≠ ';')
  else path

/-- `_method_from_url`: the last path segment of the request URL. -/
def methodFromUrl (url : Option String) : Option String :=
  match url with
  | none => none
  | some u =>
      let seg := lastSegment (rstripSlash (urlPath u.toList))
      if seg.isEmpty then none else some (String.ofList seg)

/-! ## §4. Outcome and summaries. -/

/-- An M3 result that is not `OK`, or a warning. -/
def LogEntry.soft (e : LogEntry) : Bool :=
  (decide (e.entryType = .miResult) && truthy e.resultStatus && decide (e.resultStatus ≠ some "OK"))
    || decide (e.level = some "WARN")

/-- The status and the text that goes with it. -/
def outcome (es : List LogEntry) : TxnStatus × Option String :=
  let errorEntry := es.find? fun e => decide (e.entryType = .error)
  let softEntry := es.find? LogEntry.soft
  match errorEntry with
  | some e => (.error, pyOr e.resultStatus e.message)
  | none =>
      if !(es.any fun e => decide (e.entryType = .response)) then
        (.incomplete, softEntry.bind (·.resultStatus))
      else
        match softEntry with
        | some e => (.soft, e.resultStatus)
        | none => (.success, none)

/-- `_RESPONSE_PREFIX`: `RESPONSE`, an optional ` (ReqID = …)`, blanks, a colon, blanks. -/
def dropResponsePrefix (cs : List Char) : List Char :=
  let word := "RESPONSE".toList
  let id := " (ReqID = ".toList
  if cs.take word.length ≠ word then cs
  else
    let rest := cs.drop word.length
    let rest :=
      if rest.take id.length = id then
        match (rest.drop id.length).dropWhile (· ≠ ')') with
        | [] => rest
        | _ :: tail => tail
      else rest
    match rest.dropWhile isSpace with
    | ':' :: tail => tail.dropWhile isSpace
    | _ => cs

/-- The response line's text, without its prefix, cut at 500 characters. -/
def responseSummary (es : List LogEntry) : Option String :=
  match (es.find? fun e => decide (e.entryType = .response)).bind (·.message) with
  | none => none
  | some m =>
      if m = "" then none
      else some (String.ofList ((stripBy isSpace (dropResponsePrefix m.toList)).take 500))

/-- The user: of the merged attributes, else of the first M3 call that names one. -/
def computedUser (attrs : Attrs) (es : List LogEntry) : Option String :=
  (ciGet attrs ["User", "m3user"]).or
    (es.findSome? fun e => if e.entryType = .miCall then e.params.text? "m3user" else none)

/-- The short human summary of the request. -/
def requestSummary (method warehouse route user : Option String) : Option String :=
  let bits := [method, warehouse.map ("WHLO " ++ ·), route.map ("Route " ++ ·), user.map ("user " ++ ·)]
  let text := " · ".intercalate (bits.filterMap id)
  if text = "" then none else some text

/-! ## §5. `compute`. -/

/-- The timestamps of the lines that have one. -/
def stamps (es : List LogEntry) : List Instant := es.filterMap (·.timestamp)

/-- `min(times) if times else None`. -/
def startedAt (es : List LogEntry) : Option Instant := (stamps es).min?

/-- `max(times) if times else None`. -/
def endedAt (es : List LogEntry) : Option Instant := (stamps es).max?

/-- **`compute()`**, for lines in their final order. -/
def compute (displayDay : Instant → Day) (millis : Duration → Int) (es : List LogEntry) : TxnValues :=
  let m := mergedAttrs es
  let g := ciGet m.attrs
  let method := (g ["MethodName"]).or (methodFromUrl m.url)
  let warehouse := g ["Warehouse", "WHLO"]
  let route := g ["Route"]
  let userName := computedUser m.attrs es
  { jobId := (es.head?.map (·.jobId)).getD 0
    customerCode := (es.head?.map (·.customerCode)).getD ""
    sourceFileStart := (es.head?.map (·.sourceFile)).getD ""
    sourceFileEnd := (es.getLast?.map (·.sourceFile)).getD ""
    startedAt := startedAt es
    endedAt := endedAt es
    date := (startedAt es).map displayDay
    durationMs := (startedAt es).bind fun a => (endedAt es).map fun b => millis (b - a)
    userName := userName
    userId := g ["UserID"]
    employeeName := g ["EmployeeName"]
    company := g ["Company", "CONO"]
    warehouse := warehouse
    warehouseId := g ["WarehouseID"]
    division := g ["Division"]
    facility := g ["Facility"]
    deviceId := g ["DeviceID"]
    deviceName := g ["DeviceName"]
    reqid := (g ["ReqID", "ReqId"]).or (stampedReqidOf es)
    method := method
    httpMethod := if m.hasBody then "POST" else "GET"
    endpointUrl := m.url
    transactionName := g ["TransactionName"]
    transactionType := g ["TransactionType"]
    route := route
    itemNumber := g ["ItemNumber"]
    deliveryNumber := g ["DeliveryNumber"]
    picklistSuffix := g ["PickListSuffix"]
    orderNumber := g ["OrderNumber"]
    reportingNumber := g ["ReportingNumber"]
    status := (outcome es).1
    errorText := (outcome es).2
    entryCount := es.length
    miProgramCount := es.countP fun e => decide (e.entryType = .miCall)
    requestSummary := requestSummary method warehouse route userName
    responseSummary := responseSummary es
    attributes := m.attrs.items.filter fun p => decide (p.1.toLower ∉ sensitive) }

/-! ## §6. Column widths. -/

/-- `value[:limit]`. -/
def cap (limit : Nat) (s : String) : String :=
  if s.length ≤ limit then s else String.ofList (s.toList.take limit)

/-- Every promoted text of a row, under the width of its column (`_txn_str_limits`). -/
def TxnValues.promoted (v : TxnValues) : List (Nat × Option String) :=
  [(64, some v.customerCode), (512, some v.sourceFileStart), (512, some v.sourceFileEnd),
   (64, v.userName), (64, v.userId), (128, v.employeeName), (16, v.company), (16, v.warehouse),
   (16, v.warehouseId), (16, v.division), (16, v.facility), (64, v.deviceId), (64, v.deviceName),
   (128, v.reqid), (128, v.method), (8, some v.httpMethod), (128, v.transactionName),
   (32, v.transactionType), (32, v.route), (128, v.itemNumber), (64, v.deliveryNumber),
   (16, v.picklistSuffix), (64, v.orderNumber), (64, v.reportingNumber)]

/-- `_cap_over_length`. -/
def capOverLength (v : TxnValues) : TxnValues :=
  { v with
    customerCode := cap 64 v.customerCode
    sourceFileStart := cap 512 v.sourceFileStart
    sourceFileEnd := cap 512 v.sourceFileEnd
    userName := v.userName.map (cap 64)
    userId := v.userId.map (cap 64)
    employeeName := v.employeeName.map (cap 128)
    company := v.company.map (cap 16)
    warehouse := v.warehouse.map (cap 16)
    warehouseId := v.warehouseId.map (cap 16)
    division := v.division.map (cap 16)
    facility := v.facility.map (cap 16)
    deviceId := v.deviceId.map (cap 64)
    deviceName := v.deviceName.map (cap 64)
    reqid := v.reqid.map (cap 128)
    method := v.method.map (cap 128)
    httpMethod := cap 8 v.httpMethod
    transactionName := v.transactionName.map (cap 128)
    transactionType := v.transactionType.map (cap 32)
    route := v.route.map (cap 32)
    itemNumber := v.itemNumber.map (cap 128)
    deliveryNumber := v.deliveryNumber.map (cap 64)
    picklistSuffix := v.picklistSuffix.map (cap 16)
    orderNumber := v.orderNumber.map (cap 64)
    reportingNumber := v.reportingNumber.map (cap 64) }

theorem length_cap (limit : Nat) (s : String) : (cap limit s).length ≤ limit := by
  unfold cap
  split
  · assumption
  · rw [String.length_ofList, List.length_take]
    omega

/-- **No promoted text is longer than its column** once the row has been capped. -/
theorem capOverLength_fits (v : TxnValues) :
    ∀ p ∈ (capOverLength v).promoted, ∀ s ∈ p.2, s.length ≤ p.1 := by
  intro p hp s hs
  simp only [TxnValues.promoted, capOverLength, List.mem_cons, List.not_mem_nil, or_false] at hp
  rcases hp with rfl | rfl | rfl | rfl | rfl | rfl | rfl | rfl | rfl | rfl | rfl | rfl | rfl | rfl |
      rfl | rfl | rfl | rfl | rfl | rfl | rfl | rfl | rfl | rfl <;>
    simp only [Option.mem_def, Option.some.injEq, Option.map_eq_some_iff] at hs
  all_goals
    first
    | (subst hs; exact length_cap _ _)
    | (obtain ⟨t, -, rfl⟩ := hs; exact length_cap _ _)

@[simp] theorem capOverLength_startedAt (v : TxnValues) :
    (capOverLength v).startedAt = v.startedAt := rfl

@[simp] theorem capOverLength_endedAt (v : TxnValues) :
    (capOverLength v).endedAt = v.endedAt := rfl

end RagPipeline.Stage2
