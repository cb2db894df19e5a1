/-
  RagPipeline.Analytics.NormaliseTotal — `normalise`, with what it can raise.

  Two primitives of it raise and are not caught: an ordering or a `normalize()` of the quantity, and
  `astimezone` at the ends of the calendar.

    * `Interpreter`         — what is read of the language and of the zone database;
    * `normaliseRaising`    — `normalise`; `none` is an exception;
    * `normaliseRaising_eq` — where it returns, it is the `normalise` of the fold's model;
    * `normalise_total_iff` — when it returns, and so when a slice of rows does.
-/
import RagPipeline.Analytics.Fold
import RagPipeline.Analytics.Roles

namespace RagPipeline.Analytics

open RagPipeline.Stage2 RagPipeline.Lib

/-! ## §1. What can raise. -/

/-- One day. -/
def oneDay : Duration := 24 * 3600 * second

/-- `datetime.min`, `datetime.max`: from the first instant of the year 1 to the last of the year 9999. -/
def calendarStart : Instant := -62135596800 * second

/-- The first instant after `datetime.max`. -/
def calendarStop : Instant := 253402300800 * second

/-- What is read of the language and of the zone database: `Decimal(text)`, which reads NaNs and infinities
too, the offset of a zone, UTC for an unusable name, and `sha256`. -/
structure Interpreter (Fp : Type) where
  digest : FactContent Fp → Fp
  utcoffset : Zone → Instant → Duration
  decimal : String → Option Number

variable {Fp : Type} (it : Interpreter Fp)

/-- `_local_date` of an instant: `astimezone` raises outside the calendar. -/
def Interpreter.localDate (zone : Zone) (t : Instant) : Option Day :=
  let wall := t + it.utcoffset zone t
  if calendarStart ≤ wall ∧ wall < calendarStop then some (wall / oneDay) else none

/-- `parse_quantity`. -/
def Interpreter.parseNumber (raw : Option Json) : Option Number := (asText (jsonText raw)).bind it.decimal

/-- `classify` of a number: comparing a NaN raises. -/
def classifyNumber (method : Option String) (quantity : Option Number) : Option Classification :=
  match quantityField method, quantity with
  | none, _ => some .nonQuantity
  | some _, none => some .unusable
  | some _, some q => do
    if ← Number.lt Number.zero q then return .pick
    if q = Number.zero then return .attempt else return .correction

/-- `value.normalize()`: rounded to the context, which traps an overflow. -/
def normalize : Number → Option Number
  | .finite q => (decimalContext.round q).map .finite
  | .snan => none
  | x => some x

/-- A finite number. -/
def finitePart : Number → Option ℚ
  | .finite q => some q
  | _ => none

/-- A fact with its quantity as the decimal it is, an infinity included. -/
structure NumberFact (Fp : Type) where
  content : FactContent Fp
  number : Option Number
  agree : content.quantity = number.bind finitePart

/-- The world of the fold's model, on the same texts. -/
def Interpreter.world : FoldWorld Fp where
  digest := it.digest
  localDate zone t := (t + it.utcoffset zone t) / oneDay
  parseDecimal text := (it.decimal text).bind finitePart

/-! ## §2. `normalise`. -/

/-- The attributes of a transaction with the approved ones of its response. -/
def attributesOf (cfg : FieldConfig) (lines : List LogEntry) (row : TxnRow Fp) : JObject :=
  mergedAttributes row.values.attributes (cfg.responseAttributes row.values.transactionName lines)

/-- The quantity of a transaction whose method carries one. -/
def Interpreter.quantityOf (cfg : FieldConfig) (lines : List LogEntry) (row : TxnRow Fp) : Option Number :=
  (quantityField (asText row.values.method)).bind fun field =>
    it.parseNumber (JObject.get? (attributesOf cfg lines row) field)

/-- The fact of a transaction, from what could raise. -/
def factOf (cfg : FieldConfig) (lines : List LogEntry) (row : TxnRow Fp) (businessDate : Option Day)
    (number : Option Number) (classification : Classification) : NumberFact Fp where
  content :=
    let v := row.values
    let attributes := attributesOf cfg lines row
    let type := asText v.transactionType
    { sourceTransactionId := row.id
      sourceStartedAt := v.startedAt
      eventTime := v.startedAt
      businessDate := businessDate
      durationMs := v.durationMs
      method := capText 128 (asText v.method)
      transactionName := capText 128 (asText v.transactionName)
      transactionType := capText 32 (if usableDimensionValue type then type else none)
      status := v.status
      itemNumber := capText 128 (asText v.itemNumber)
      lotNumber := capText 64 (asText (jsonText (JObject.get? attributes "LotNumber")))
      orderNumber := capText 64 (asText v.orderNumber)
      deliveryNumber := capText 64 (asText v.deliveryNumber)
      warehouse := capText 16 (asText v.warehouse)
      warehouseId := capText 16 (asText v.warehouseId)
      fromLocation := capText 32 (asText (jsonText (JObject.get? attributes "FromLocation")))
      toLocation := capText 32 (asText (jsonText (JObject.get? attributes "ToLocation")))
      userName := capText 64 (asText v.userName)
      deviceId := capText 64 (asText v.deviceId)
      deviceName := capText 64 (asText v.deviceName)
      quantity := number.bind finitePart
      classification := classification
      attributes := attributes
      srcFp := row.rowFingerprint
      normVersion := some normaliseVersion
      miRecords := cfg.recordTotal lines }
  number := number
  agree := rfl

/-- `_quarantine`, for a quantity that is not there or cannot be read. -/
def unusableQuantity (cfg : FieldConfig) (lines : List LogEntry) (row : TxnRow Fp) (field : String) :
    QualityIssue :=
  let method := asText row.values.method
  let raw := JObject.get? (attributesOf cfg lines row) field
  { sourceTransactionId := row.id
    sourceStartedAt := row.values.startedAt
    reason := "unusable_quantity"
    detail := method.getD "" ++ " must carry a readable " ++ field ++ ", but it is absent or unparsable"
    method := method
    field := field
    raw := raw
    present := raw.isSome }

/-- **`normalise`**, with the stamps the fold puts on a fact; `none` is an exception. -/
def Interpreter.normaliseRaising (zone : Zone) (cfg : FieldConfig) (lines : List LogEntry) (row : TxnRow Fp) :
    Option (Except QualityIssue (NumberFact Fp)) :=
  let method := asText row.values.method
  let number := it.quantityOf cfg lines row
  match quantityField method, number with
  | some field, none => some (.error (unusableQuantity cfg lines row field))
  | _, _ => do
    let businessDate ← onRole row.values.startedAt (it.localDate zone)
    let classification ← classifyNumber method number
    -- `_fingerprint` spells the quantity in its canonical form
    let _ ← onRole number normalize
    return .ok (factOf cfg lines row businessDate number classification)

/-- The loop of a slice: the first row that raises fails all of it. -/
def Interpreter.normaliseSlice (zone : Zone) (cfg : FieldConfig) (rows : List (List LogEntry × TxnRow Fp)) :
    Option (List (Except QualityIssue (NumberFact Fp))) :=
  rows.mapM fun r => it.normaliseRaising zone cfg r.1 r.2

/-! ## §3. When it returns. -/

/-- A quantity that `classify` and `_fingerprint` take: an infinity, or a number whose 28 digits the context
has room for. -/
def Tame : Number → Prop
  | .finite q => decimalContext.round q ≠ none
  | .infinity _ => True
  | .nan | .snan => False

/-- An instant whose wall clock is in the calendar. -/
def Interpreter.OnCalendar (zone : Zone) (t : Instant) : Prop :=
  calendarStart ≤ t + it.utcoffset zone t ∧ t + it.utcoffset zone t < calendarStop

/-- A row that raises nothing: it is quarantined before anything can, or its quantity is tame, if it carries
one, and its start is on the calendar, if it has one. -/
def Interpreter.Clean (zone : Zone) (cfg : FieldConfig) (lines : List LogEntry) (row : TxnRow Fp) : Prop :=
  (quantityField (asText row.values.method) ≠ none ∧ it.quantityOf cfg lines row = none) ∨
  ((∀ number, it.quantityOf cfg lines row = some number → Tame number) ∧
    ∀ t, row.values.startedAt = some t → it.OnCalendar zone t)

theorem onRole_isSome {α : Type} (role : Option α) (f : α → Option α) :
    (onRole role f).isSome ↔ ∀ x, role = some x → (f x).isSome := by
  cases role with
  | none => simp [onRole]
  | some x => simp [onRole]

theorem localDate_isSome {zone : Zone} {t : Instant} : (it.localDate zone t).isSome ↔ it.OnCalendar zone t := by
  unfold Interpreter.localDate Interpreter.OnCalendar
  dsimp only
  split
  · next h => simp [h]
  · next h => simp only [Option.isSome_none, Bool.false_eq_true, h]

/-- **A tame quantity** can be classified and spelled, and no other can. -/
theorem tame_iff {method field : Option String} {number : Number} (hmethod : quantityField method = field)
    (hfield : field ≠ none) :
    (classifyNumber method (some number)).isSome ∧ (normalize number).isSome ↔ Tame number := by
  obtain ⟨name, hname⟩ := Option.ne_none_iff_exists'.mp hfield
  have hclassify : (classifyNumber method (some number)).isSome ↔ (Number.lt Number.zero number).isSome := by
    unfold classifyNumber
    rw [hmethod, hname]
    show ((Number.lt Number.zero number).bind fun positive => if positive = true then some Classification.pick
      else if number = Number.zero then some Classification.attempt else some Classification.correction).isSome ↔ _
    cases Number.lt Number.zero number with
    | none => simp
    | some positive =>
      rw [Option.bind_some]
      split
      · simp
      · split <;> simp
  rw [hclassify]
  cases number with
  | finite q => simp [Number.lt, Number.zero, normalize, Tame, Option.isSome_iff_ne_none]
  | infinity negative => simp [Number.lt, Number.zero, normalize, Tame]
  | nan => simp [Number.lt, Number.zero, Tame]
  | snan => simp [Number.lt, Number.zero, Tame]

/-- A number is only read for a method that carries one. -/
theorem quantityField_of_quantityOf {cfg : FieldConfig} {lines : List LogEntry} {row : TxnRow Fp} {number : Number}
    (h : it.quantityOf cfg lines row = some number) : quantityField (asText row.values.method) ≠ none := by
  intro hnone
  unfold Interpreter.quantityOf at h
  rw [hnone] at h
  cases h

/-- **One row.** -/
theorem normaliseRaising_isSome (zone : Zone) (cfg : FieldConfig) (lines : List LogEntry) (row : TxnRow Fp) :
    (it.normaliseRaising zone cfg lines row).isSome ↔ it.Clean zone cfg lines row := by
  have hdate : (onRole row.values.startedAt (it.localDate zone)).isSome ↔
      ∀ t, row.values.startedAt = some t → it.OnCalendar zone t := by
    rw [onRole_isSome]
    exact forall₂_congr fun t _ => localDate_isSome it
  unfold Interpreter.normaliseRaising Interpreter.Clean
  dsimp only
  cases hnumber : it.quantityOf cfg lines row with
  | none =>
    cases hfield : quantityField (asText row.values.method) with
    | some field => simp
    | none =>
      have hclassify : classifyNumber (asText row.values.method) none = some .nonQuantity := by
        unfold classifyNumber
        rw [hfield]
      simp only [hclassify, ← hdate]
      cases onRole row.values.startedAt (it.localDate zone) with
      | none => simp
      | some businessDate => simp [onRole]
  | some number =>
    have hmethod := quantityField_of_quantityOf it hnumber
    have htame : (classifyNumber (asText row.values.method) (some number)).isSome ∧ (normalize number).isSome ↔
        Tame number := tame_iff rfl hmethod
    -- with a number, all three of the steps are taken, whatever the field is
    have hgoal : ∀ field : Option String, (match field, some number with
        | some field, none => some (Except.error (unusableQuantity cfg lines row field))
        | _, _ => do
          let businessDate ← onRole row.values.startedAt (it.localDate zone)
          let classification ← classifyNumber (asText row.values.method) (some number)
          let _ ← onRole (some number) normalize
          return .ok (factOf cfg lines row businessDate (some number) classification)).isSome ↔
        (onRole row.values.startedAt (it.localDate zone)).isSome ∧
          (classifyNumber (asText row.values.method) (some number)).isSome ∧ (normalize number).isSome := by
      intro field
      cases field
      all_goals cases onRole row.values.startedAt (it.localDate zone)
      all_goals cases classifyNumber (asText row.values.method) (some number)
      all_goals cases hn : normalize number
      all_goals simp [onRole, hn]
    rw [hgoal, htame, hdate]
    constructor
    · intro ⟨hcalendar, hnum⟩
      refine Or.inr ⟨fun x hx => ?_, hcalendar⟩
      rw [← Option.some.inj hx]
      exact hnum
    · intro h
      cases h with
      | inl h => cases h.2
      | inr h => exact ⟨h.2, h.1 number rfl⟩

/-- **`normalise` returns a fact or an issue exactly for clean rows**, and a slice exactly when all its rows
    are. -/
theorem normalise_total_iff (zone : Zone) (cfg : FieldConfig) :
    (∀ (lines : List LogEntry) (row : TxnRow Fp),
      (it.normaliseRaising zone cfg lines row).isSome ↔ it.Clean zone cfg lines row) ∧
    ∀ rows : List (List LogEntry × TxnRow Fp),
      (it.normaliseSlice zone cfg rows).isSome ↔ ∀ r ∈ rows, it.Clean zone cfg r.1 r.2 := by
  constructor
  · exact normaliseRaising_isSome it zone cfg
  · intro rows
    unfold Interpreter.normaliseSlice
    induction rows with
    | nil => simp
    | cons r rows ih =>
      rw [List.forall_mem_cons, ← ih, ← normaliseRaising_isSome, List.mapM_cons]
      cases it.normaliseRaising zone cfg r.1 r.2 with
      | none => simp
      | some result => cases rows.mapM fun r => it.normaliseRaising zone cfg r.1 r.2 <;> simp

/-! ## §4. The model of the fold. -/

theorem localDate_world {zone : Zone} {start : Option Instant} {businessDate : Option Day}
    (h : onRole start (it.localDate zone) = some businessDate) : start.map (it.world.localDate zone) = businessDate := by
  cases start with
  | none => exact Option.some.inj h
  | some t =>
    obtain ⟨day, hday, rfl⟩ := Option.map_eq_some_iff.mp h
    unfold Interpreter.localDate at hday
    dsimp only at hday
    split at hday
    · rw [← Option.some.inj hday]
      rfl
    · cases hday

theorem classify_world {method : Option String} {number : Option Number} {classification : Classification}
    (h : classifyNumber method number = some classification)
    (hfinite : ∀ negative, number ≠ some (.infinity negative)) :
    classify method (number.bind finitePart) = classification ∧ ∀ x, number = some x →
      quantityField method ≠ none → finitePart x ≠ none := by
  unfold classifyNumber at h
  unfold classify
  cases hfield : quantityField method with
  | none =>
    rw [hfield] at h
    exact ⟨Option.some.inj h, fun x _ hne => absurd rfl hne⟩
  | some field =>
    rw [hfield] at h
    cases number with
    | none => exact ⟨Option.some.inj h, fun x hx => nomatch hx⟩
    | some number =>
      cases number with
      | finite q =>
        refine ⟨?_, fun x hx _ => ?_⟩
        · show (if 0 < q then _ else if q = 0 then _ else _) = _
          by_cases hpos : 0 < q
          · simp [Number.lt, Number.zero, hpos] at h
            rw [if_pos hpos, h]
          · by_cases hzero : q = 0
            · simp [Number.lt, Number.zero, hzero] at h
              rw [if_neg hpos, if_pos hzero, h]
            · simp [Number.lt, Number.zero, hpos, hzero] at h
              rw [if_neg hpos, if_neg hzero, h]
        · rw [← Option.some.inj hx]
          exact Option.some_ne_none q
      | infinity negative => exact absurd rfl (hfinite negative)
      | nan => cases h
      | snan => cases h

/-- The quantity of the fold's model. -/
theorem quantityOf_world (cfg : FieldConfig) (lines : List LogEntry) (row : TxnRow Fp) :
    ((quantityField (asText row.values.method)).bind fun field =>
      it.world.parseQuantity (JObject.get? (attributesOf cfg lines row) field)) =
        (it.quantityOf cfg lines row).bind finitePart := by
  unfold Interpreter.quantityOf Interpreter.parseNumber FoldWorld.parseQuantity
  cases quantityField (asText row.values.method) with
  | none => rfl
  | some field =>
    rw [Option.bind_some, Option.bind_some, Option.bind_assoc]
    rfl

/-- **Where it returns, it is the `normalise` of the fold's model**, but for a quantity that is infinite: the
    fold's model has none. -/
theorem normaliseRaising_eq {zone : Zone} {cfg : FieldConfig} {lines : List LogEntry} {row : TxnRow Fp}
    {result : Except QualityIssue (NumberFact Fp)} (h : it.normaliseRaising zone cfg lines row = some result)
    (hfinite : ∀ negative, it.quantityOf cfg lines row ≠ some (.infinity negative)) :
    it.world.normalise zone cfg lines row = result.map NumberFact.content := by
  have hquantity := quantityOf_world it cfg lines row
  unfold FoldWorld.normalise
  dsimp only
  unfold attributesOf at hquantity
  rw [hquantity]
  unfold Interpreter.normaliseRaising at h
  dsimp only at h
  cases hfield : quantityField (asText row.values.method) with
  | none =>
    -- the transaction names no quantity field, so there is no number to classify
    have hnumber : it.quantityOf cfg lines row = none := by
      unfold Interpreter.quantityOf
      rw [hfield]
      rfl
    rw [hfield, hnumber] at h
    simp only [Option.bind_eq_bind, Option.bind_eq_some_iff] at h
    obtain ⟨businessDate, hdate, classification, hclass, _, _, h⟩ := h
    obtain ⟨hclassify, -⟩ := classify_world hclass (fun _ hn => nomatch hn)
    rw [hnumber, ← Option.some.inj h]
    dsimp only
    rw [localDate_world it hdate, hclassify]
    rfl
  | some field =>
    cases hnumber : it.quantityOf cfg lines row with
    | none =>
      rw [hfield, hnumber] at h
      rw [← Option.some.inj h]
      rfl
    | some number =>
      rw [hfield, hnumber] at h
      simp only [Option.bind_eq_bind, Option.bind_eq_some_iff] at h
      obtain ⟨businessDate, hdate, classification, hclass, _, _, h⟩ := h
      rw [hnumber] at hfinite
      -- a number that classification did not raise on is finite, so it has a value
      obtain ⟨hclassify, hrat⟩ := classify_world hclass hfinite
      obtain ⟨q, hq⟩ := Option.ne_none_iff_exists'.mp (hrat number rfl (hfield ▸ Option.some_ne_none field))
      rw [Option.bind_some, hq] at hclassify ⊢
      rw [← Option.some.inj h]
      dsimp only
      rw [localDate_world it hdate, hclassify]
      show _ = Except.ok (factOf cfg lines row businessDate (some number) classification).content
      unfold factOf
      simp only [Option.bind_some, hq]
      rfl

/-! ## §5. A quantity that is spelled NaN. -/

/-- A world in UTC, whose one readable text is the quiet NaN. -/
def nanWorld : Interpreter Unit where
  digest _ := ()
  utcoffset _ _ := 0
  decimal text := if text = "NaN" then some .nan else none

/-- A picked line without a number. -/
def nanPick : TxnRow Unit where
  id := 1
  values := { namedValues "Pick" 0 with
    method := some "ConfirmPickLine"
    attributes := [("QuantityPicked", .str "NaN")] }
  isSealed := true
  rowFingerprint := none
  membersFingerprint := none

/-- It raises, and the slice it is in with it. -/
theorem nanPick_raises : ¬∀ (it : Interpreter Unit) (zone : Zone) (cfg : FieldConfig) (lines : List LogEntry)
    (row : TxnRow Unit), (it.normaliseRaising zone cfg lines row).isSome := by
  intro h
  exact absurd (h nanWorld ⟨"UTC", utc_named⟩ requestOnly [] nanPick) (by decide +kernel)

end RagPipeline.Analytics
