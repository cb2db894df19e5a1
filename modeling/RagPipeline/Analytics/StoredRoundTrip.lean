/-
  RagPipeline.Analytics.StoredRoundTrip — what is stored is read back with the same meaning.

  Reading does four things to a declaration: it strips the names of values, takes an empty text for none,
  leaves out what only the `nearby_*` rules have, and strips units and subtracted fields (`loaded`).  No
  rule reads what is lost, but for a name that is empty or not stripped, and a subtracted field that is not
  stripped.

    * `decimalOf_text`     — a `Decimal` is read back exactly, infinities and NaNs included;
    * `fromJson_toJson`, `fromRow_toRow` — what is read of what is written;
    * `settleValue_loaded` — each rule settles to the same value;
    * `stored_round_trip`  — together.
-/
import RagPipeline.Analytics.StoredForms
import RagPipeline.Analytics.SettleTotal
import RagPipeline.Lib.OptionLoops

namespace RagPipeline.Analytics.StoredForms

open RagPipeline.Stage2 RagPipeline.Lib
open RagPipeline.Analytics.Settle (Rule Around Carried Values fieldOf settle settleValue valuesOf settleKey startSpelling)
open RagPipeline.Analytics.NumericKeys (cleaned forall_text written_digitChar cleaned_of_written stripBy_idem
  storable)

/-! ## §1. Decimals. -/

section Decimals

variable (l : Language)

theorem mem_of_mem_spanSign {text : List Char} {c : Char} (h : c ∈ (spanSign text).2) : c ∈ text := by
  unfold spanSign at h
  split at h
  · exact List.mem_cons_of_mem _ h
  · exact List.mem_cons_of_mem _ h
  · exact h

/-- A finite number has no letter that a special one begins with. -/
theorem readSpecial_text (d : Dec) : readSpecial l d.text = none := by
  have hletters : ∀ c ∈ d.text, c.toLower ∉ ['i', 'n', 's'] := by
    refine forall_text (by decide) ?_ d
    intro c hc
    fin_cases hc <;> decide
  have hlow : ∀ c ∈ ((spanSign d.text).2).map Char.toLower, c ∉ ['i', 'n', 's'] := by
    intro c hc
    obtain ⟨x, hx, rfl⟩ := List.mem_map.mp hc
    exact hletters x (mem_of_mem_spanSign hx)
  unfold readSpecial
  simp only
  generalize ((spanSign d.text).2).map Char.toLower = low at hlow ⊢
  rw [if_neg, if_neg, if_neg]
  · intro h
    have hs : 's' ∈ low := List.mem_of_mem_take (h ▸ List.mem_cons_self)
    exact hlow 's' hs (by decide)
  · intro h
    have hn : 'n' ∈ low := List.mem_of_mem_take (h ▸ List.mem_cons_self)
    exact hlow 'n' hn (by decide)
  · rintro (rfl | rfl)
    · exact hlow 'i' List.mem_cons_self (by decide)
    · exact hlow 'i' List.mem_cons_self (by decide)

theorem readPayload_text (payload : ℕ) : readPayload l (payloadText payload) = some payload := by
  by_cases h : payload = 0
  · subst h
    rfl
  · have hspan : spanDigits l.toNumerals ((digitsOf payload).map digitChar ++ []) = (digitsOf payload, []) :=
      spanDigits_append l.toNumerals (digitsOf payload) nofun
    rw [List.append_nil] at hspan
    unfold readPayload payloadText
    rw [if_neg h, hspan]
    exact congrArg some (numberOf_digitsOf payload)

/-- What a NaN is written with. -/
def nanMark (signaling : Bool) : List Char := if signaling then ['s', 'N', 'a', 'N'] else ['N', 'a', 'N']

theorem readSpecial_nan (negative signaling : Bool) (digits : List Char) :
    readSpecial l (signText negative ++ (nanMark signaling ++ digits)) =
      (readPayload l digits).map (.nan negative signaling) := by
  cases signaling with
  | false =>
    have hsign : spanSign (signText negative ++ (nanMark false ++ digits)) = (negative, 'N' :: 'a' :: 'N' :: digits) := by
      cases negative <;> rfl
    unfold readSpecial
    rw [hsign]
    have hinf : ¬ (('N' :: 'a' :: 'N' :: digits).map Char.toLower = ['i', 'n', 'f'] ∨
        ('N' :: 'a' :: 'N' :: digits).map Char.toLower = ['i', 'n', 'f', 'i', 'n', 'i', 't', 'y']) := by
      rintro (h | h)
      · exact absurd (List.cons.inj h).1 (by decide)
      · exact absurd (List.cons.inj h).1 (by decide)
    simp only
    rw [if_neg hinf, if_pos (by rfl)]
    rfl
  | true =>
    have hsign : spanSign (signText negative ++ (nanMark true ++ digits)) =
        (negative, 's' :: 'N' :: 'a' :: 'N' :: digits) := by
      cases negative <;> rfl
    unfold readSpecial
    rw [hsign]
    have hinf : ¬ (('s' :: 'N' :: 'a' :: 'N' :: digits).map Char.toLower = ['i', 'n', 'f'] ∨
        ('s' :: 'N' :: 'a' :: 'N' :: digits).map Char.toLower = ['i', 'n', 'f', 'i', 'n', 'i', 't', 'y']) := by
      rintro (h | h)
      · exact absurd (List.cons.inj h).1 (by decide)
      · exact absurd (List.cons.inj h).1 (by decide)
    have hquiet : (('s' :: 'N' :: 'a' :: 'N' :: digits).map Char.toLower).take 3 ≠ ['n', 'a', 'n'] := fun h =>
      absurd (List.cons.inj h).1 (by decide)
    simp only
    rw [if_neg hinf, if_neg hquiet, if_pos (by rfl)]
    rfl

theorem written_decimal (x : DecimalValue) : ∀ c ∈ x.text, NumericKeys.Written c := by
  have hsign : ∀ negative, ∀ c ∈ signText negative, NumericKeys.Written c := by
    intro negative c hc
    cases negative with
    | false => cases hc
    | true =>
      rw [List.mem_singleton.mp hc]
      exact ⟨rfl, by decide⟩
  have hpayload : ∀ payload, ∀ c ∈ payloadText payload, NumericKeys.Written c := by
    intro payload c hc
    unfold payloadText at hc
    split at hc
    · cases hc
    · obtain ⟨k, -, rfl⟩ := List.mem_map.mp hc
      exact written_digitChar k
  cases x with
  | finite d _ => exact NumericKeys.written_text d
  | infinity negative =>
    refine List.forall_mem_append.mpr ⟨hsign negative, ?_⟩
    intro c hc
    fin_cases hc <;> exact ⟨rfl, by decide⟩
  | nan negative signaling payload =>
    refine List.forall_mem_append.mpr ⟨hsign negative, List.forall_mem_append.mpr ⟨?_, hpayload payload⟩⟩
    intro c hc
    cases signaling with
    | false => fin_cases hc <;> exact ⟨rfl, by decide⟩
    | true => fin_cases hc <;> exact ⟨rfl, by decide⟩

/-- **A decimal is read back as it was.** -/
theorem decimalOf_text (x : DecimalValue) : decimalOf l x.text = some x := by
  unfold decimalOf
  rw [cleaned_of_written (written_decimal x)]
  cases x with
  | finite d h =>
    have hspecial : readSpecial l (DecimalValue.finite d h).text = none := readSpecial_text l d
    have hfinite : readDecimal l.toNumerals (DecimalValue.finite d h).text = some d := parse_text _ d
    rw [hspecial, hfinite]
    simp [h]
  | infinity negative => cases negative <;> rfl
  | nan negative signaling payload =>
    have hspecial : readSpecial l (DecimalValue.nan negative signaling payload).text =
        some (.nan negative signaling payload) := by
      refine (readSpecial_nan l negative signaling (payloadText payload)).trans ?_
      rw [readPayload_text]
      rfl
    rw [hspecial]

end Decimals

/-! ## §2. Members of a document. -/

@[simp] theorem textOrNone_textJson (text : Option String) : textOrNone (some (textJson text)) = some (orNone text) := by
  cases text <;> rfl

theorem mapM_asText (texts : List String) : (texts.map Json.str).mapM asText = some texts := by
  rw [List.mapM_map]
  exact (mapM_eq_map fun _ _ => rfl).trans (congrArg some (List.map_id texts))

@[simp] theorem textsOf_textsJson (texts : List String) : textsOf (some (textsJson texts)) = some texts := by
  show some ((texts.map Json.str).map Json.pyStr) = some texts
  rw [List.map_map]
  exact congrArg some (List.map_id texts)

@[simp] theorem setOf_textsJson (s : Finset String) : setOf (some (textsJson (s.sort (· ≤ ·)))) = some s := by
  show (((s.sort (· ≤ ·)).map Json.str).mapM asText).map List.toFinset = some s
  rw [mapM_asText]
  exact congrArg some (Finset.sort_toFinset s (· ≤ ·))

@[simp] theorem filterOf_textsJson (texts : List String) : filterOf (some (textsJson texts)) = some texts :=
  mapM_asText texts

theorem ruleOf_ruleValue (r : Rule) : ruleOf (ruleValue r) = some r := by
  cases r <;> decide

theorem nameOf_str (name : String) : nameOf (some (.str name)) = strip name := by
  unfold nameOf
  by_cases h : name = ""
  · subst h
    rfl
  · simp [Json.truthy, Json.pyStr, h]

theorem rightOf_decimal (l : Language) (x : Option DecimalValue) :
    rightOf l (some (textJson (x.map fun x => String.ofList x.text))) = some x := by
  cases x with
  | none => rfl
  | some x =>
    have hread := decimalOf_text l x
    have hne : String.ofList x.text ≠ "" := by
      intro h
      have hnil : x.text = [] := String.ofList_injective h
      rw [hnil] at hread
      cases hread
    have htext : (Json.pyStr (.str (String.ofList x.text))).toList = x.text := String.toList_ofList
    show rightOf l (some (.str (String.ofList x.text))) = some (some x)
    unfold rightOf
    split
    · next h => exact absurd h nofun
    · next h => exact absurd h nofun
    · next h => exact absurd (Json.str.inj (Option.some.inj h)) hne
    · next h =>
      obtain rfl := Option.some.inj h
      rw [htext, hread]
      rfl

theorem windowOf_int (l : Language) (n : Option ℤ) : windowOf l (some ((n.map Json.int).getD .null)) = some n := by
  cases n with
  | none => rfl
  | some n =>
    show (l.int (.int n)).map some = some (some n)
    rw [l.int_int]
    rfl

/-! ## §3. What is read of what is written. -/

/-- A value as it is read back. -/
def SettledDecl.loaded (v : SettledDecl) : SettledDecl where
  name := strip v.name
  rule := v.rule
  field := orNone v.field
  statuses := v.statuses
  only := v.only
  left := orNone v.left
  right := orNone v.right
  op := orNone v.op
  rightValue := v.rightValue
  methods := if isNearby v.rule then v.methods else []
  matching := if isNearby v.rule then v.matching else []
  windowS := if isNearby v.rule then v.windowS else none

/-- A settlement as it is read back. -/
def SettlementDecl.loaded (st : SettlementDecl) : SettlementDecl :=
  { st with values := st.values.map SettledDecl.loaded }

theorem settledFromJson_toJson (l : Language) (v : SettledDecl) :
    settledFromJson l (.obj (settledToJson v)) = some v.loaded := by
  cases hnearby : isNearby v.rule with
  | true =>
    simp [settledFromJson, settledToJson, JObject.get?, List.lookup_cons, hnearby, asText, ruleOf_ruleValue, nameOf_str,
      rightOf_decimal, windowOf_int, SettledDecl.loaded]
  | false =>
    simp [settledFromJson, settledToJson, JObject.get?, List.lookup_cons, hnearby, asText, ruleOf_ruleValue, nameOf_str,
      rightOf_decimal, SettledDecl.loaded, textsOf, items, windowOf]

/-- **Every settlement is read back**, as `loaded`. -/
theorem fromJson_toJson (l : Language) (st : SettlementDecl) : fromJson l st.name (toJson st) = some st.loaded := by
  have hvalues : (st.values.map fun v => Json.obj (settledToJson v)).mapM (settledFromJson l) =
      some (st.values.map SettledDecl.loaded) := by
    rw [List.mapM_map]
    exact mapM_eq_map fun v _ => settledFromJson_toJson l v
  simp [fromJson, toJson, JObject.get?, List.lookup_cons, items, hvalues, SettlementDecl.loaded]

/-! ## §4. What validation accepts, and what is settled. -/

theorem truthy_orNone (x : Option String) : truthy (orNone x) = truthy x := by
  cases x with
  | none => rfl
  | some s =>
    by_cases h : s = ""
    · subst h
      rfl
    · simp [orNone, Option.filter, h]

theorem orNone_of_truthy {x : Option String} (h : truthy x = true) : orNone x = x := by
  cases x with
  | none => rfl
  | some s =>
    have hs : s ≠ "" := of_decide_eq_true h
    simp [orNone, Option.filter, hs]

theorem orNone_orNone (x : Option String) : orNone (orNone x) = orNone x := by
  cases h : truthy x with
  | true => rw [orNone_of_truthy h, orNone_of_truthy h]
  | false =>
    cases x with
    | none => rfl
    | some s =>
      have hs : s = "" := by simpa [truthy] using h
      rw [hs]
      rfl

section Accepted

variable {carried seen : List String} {v : SettledDecl}

/-- A name of a value that was defined before is not empty. -/
theorem orNone_of_namesEarlier (hseen : "" ∉ seen) {name : Option String} (h : namesEarlier seen v name = true) :
    orNone name = name := by
  cases name with
  | none => rfl
  | some n =>
    have hn : n ∈ seen ∧ n ≠ v.name := by simpa [namesEarlier] using h
    refine orNone_of_truthy (decide_eq_true ?_)
    rintro rfl
    exact hseen hn.1

theorem lookupPath_orNone (field : Option String) : lookupPath (orNone field) = lookupPath field := by
  cases field with
  | none => rfl
  | some f =>
    by_cases h : f = ""
    · subst h
      decide
    · have hf : truthy (some f) = true := decide_eq_true h
      rw [orNone_of_truthy hf]

theorem orNone_op {op : Option String} (h : (op.any fun op => decide (op ∈ flagOps.map Prod.fst)) = true) :
    orNone op = op := by
  cases op with
  | none => rfl
  | some op =>
    refine orNone_of_truthy (decide_eq_true ?_)
    rintro rfl
    exact absurd h (by decide)

/-- The right of a flag is a value, or a number. -/
theorem orNone_flag (hseen : "" ∉ seen) {right : Option String} {rightValue : Bool}
    (h : (if right.isNone then rightValue else namesEarlier seen v right) = true) : orNone right = right := by
  cases right with
  | none => rfl
  | some n => exact orNone_of_namesEarlier hseen h

theorem SettledDecl.complete_loaded (hname : strip v.name = v.name) (hseen : "" ∉ seen) (h : v.complete seen = true) :
    v.loaded.complete seen = true := by
  have hnames : ∀ name, namesEarlier seen v.loaded name = namesEarlier seen v name := by
    intro name
    unfold namesEarlier
    rw [show v.loaded.name = v.name from hname]
  obtain ⟨name, rule, field, statuses, only, left, right, op, rightValue, methods, matching, windowS⟩ := v
  -- each rule asks for its own fields, of which an empty text is read back as a missing one
  cases rule
  case first | last | firstText | sum | min | max | distinctCount => exact (truthy_orNone field).trans h
  case count => exact (congrArg not (truthy_orNone field)).trans h
  case difference =>
    have hboth := Bool.and_eq_true_iff.mp h
    show (namesEarlier seen _ (orNone left) && namesEarlier seen _ (orNone right)) = true
    rw [hnames, hnames, orNone_of_namesEarlier hseen hboth.1, orNone_of_namesEarlier hseen hboth.2]
    exact h
  case flag =>
    have hall := Bool.and_eq_true_iff.mp h
    have hboth := Bool.and_eq_true_iff.mp hall.1
    show (namesEarlier seen _ (orNone left) && (if (orNone right).isNone then rightValue.isSome
      else namesEarlier seen _ (orNone right)) && (orNone op).any _) = true
    rw [hnames, hnames, orNone_of_namesEarlier hseen hboth.1, orNone_flag hseen hboth.2, orNone_op hall.2]
    exact h
  case lookup =>
    show ((lookupPath (orNone field)).any _ && truthy (orNone left)) = true
    rw [lookupPath_orNone, truthy_orNone]
    exact h
  case nearbyCount => exact h
  case nearbyDistinct | nearbyLast =>
    show (nearbyComplete _ && truthy (orNone field)) = true
    rw [truthy_orNone]
    exact h
  case nearbyHas =>
    show (nearbyComplete _ && truthy (orNone field) && truthy (orNone left) && namesEarlier seen _ (orNone left)) = true
    rw [truthy_orNone, truthy_orNone, hnames, orNone_of_namesEarlier hseen (Bool.and_eq_true_iff.mp h).2]
    exact h

/-- **Each rule settles to the same value.** -/
theorem settleValue_loaded (hseen : "" ∉ seen) (h : v.complete seen = true) (w : Settle.Spelling) (around : Around)
    (calls : List FactRow) (carried : Carried) (values : Values) :
    settleValue w around calls carried values v.loaded.settled = settleValue w around calls carried values v.settled := by
  obtain ⟨name, rule, field, statuses, only, left, right, op, rightValue, methods, matching, windowS⟩ := v
  -- rule by rule: what the rule reads is complete, so reading it back leaves it
  cases rule
  case first | last | firstText | sum | min | max | distinctCount =>
    have hfield : orNone field = field := orNone_of_truthy h
    show Option.bind ((orNone field).map fieldOf) _ = _
    rw [hfield]
    rfl
  case count => rfl
  case difference =>
    have hboth := Bool.and_eq_true_iff.mp h
    show Settle.subtract ((orNone left).bind _).join ((orNone right).bind _).join = _
    rw [orNone_of_namesEarlier hseen hboth.1, orNone_of_namesEarlier hseen hboth.2]
    rfl
  case flag =>
    have hall := Bool.and_eq_true_iff.mp h
    have hboth := Bool.and_eq_true_iff.mp hall.1
    have hright := orNone_flag hseen hboth.2
    unfold settleValue SettledDecl.settled SettledDecl.loaded
    simp only [if_true, orNone_of_namesEarlier hseen hboth.1, hright, orNone_op hall.2]
  case lookup =>
    have hleft : orNone left = left := orNone_of_truthy (Bool.and_eq_true_iff.mp h).2
    have hpath : looksUp (orNone field) = looksUp field := congrArg (Option.map _) (lookupPath_orNone field)
    unfold settleValue SettledDecl.settled SettledDecl.loaded
    simp only [hleft, hpath]
    rfl
  case nearbyCount => rfl
  case nearbyDistinct | nearbyLast =>
    have hfield : orNone field = field := orNone_of_truthy (Bool.and_eq_true_iff.mp h).2
    unfold SettledDecl.loaded
    simp only [hfield]
    rfl
  case nearbyHas =>
    have hboth := Bool.and_eq_true_iff.mp h
    have hfields := Bool.and_eq_true_iff.mp (Bool.and_eq_true_iff.mp hboth.1).1
    have hfield : orNone field = field := orNone_of_truthy hfields.2
    have hleft := orNone_of_namesEarlier hseen hboth.2
    unfold SettledDecl.loaded
    simp only [hfield, hleft]
    rfl

end Accepted

/-- The names that survive: not empty, and without white space around them. -/
def CleanNames (values : List SettledDecl) : Prop := ∀ v ∈ values, v.name ≠ "" ∧ strip v.name = v.name

theorem acceptedFrom_loaded {carried seen : List String} {values : List SettledDecl} (hclean : CleanNames values)
    (hseen : "" ∉ seen) (h : acceptedFrom carried seen values = true) :
    acceptedFrom carried seen (values.map SettledDecl.loaded) = true := by
  induction values generalizing seen with
  | nil => rfl
  | cons v rest ih =>
    obtain ⟨hv, hrest⟩ := List.forall_mem_cons.mp hclean
    rw [acceptedFrom, Bool.and_eq_true] at h
    obtain ⟨haccepted, hafter⟩ := h
    have hname : v.loaded.name = v.name := hv.2
    rw [List.map_cons, acceptedFrom, Bool.and_eq_true]
    constructor
    · rw [SettledDecl.accepted, Bool.and_eq_true] at haccepted ⊢
      rw [hname]
      exact ⟨haccepted.1, SettledDecl.complete_loaded hv.2 hseen haccepted.2⟩
    · rw [hname]
      exact ih hrest (List.not_mem_cons_of_ne_of_not_mem hv.1.symm hseen) hafter

theorem complete_of_acceptedFrom {carried seen : List String} {values : List SettledDecl} (hclean : CleanNames values)
    (hseen : "" ∉ seen) (h : acceptedFrom carried seen values = true) :
    ∀ v ∈ values, ∃ before, "" ∉ before ∧ v.complete before = true := by
  induction values generalizing seen with
  | nil => exact fun v hv => absurd hv List.not_mem_nil
  | cons v rest ih =>
    obtain ⟨hv, hrest⟩ := List.forall_mem_cons.mp hclean
    rw [acceptedFrom, Bool.and_eq_true] at h
    obtain ⟨haccepted, hafter⟩ := h
    rw [SettledDecl.accepted, Bool.and_eq_true] at haccepted
    refine List.forall_mem_cons.mpr ⟨⟨seen, hseen, haccepted.2⟩, ?_⟩
    exact ih hrest (List.not_mem_cons_of_ne_of_not_mem hv.1.symm hseen) hafter

/-- An accepted settlement, as it is read back. -/
def Declared.loaded (d : Declared) (hclean : CleanNames d.decl.values) : Declared where
  decl := d.decl.loaded
  accepted := by
    have h := d.accepted
    rw [SettlementDecl.accepted, Bool.and_eq_true] at h ⊢
    exact ⟨h.1, acceptedFrom_loaded hclean List.not_mem_nil h.2⟩

theorem valuesOf_loaded (d : Declared) (hclean : CleanNames d.decl.values) (w : Settle.Spelling) (around : Around)
    (calls : List FactRow) :
    valuesOf w (d.loaded hclean).settlement around calls = valuesOf w d.settlement around calls := by
  have hsteps := complete_of_acceptedFrom hclean List.not_mem_nil d.acceptedValues
  show ((d.decl.values.map SettledDecl.loaded).map SettledDecl.settled).foldlM _ _ =
    (d.decl.values.map SettledDecl.settled).foldlM _ _
  rw [List.map_map, List.foldlM_map, List.foldlM_map]
  refine foldlM_congr_mem (fun v hv values => ?_) _
  obtain ⟨before, hbefore, hcomplete⟩ := hsteps v hv
  have hname : v.loaded.settled.name = v.settled.name := (hclean v hv).2
  have hvalue := settleValue_loaded hbefore hcomplete w around calls
    (Settle.carriedOf (d.loaded hclean).settlement calls) values
  show (settleValue w around calls _ values v.loaded.settled).map (values.set v.loaded.settled.name) = _
  rw [hvalue, hname]
  rfl

/-- **An accepted settlement settles as before.** -/
theorem settle_loaded (d : Declared) (hclean : CleanNames d.decl.values) (w : Settle.Spelling) (around : Around)
    (rows : List FactRow) : settle w (d.loaded hclean).settlement around rows = settle w d.settlement around rows := by
  have hkey : ∀ calls, settleKey w (d.loaded hclean).settlement around calls = settleKey w d.settlement around calls := by
    intro calls
    unfold settleKey
    simp only
    rw [valuesOf_loaded d hclean]
    rfl
  unfold settle
  simp only [hkey]
  rfl

/-! ## §5. Metric definitions. -/

/-- What is read of a text that is stripped. -/
def trimmed (text : Option String) : Option String := text.bind fun s => orNone (some (strip s))

/-- A measure as it is read back. -/
def MeasureDecl.loaded (m : MeasureDecl) : MeasureDecl := { m with unit := trimmed m.unit, minus := trimmed m.minus }

/-- A definition as it is read back. -/
def MetricDecl.loaded (d : MetricDecl) : MetricDecl :=
  { d with measures := d.measures.map MeasureDecl.loaded, source := (orNone (some d.source)).getD "transaction" }

/-- The classifications of a measure are those of the code. -/
def MeasureDecl.Classified (m : MeasureDecl) : Prop := ∀ x ∈ m.only, x ∈ classifications

theorem onlyFrom_textsJson {s : Finset String} (h : ∀ x ∈ s, x ∈ classifications) :
    onlyFrom (some (textsJson (s.sort (· ≤ ·)))) = some s := by
  have hread : ((s.sort (· ≤ ·)).map Json.str).mapM (fun x => (asText x).filter fun s => decide (s ∈ classifications)) =
      some (s.sort (· ≤ ·)) := by
    rw [List.mapM_map]
    refine (mapM_eq_map fun x hx => ?_).trans (congrArg some (List.map_id _))
    have hx' := h x ((Finset.mem_sort _).mp hx)
    simp [asText, Option.filter, hx']
  show Option.map List.toFinset (List.mapM _ ((s.sort (· ≤ ·)).map Json.str)) = some s
  rw [hread]
  exact congrArg some (Finset.sort_toFinset s (· ≤ ·))

theorem classified_of_onlyFrom {s : Finset String} (h : (onlyFrom (some (textsJson (s.sort (· ≤ ·))))).isSome) :
    ∀ x ∈ s, x ∈ classifications := by
  intro x hx
  have hall : (((s.sort (· ≤ ·)).map Json.str).mapM
      (fun x => (asText x).filter fun s => decide (s ∈ classifications))).isSome := by
    rw [← Option.isSome_map (f := List.toFinset)]
    exact h
  have hx' := mapM_isSome.mp hall (Json.str x) (List.mem_map_of_mem ((Finset.mem_sort _).mpr hx))
  by_contra hnot
  simp [asText, Option.filter, hnot] at hx'

theorem trimmed_of_orNone (text : Option String) {text' : Option String} (h : orNone text = text') :
    trimmedFrom (text'.map Json.str) = trimmed text := by
  subst h
  cases text with
  | none => rfl
  | some s =>
    by_cases hs : s = ""
    · subst hs
      rfl
    · have hsome : truthy (some s) = true := decide_eq_true hs
      rw [orNone_of_truthy hsome]
      rfl

theorem aggregationOf_value (a : Aggregation) : aggregationOf (aggregationValue a) = some a := by
  cases a <;> decide

theorem statusOf_value (s : MetricStatus) : statusOf (statusValue s) = some s := by
  cases s <;> decide

theorem fieldFrom_textJson (text : Option String) : fieldFrom (some (textJson text)) = some text := by
  cases text <;> rfl

/-- What is read of a measure is decided by its classifications. -/
theorem measureFromJson_toJson (m : MeasureDecl) :
    measureFromJson (.obj (measureToJson m)) =
      (onlyFrom (some (textsJson (m.only.sort (· ≤ ·))))).map fun only => { m.loaded with only := only } := by
  have hunit := trimmed_of_orNone m.unit rfl
  have hminus := trimmed_of_orNone m.minus rfl
  generalize hu : orNone m.unit = unit at hunit
  generalize hm : orNone m.minus = minus at hminus
  have hget : ∀ raw, raw = measureToJson m → JObject.get? raw "unit" = unit.map Json.str ∧
      JObject.get? raw "minus" = minus.map Json.str := by
    rintro raw rfl
    cases unit <;> cases minus <;> simp [measureToJson, keyIfAny, hu, hm, JObject.get?, List.lookup_cons]
  obtain ⟨hgetUnit, hgetMinus⟩ := hget _ rfl
  unfold measureFromJson
  simp only [hgetUnit, hgetMinus, hunit, hminus]
  simp [measureToJson, JObject.get?, List.lookup_cons, asText, aggregationOf_value, fieldFrom_textJson, MeasureDecl.loaded]
  rw [Option.map_eq_bind]
  rfl

theorem measureFromJson_isSome (m : MeasureDecl) :
    (measureFromJson (.obj (measureToJson m))).isSome ↔ m.Classified := by
  rw [measureFromJson_toJson, Option.isSome_map]
  constructor
  · exact classified_of_onlyFrom
  · intro h
    rw [onlyFrom_textsJson h]
    rfl

theorem fromRow_toRow (d : MetricDecl) :
    fromRow (toRow d) = (d.measures.mapM fun m => measureFromJson (.obj (measureToJson m))).map fun measures =>
      { d.loaded with measures := measures } := by
  have hmeasures : (d.measures.map fun m => Json.obj (measureToJson m)).mapM measureFromJson =
      d.measures.mapM fun m => measureFromJson (.obj (measureToJson m)) := List.mapM_map
  unfold fromRow toRow
  simp only [hmeasures]
  simp [JObject.get?, List.lookup_cons, statusOf_value, MetricDecl.loaded]
  rw [Option.map_eq_bind]
  rfl

/-- **A definition is read back if and only if its classifications are those of the code.** -/
theorem fromRow_isSome (d : MetricDecl) : (fromRow (toRow d)).isSome ↔ ∀ m ∈ d.measures, m.Classified := by
  rw [fromRow_toRow, Option.isSome_map, mapM_isSome]
  simp only [measureFromJson_isSome]

theorem fromRow_loaded {d : MetricDecl} (h : ∀ m ∈ d.measures, m.Classified) : fromRow (toRow d) = some d.loaded := by
  have hmeasures : d.measures.mapM (fun m => measureFromJson (.obj (measureToJson m))) =
      some (d.measures.map MeasureDecl.loaded) := by
    refine mapM_eq_map fun m hm => ?_
    rw [measureFromJson_toJson, onlyFrom_textsJson (h m hm)]
    rfl
  rw [fromRow_toRow, hmeasures]
  rfl

/-- The subtracted field is read back but for an empty one, which is none. -/
theorem trimmed_minus {minus : Option String} (h : ∀ s ∈ minus, strip s = s) : trimmed minus = orNone minus := by
  cases minus with
  | none => rfl
  | some s =>
    show orNone (some (strip s)) = orNone (some s)
    rw [h s rfl]

theorem measure_loaded {m : MeasureDecl} (h : ∀ s ∈ m.minus, strip s = s) : m.loaded.measure = m.measure := by
  have hminus : orNone (trimmed m.minus) = orNone m.minus := by rw [trimmed_minus h, orNone_orNone]
  unfold MeasureDecl.measure MeasureDecl.loaded
  simp only [hminus]

/-- **A definition folds as before.** -/
theorem definition_loaded {d : MetricDecl} (h : ∀ m ∈ d.measures, ∀ s ∈ m.minus, strip s = s) :
    d.loaded.definition = d.definition := by
  have hmeasures : (d.measures.map MeasureDecl.loaded).map MeasureDecl.measure = d.measures.map MeasureDecl.measure := by
    rw [List.map_map]
    exact List.map_congr_left fun m hm => measure_loaded (h m hm)
  unfold MetricDecl.definition MetricDecl.loaded
  simp only [hmeasures]

/-- An accepted measure is accepted as it is read back. -/
theorem MeasureDecl.accepted_loaded {g : Registry} {d : MetricDecl} {m : MeasureDecl} (h : ∀ s ∈ m.minus, strip s = s) :
    m.loaded.accepted g d = m.accepted g d := by
  have hminus : m.loaded.minus = orNone m.minus := trimmed_minus h
  cases hm : m.minus with
  | none =>
    rw [hm] at hminus
    unfold MeasureDecl.accepted kindsAccept
    rw [hminus, hm]
    rfl
  | some s =>
    rw [hm] at hminus
    by_cases hs : s = ""
    · subst hs
      unfold MeasureDecl.accepted kindsAccept
      rw [hminus, hm]
      rfl
    · have hsome : truthy (some s) = true := decide_eq_true hs
      rw [orNone_of_truthy hsome] at hminus
      unfold MeasureDecl.accepted kindsAccept
      rw [hminus, hm]
      rfl

theorem MetricDecl.accepted_loaded {g : Registry} {d : MetricDecl} (h : ∀ m ∈ d.measures, ∀ s ∈ m.minus, strip s = s)
    (haccepted : d.accepted g = true) : d.loaded.accepted g = true := by
  rw [MetricDecl.accepted, Bool.and_eq_true, Bool.and_eq_true, Bool.and_eq_true, decide_eq_true_eq] at haccepted
  obtain ⟨⟨⟨hsource, hdimensions⟩, hgrains⟩, hmeasures⟩ := haccepted
  have hkept : d.loaded.source = d.source := by
    show (orNone (some d.source)).getD "transaction" = d.source
    rcases hsource with heq | heq
    · rw [heq]
      rfl
    · rw [heq]
      rfl
  have hsame : ∀ m : MeasureDecl, m.accepted g d.loaded = m.accepted g d := by
    intro m
    unfold MeasureDecl.accepted
    rw [hkept]
    rfl
  rw [MetricDecl.accepted, Bool.and_eq_true, Bool.and_eq_true, Bool.and_eq_true, decide_eq_true_eq, hkept]
  refine ⟨⟨⟨hsource, hdimensions⟩, hgrains⟩, ?_⟩
  refine List.all_eq_true.mpr fun m' hm' => ?_
  obtain ⟨m, hm, rfl⟩ := List.mem_map.mp hm'
  rw [hsame, MeasureDecl.accepted_loaded (h m hm)]
  exact List.all_eq_true.mp hmeasures m hm

/-! ## §6. Together. -/

/-- **What is stored is read back with the same meaning.**  Every settlement can be read back, and every
definition whose classifications are those of the code; an accepted settlement whose values have clean names
settles as before, and an accepted definition whose subtracted fields are stripped folds as before. -/
theorem stored_round_trip (l : Language) (g : Registry) :
    (∀ st : SettlementDecl, (fromJson l st.name (toJson st)).isSome) ∧
      (∀ d : MetricDecl, (fromRow (toRow d)).isSome ↔ ∀ m ∈ d.measures, m.Classified) ∧
      (∀ d : Declared, CleanNames d.decl.values →
        ∃ d' : Declared, fromJson l d.decl.name (toJson d.decl) = some d'.decl ∧
          ∀ (w : Settle.Spelling) (around : Around) (rows : List FactRow),
            settle w d'.settlement around rows = settle w d.settlement around rows) ∧
      ∀ d : MetricDecl, d.accepted g = true → (∀ m ∈ d.measures, m.Classified) →
        (∀ m ∈ d.measures, ∀ s ∈ m.minus, strip s = s) →
        ∃ d' : MetricDecl, fromRow (toRow d) = some d' ∧ d'.accepted g = true ∧
          ∀ (w : PythonTexts) (rows : List FactRow), foldRows w d'.definition rows = foldRows w d.definition rows := by
  refine ⟨fun st => ?_, fromRow_isSome, fun d hclean => ?_, fun d haccepted hclassified hminus => ?_⟩
  · rw [fromJson_toJson]
    rfl
  · exact ⟨d.loaded hclean, fromJson_toJson l d.decl, settle_loaded d hclean⟩
  · refine ⟨d.loaded, fromRow_loaded hclassified, MetricDecl.accepted_loaded hminus haccepted, fun w rows => ?_⟩
    rw [definition_loaded hminus]

/-! ## §7. A settlement and a definition, and what is lost of others. -/

/-- The ten digits, and what `int` makes of numbers. -/
def asciiLanguage : Language where
  toDigitTable := NumericKeys.asciiTable
  int
    | .int n => some n
    | .bool b => some (if b then 1 else 0)
    | _ => none
  int_int _ := rfl

/-- What a release of a pick list is short of. -/
def shortfall : Declared where
  decl :=
    { name := "releases"
      reads := ["ConfirmPickLine"]
      key := ["attr:ReleaseId"]
      carry := ["item_number"]
      values :=
        [{ name := "expected", rule := .first, field := some "attr:ExpectedQuantity" },
          { name := "picked", rule := .sum, field := some "quantity", statuses := {"success"} },
          { name := "short", rule := .difference, left := some "expected", right := some "picked" },
          { name := "missed", rule := .flag, left := some "short", op := some ">",
            rightValue := some (.finite ⟨false, 0, 0⟩ (by decide)) }] }
  accepted := by decide

/-- Units of one method, by the transactions that went through. -/
def consumption : MetricDecl where
  name := "consumption"
  dimensions := ["method", "transaction_name"]
  measures := [{ name := "quantity", aggregation := .sum, field := some "quantity", only := {"pick", "attempt"},
                 statuses := {"success"} }]
  grains := ["hourly", "daily"]
  methodFilter := ["ConfirmPickLine"]

/-- A call of a release. -/
def releaseCall : FactRow where
  method := some "ConfirmPickLine"
  attributes := some fun key => if key = "ReleaseId" then .str "540551" else .none

theorem stored_round_trip_shortfall :
    (∃ d' : Declared, fromJson asciiLanguage shortfall.decl.name (toJson shortfall.decl) = some d'.decl ∧
      settle startSpelling d'.settlement {} [releaseCall] = settle startSpelling shortfall.settlement {} [releaseCall]) ∧
    ∃ d' : MetricDecl, fromRow (toRow consumption) = some d' ∧
      foldRows plainTexts d'.definition [releaseCall] = foldRows plainTexts consumption.definition [releaseCall] := by
  obtain ⟨-, -, hsettle, hfold⟩ := stored_round_trip asciiLanguage ⟨[], fun _ => none⟩
  obtain ⟨d', hd', hsame⟩ := hsettle shortfall (by unfold CleanNames; decide)
  obtain ⟨e', he', -, hfolds⟩ := hfold consumption (by decide) (by unfold MeasureDecl.Classified; decide) (by decide)
  exact ⟨⟨d', hd', hsame _ _ _⟩, e', he', hfolds _ _⟩

/-- A count whose name has a blank before it. -/
def padded : Declared where
  decl := { name := "releases", reads := ["ConfirmPickLine"], key := ["attr:ReleaseId"],
            values := [{ name := " calls", rule := .count }] }
  accepted := by decide

/-- The count as it is read back. -/
def unpadded : Declared where
  decl := padded.decl.loaded
  accepted := by decide

/-- A count without a name, and a flag that reads it. -/
def unnamed : Declared where
  decl := { name := "releases", reads := ["ConfirmPickLine"], key := ["attr:ReleaseId"],
            values := [{ name := "", rule := .count },
              { name := "called", rule := .flag, left := some "", op := some ">",
                rightValue := some (.finite ⟨false, 0, 0⟩ (by decide)) }] }
  accepted := by decide

/-- Two numbers of one record, under keys one of which ends with a blank. -/
def paddedCall : FactRow where
  attributes := some fun key => if key = "resp.A" then .int 5 else if key = "resp.B " then .int 2 else .none

/-- Their difference. -/
def paddedDifference : MetricDecl where
  name := "short"
  dimensions := []
  measures := [{ name := "short", aggregation := .sum, field := some "attr:resp.A", minus := some "attr:resp.B " }]
  grains := ["daily"]

/-- A count of what is no classification. -/
def unclassified : MetricDecl where
  name := "odd"
  dimensions := []
  measures := [{ name := "odd", aggregation := .count, only := {"odd"} }]
  grains := ["daily"]

/-- The name that is read is another one; what reads an empty name is refused; a key is not found any more; a
stored row is not read. -/
theorem stored_differs :
    (∃ d', fromJson asciiLanguage padded.decl.name (toJson padded.decl) = some (Declared.decl d') ∧
      settle startSpelling d'.settlement {} [releaseCall] ≠ settle startSpelling padded.settlement {} [releaseCall]) ∧
    (∃ st', fromJson asciiLanguage unnamed.decl.name (toJson unnamed.decl) = some st' ∧ st'.accepted = false) ∧
    (paddedDifference.accepted ⟨["resp.A", "resp.B "], fun _ => none⟩ = true ∧
      ∃ d', fromRow (toRow paddedDifference) = some d' ∧
        foldRows plainTexts d'.definition [paddedCall] ≠ foldRows plainTexts paddedDifference.definition [paddedCall]) ∧
    unclassified.accepted ⟨[], fun _ => none⟩ = true ∧ fromRow (toRow unclassified) = none := by
  refine ⟨⟨unpadded, fromJson_toJson _ _, ?_⟩, ⟨unnamed.decl.loaded, fromJson_toJson _ _, by decide⟩,
    ⟨by decide, paddedDifference.loaded, ?_, ?_⟩, by decide, ?_⟩
  · intro h
    have hnames := congrArg (Option.map fun out => out.map fun r => r.2.values.keys) h
    exact absurd hnames (by decide)
  · exact fromRow_loaded (by unfold MeasureDecl.Classified; decide)
  · intro h
    have hcounts := congrArg (fun out => (out.bind fun buckets => buckets "short").bind Roles.countValue) h
    exact absurd hcounts (by decide +kernel)
  · refine Option.not_isSome_iff_eq_none.mp fun h => ?_
    have hodd := (fromRow_isSome unclassified).mp h _ List.mem_cons_self "odd" (by decide)
    exact absurd hodd (by decide)

end RagPipeline.Analytics.StoredForms
