/-
  RagPipeline.Analytics.SettleTotal — when `settle` returns.

    * `Alike`          — values that `min` and `max` can compare;
    * `Settles`        — what one rule can take, from the values before it;
    * `settle_isSome`  — `settle` returns exactly if every rule of every key can;
    * `returns_iff`    — the fold and the settlement;
    * `mixed_starts`   — a number and a time under one `min`.
-/
import RagPipeline.Analytics.SettleOrder
import RagPipeline.Analytics.FoldTotal

namespace RagPipeline.Analytics.Settle

open RagPipeline.Stage2 RagPipeline.Lib

variable (w : Spelling)

/-- The values of a field. -/
def readValues (s : Settled) (f : FieldName) (calls : List FactRow) : List Value :=
  ((calls.filter (qualifies s)).filterMap fun r => read r f).filterMap (numericOrTime w)

/-! ## §1. Rule by rule. -/

/-- What `min` and `max` can go through: one value, only numbers with a place, or only times. -/
def Alike (vs : List Value) : Prop :=
  vs.length ≤ 1 ∨ (∀ v ∈ vs, ∃ x, v = .number x ∧ x.rank ≠ none) ∨ ∀ v ∈ vs, ∃ t, v = .time t

/-- What a rule can take of the calls, from the values before it. -/
def Settles (around : Around) (calls : List FactRow) (values : Values) (s : Settled) : Prop :=
  match s.rule with
  | .first | .last | .firstText | .distinctCount => s.field ≠ none
  | .sum => ∃ f, s.field = some f ∧
      Number.Summable decimalContext 0 ((readValues w s f calls).filterMap asNumber)
  | .min | .max => ∃ f, s.field = some f ∧ Alike (readValues w s f calls)
  | .difference => ∀ x y, (s.left.bind fun n => values.get? n).join = some (.number x) →
      (s.right.bind fun n => values.get? n).join = some (.number y) → (Number.sub decimalContext x y).isSome
  | .flag => ∀ a b x y, (s.left.bind fun n => values.get? n).join = some a →
      (match s.right with
        | some n => (values.get? n).join
        | none => s.rightValue.map .number) = some b →
      comparedNumber a = some x → comparedNumber b = some y → x.rank ≠ none ∧ y.rank ≠ none
  | .nearbyCount | .nearbyDistinct | .nearbyLast | .nearbyHas =>
      around.context ≠ [] → s.windowS ≠ 0 → ∀ t ∈ (calls.filterMap FactRow.eventTime).head?,
        calendarStart ≤ t - s.windowS * second
  | .count | .lookup => True

/-- Value after value. -/
def SettlesAll (around : Around) (calls : List FactRow) (carried : Carried) : List Settled → Values → Prop
  | [], _ => True
  | s :: rest, values => Settles w around calls values s ∧
      ∀ v, settleValue w around calls carried values s = some v →
        SettlesAll around calls carried rest (values.set s.name v)

/-- The rank says which of the two kinds. -/
theorem kinds_iff {L : Type} {f : Bool × WithBot (WithTop ℚ) → Bool × L} (hf : ∀ a, (f a).1 = a.1) (v : Value)
    (vs : List Value) :
    (∃ a, v.rank.map f = some a ∧ ∀ u ∈ vs, ∃ b, u.rank.map f = some b ∧ b.1 = a.1) ↔
      (∀ u ∈ v :: vs, ∃ x, u = .number x ∧ x.rank ≠ none) ∨ ∀ u ∈ v :: vs, ∃ t, u = .time t := by
  -- the first component of a rank tells the two kinds apart
  have hnumber : ∀ u : Value, (∃ b, u.rank.map f = some b ∧ b.1 = false) ↔ ∃ x, u = .number x ∧ x.rank ≠ none := by
    intro u
    cases u with
    | number x =>
      cases hx : x.rank with
      | none => simp [Value.rank, hx]
      | some p => simp [Value.rank, hx, hf]
    | time t => simp [Value.rank, hf]
    | count n => simp [Value.rank]
    | text s => simp [Value.rank]
  have htime : ∀ u : Value, (∃ b, u.rank.map f = some b ∧ b.1 = true) ↔ ∃ t, u = .time t := by
    intro u
    cases u with
    | number x =>
      cases hx : x.rank with
      | none => simp [Value.rank, hx]
      | some p => simp [Value.rank, hx, hf]
    | time t => simp [Value.rank, hf]
    | count n => simp [Value.rank]
    | text s => simp [Value.rank]
  constructor
  · rintro ⟨a, ha, hall⟩
    cases hk : a.1 with
    | false =>
      rw [hk] at hall
      refine Or.inl (List.forall_mem_cons.mpr ⟨(hnumber v).mp ⟨a, ha, hk⟩, fun u hu => (hnumber u).mp (hall u hu)⟩)
    | true =>
      rw [hk] at hall
      refine Or.inr (List.forall_mem_cons.mpr ⟨(htime v).mp ⟨a, ha, hk⟩, fun u hu => (htime u).mp (hall u hu)⟩)
  · rintro (hall | hall)
    · obtain ⟨hv, hvs⟩ := List.forall_mem_cons.mp hall
      obtain ⟨a, ha, hk⟩ := (hnumber v).mpr hv
      exact ⟨a, ha, fun u hu => hk ▸ (hnumber u).mpr (hvs u hu)⟩
    · obtain ⟨hv, hvs⟩ := List.forall_mem_cons.mp hall
      obtain ⟨a, ha, hk⟩ := (htime v).mpr hv
      exact ⟨a, ha, fun u hu => hk ▸ (htime u).mpr (hvs u hu)⟩

/-- **`min` and `max` return** exactly on values that are alike. -/
theorem keepExtreme_isSome {L : Type} [LinearOrder L] {f : Bool × WithBot (WithTop ℚ) → Bool × L}
    (hf : ∀ a, (f a).1 = a.1) {takes : Value → Value → Option Bool}
    (htakes : takes = below fun v => v.rank.map f) (vs : List Value) :
    (vs.foldlM (keepExtreme takes) none).isSome ↔ Alike vs := by
  subst htakes
  cases vs with
  | nil => exact ⟨fun _ => Or.inl (Nat.zero_le 1), fun _ => rfl⟩
  | cons v vs =>
    show (vs.foldlM (keepExtreme _) (some v)).isSome ↔ _
    rw [foldlM_keepExtreme, Option.isSome_map, foldlM_pick_isSome, kinds_iff hf]
    unfold Alike
    rw [List.length_cons]
    refine or_congr ⟨fun h => ?_, fun h => List.length_eq_zero_iff.mp (by omega)⟩ Iff.rfl
    rw [h]
    exact Nat.le_refl 1

theorem min_isSome (vs : List Value) : (vs.foldlM (keepExtreme valueLt) none).isSome ↔ Alike vs := by
  refine keepExtreme_isSome (f := id) (fun _ => rfl) ?_ vs
  rw [valueLt_eq]
  refine congrArg below (funext fun v => ?_)
  exact Option.map_id_apply.symm

theorem max_isSome (vs : List Value) : (vs.foldlM (keepExtreme fun v c => valueLt c v) none).isSome ↔ Alike vs := by
  have hrank := keepExtreme_isSome (f := fun a => (a.1, OrderDual.toDual a.2)) (fun _ => rfl) valueGt_eq vs
  exact hrank

theorem lt_isSome (x y : Number) : (Number.lt x y).isSome ↔ x.rank ≠ none ∧ y.rank ≠ none := by
  rw [Number.lt_eq_rank]
  cases x.rank <;> cases y.rank <;> simp

/-- Two numbers or counts are compared as numbers. -/
theorem compare_numbers (op : FlagOp) {a b : Value} {x y : Number} (hx : comparedNumber a = some x)
    (hy : comparedNumber b = some y) : (compare op (some a) (some b)).isSome = (Number.lt x y).isSome := by
  cases a with
  | number x' =>
    cases hx
    cases b with
    | number y' =>
      cases hy
      exact Option.isSome_map
    | count n =>
      cases hy
      exact Option.isSome_map
    | time t => cases hy
    | text s => cases hy
  | count n =>
    cases hx
    cases b with
    | number y' =>
      cases hy
      exact Option.isSome_map
    | count n =>
      cases hy
      rfl
    | time t => cases hy
    | text s => cases hy
  | time t => cases hx
  | text s => cases hx

/-- Other values give an answer, or none. -/
theorem compare_others (op : FlagOp) {a b : Value} (h : comparedNumber a = none ∨ comparedNumber b = none) :
    (compare op (some a) (some b)).isSome := by
  cases a <;> cases b
  case number.number => cases h <;> contradiction
  case number.count => cases h <;> contradiction
  case count.number => cases h <;> contradiction
  case count.count => cases h <;> contradiction
  all_goals rfl

/-- A comparison raises on a NaN only. -/
theorem compare_isSome (op : FlagOp) (a b : Option Value) :
    (compare op a b).isSome ↔ ∀ a' b' x y, a = some a' → b = some b' →
      comparedNumber a' = some x → comparedNumber b' = some y → x.rank ≠ none ∧ y.rank ≠ none := by
  cases a with
  | none => exact ⟨fun _ a' _ _ _ ha => (nomatch ha), fun _ => by cases b <;> rfl⟩
  | some a =>
    cases b with
    | none => exact ⟨fun _ _ b' _ _ _ hb => (nomatch hb), fun _ => by cases a <;> rfl⟩
    | some b =>
      by_cases hnone : comparedNumber a = none ∨ comparedNumber b = none
      · refine ⟨fun _ a' b' x y ha hb hx hy => ?_, fun _ => compare_others op hnone⟩
        obtain rfl := Option.some.inj ha
        obtain rfl := Option.some.inj hb
        rw [hx, hy] at hnone
        cases hnone <;> contradiction
      · push Not at hnone
        obtain ⟨x, hx⟩ := Option.ne_none_iff_exists'.mp hnone.1
        obtain ⟨y, hy⟩ := Option.ne_none_iff_exists'.mp hnone.2
        rw [compare_numbers op hx hy, lt_isSome]
        constructor
        · intro h a' b' x' y' ha hb hx' hy'
          obtain rfl := Option.some.inj ha
          obtain rfl := Option.some.inj hb
          obtain rfl := Option.some.inj (hx.symm.trans hx')
          obtain rfl := Option.some.inj (hy.symm.trans hy')
          exact h
        · exact fun h => h a b x y rfl rfl hx hy

/-- Only two numbers are subtracted in the context. -/
theorem subtract_isSome (a b : Option Value) :
    (subtract a b).isSome ↔ ∀ x y, a = some (.number x) → b = some (.number y) →
      (Number.sub decimalContext x y).isSome := by
  by_cases hboth : ∃ x y, a = some (.number x) ∧ b = some (.number y)
  · obtain ⟨x, y, rfl, rfl⟩ := hboth
    show ((Number.sub decimalContext x y).map fun z => some (Value.number z)).isSome ↔ _
    rw [Option.isSome_map]
    constructor
    · intro h x' y' hx hy
      obtain rfl := Value.number.inj (Option.some.inj hx)
      obtain rfl := Value.number.inj (Option.some.inj hy)
      exact h
    · exact fun h => h x y rfl rfl
  · refine ⟨fun _ x y hx hy => absurd ⟨x, y, hx, hy⟩ hboth, fun _ => ?_⟩
    unfold subtract
    split
    · exact absurd ⟨_, _, rfl, rfl⟩ hboth
    · rfl
    · rfl

/-- Only the start of the span can be out of the calendar. -/
theorem nearby_isSome (s : Settled) (calls context : List FactRow) (values : Values) :
    (nearby w s calls context values).isSome ↔ (context ≠ [] → s.windowS ≠ 0 →
      ∀ t ∈ (calls.filterMap FactRow.eventTime).head?, calendarStart ≤ t - s.windowS * second) := by
  by_cases hempty : context = [] ∨ s.windowS = 0
  · have hnone : nearby w s calls context values = some (nearbyValue w s values []) := by
      unfold nearby
      rw [if_pos hempty]
    rw [hnone]
    refine ⟨fun _ hne hpos => ?_, fun _ => rfl⟩
    cases hempty with
    | inl h => exact absurd h hne
    | inr h => exact absurd h hpos
  · push Not at hempty
    rw [nearby_eq w hempty.1 hempty.2]
    cases ht : (calls.filterMap FactRow.eventTime).head? with
    | none => exact ⟨fun _ _ _ t h => (nomatch h), fun _ => rfl⟩
    | some t =>
      have hlast : (calls.filterMap FactRow.eventTime).getLast? ≠ none := by
        intro hnone
        rw [List.getLast?_eq_none_iff.mp hnone] at ht
        cases ht
      obtain ⟨hi, hhi⟩ := Option.ne_none_iff_exists'.mp hlast
      rw [hhi]
      show ((windowStart t s.windowS).map _).isSome ↔ _
      rw [Option.isSome_map]
      unfold windowStart
      split
      · next h => exact ⟨fun _ _ _ u hu => Option.some.inj hu ▸ h, fun _ => rfl⟩
      · next h => exact ⟨fun hf => (nomatch hf), fun hall => absurd (hall hempty.1 hempty.2 t rfl) h⟩

/-- **One value returns** exactly if its rule can take what it is given. -/
theorem settleValue_isSome (around : Around) (calls : List FactRow) (carried : Carried) (values : Values)
    (s : Settled) : (settleValue w around calls carried values s).isSome ↔ Settles w around calls values s := by
  have hbind : ∀ g : FieldName → Option (Option Value), (s.field.bind g).isSome ↔
      ∃ f, s.field = some f ∧ (g f).isSome := by
    intro g
    cases s.field with
    | none => simp
    | some f => simp
  unfold settleValue Settles
  cases hr : s.rule
  case count => exact ⟨fun _ => trivial, fun _ => rfl⟩
  case lookup => exact ⟨fun _ => trivial, fun _ => rfl⟩
  case difference => exact subtract_isSome _ _
  case flag => exact compare_isSome s.op _ _
  case sum =>
    refine (hbind _).trans (exists_congr fun f => and_congr_right fun _ => ?_)
    show (Option.map _ _).isSome ↔ _
    rw [Option.isSome_map]
    exact Number.sum_isSome_iff decimalContext 0 _
  case min => exact (hbind _).trans (exists_congr fun f => and_congr_right fun _ => min_isSome _)
  case max => exact (hbind _).trans (exists_congr fun f => and_congr_right fun _ => max_isSome _)
  case first => cases s.field <;> simp [settleCells]
  case last => cases s.field <;> simp [settleCells]
  case firstText => cases s.field <;> simp [settleCells]
  case distinctCount => cases s.field <;> simp [settleCells]
  all_goals exact nearby_isSome w s calls around.context values

/-! ## §2. Every key. -/

theorem valuesOf_isSome (st : Settlement) (around : Around) (calls : List FactRow) :
    (valuesOf w st around calls).isSome ↔
      SettlesAll w around calls (carriedOf st calls) st.values OrderedDict.empty := by
  unfold valuesOf
  generalize (OrderedDict.empty : Values) = values
  generalize st.values = rest
  induction rest generalizing values with
  | nil => exact ⟨fun _ => trivial, fun _ => rfl⟩
  | cons s rest ih =>
    rw [List.foldlM_cons]
    unfold SettlesAll
    rw [← settleValue_isSome w around calls (carriedOf st calls) values s]
    cases settleValue w around calls (carriedOf st calls) values s with
    | none => exact ⟨fun h => (nomatch h), fun h => (nomatch h.1)⟩
    | some v =>
      refine (ih (values.set s.name v)).trans ⟨fun h => ⟨rfl, fun u hu => Option.some.inj hu ▸ h⟩, fun h => h.2 v rfl⟩

/-- **`settle` returns** exactly if every rule of every key can take its calls. -/
theorem settle_isSome (st : Settlement) (around : Around) (rows : List FactRow) :
    (settle w st around rows).isSome ↔ ∀ key ∈ rows.filterMap (settledKey w st),
      SettlesAll w around (ordered (keyRows w st rows key)) (carriedOf st (ordered (keyRows w st rows key)))
        st.values OrderedDict.empty := by
  unfold settle
  rw [mapM_isSome]
  simp only [List.mem_dedup, Option.isSome_map]
  refine forall₂_congr fun key _ => ?_
  unfold settleKey
  rw [Option.isSome_map]
  exact valuesOf_isSome w st around _

/-! ## §3. Both. -/

/-- **When folding and settling return**, for every definition, settlement and rows. -/
theorem returns_iff (d : MetricDefinition) (facts : List FactRow) (st : Settlement) (around : Around)
    (calls : List FactRow) :
    ((foldRows w.toPythonTexts d facts).isSome ↔ FoldReads w.toPythonTexts d facts) ∧
      ((settle w st around calls).isSome ↔ ∀ key ∈ calls.filterMap (settledKey w st),
        SettlesAll w around (ordered (keyRows w st calls key)) (carriedOf st (ordered (keyRows w st calls key)))
          st.values OrderedDict.empty) :=
  ⟨foldRows_isSome w.toPythonTexts d facts, settle_isSome w st around calls⟩

/-- What `validate` asks of a measure beside its names: a field, and no difference under a count. -/
def acceptedMeasure (m : Measure) : Bool :=
  match m.aggregation with
  | .count => m.minus.isNone
  | .distinct => m.field.isSome && m.minus.isNone
  | _ => m.field.isSome

/-- Folding and settling, for every definition and settlement that validation accepts. -/
def NeverRaises : Prop :=
  (∀ (w : PythonTexts) (d : MetricDefinition) (facts : List FactRow), d.measures.all acceptedMeasure →
    (foldRows w d facts).isSome) ∧
  ∀ (w : Spelling) (st : Settlement) (around : Around) (calls : List FactRow), st.accepted →
    (settle w st around calls).isSome

/-- A date without dashes is a number; one with dashes is read as a time. -/
def startSpelling : Spelling where
  toPythonTexts := { plainTexts with decimal := fun s => if s = "20260918" then some (.finite 20260918) else none }
  timeText := fun t => toString t
  numberText := fun _ => ""
  isoTime := fun s => if s = "2026-09-18 06:42:34.003" then some 1789713754003000 else none

/-- When the first call of a release started. -/
def firstStart : Settlement where
  reads := ["ConfirmPickLine"]
  key := [.column "release"]
  values := [{ name := "started", rule := .min, field := some (.attribute "StartDateTime") }]
  names := by decide

/-- A call with a start. -/
def startCall (start : String) : FactRow where
  method := some "ConfirmPickLine"
  eventTime := some 0
  column := fun name => if name = "release" then .str "540551" else .none
  attributes := some fun key => if key = "StartDateTime" then .str start else .none

/-- `min` of a number and a time raises. -/
theorem mixed_starts : ¬NeverRaises := by
  intro h
  have hsettle := h.2 startSpelling firstStart {} [startCall "20260918", startCall "2026-09-18 06:42:34.003"]
    (by decide +kernel)
  exact absurd hsettle (by decide +kernel)

/-- So does `min` of a number and a NaN under an extent. -/
theorem nan_extent : ¬NeverRaises := by
  intro h
  have hfold := h.1 { plainTexts with decimal := fun s => if s = "NaN" then some .nan else none }
    (ofQuantity .extent) [{ column := fun _ => .int 1 }, { column := fun _ => .str "NaN" }] (by decide +kernel)
  exact absurd hfold (by decide +kernel)

end RagPipeline.Analytics.Settle
