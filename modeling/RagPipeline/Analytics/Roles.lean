/-
  RagPipeline.Analytics.Roles — the role buckets of a metric: how `definition.fold` fills them and how
  `add_roles` merges them.

    * `Aggregation.roles`   — what a rollup row carries for each aggregation;
    * `fold`                — fact rows into one bucket for each measure name; `none` is an exception;
    * `addRoles`            — the merge of two buckets, which never asks for the measure;
    * `Folded`              — what every bucket of a fold satisfies: its sums are numbers of the decimal
                              context, and an empty bucket is the zero bucket (`folded_of_fold`).

  The texts of numbers, `Decimal(text)` and the hash of the sketch are parameters (`PythonTexts`);
  numbers are values, so a trailing zero is not seen.
-/
import RagPipeline.Lib.Decimals
import RagPipeline.Lib.OptionLoops
import RagPipeline.Stage2.Entry
import Mathlib.Data.Nat.Bitwise
import Mathlib.Data.List.GetD

namespace RagPipeline.Analytics

open RagPipeline.Stage2 RagPipeline.Lib

/-! ## §1. Numbers and texts. -/

/-- The default context: 28 digits, `Emin = -999999`, `Emax = 999999`. -/
def decimalContext : Format :=
  ⟨10, 28, -1000026, 999999, by norm_num, by norm_num, by norm_num⟩

/-- A `float`. -/
def doubleFormat : Format := ⟨2, 53, -1074, 1023, by norm_num, by norm_num, by norm_num⟩

/-- What a column or a JSON key of a fact row holds; `float`s and `decimal`s with their texts. -/
inductive Raw where
  | none
  | bool (value : Bool)
  | int (value : ℤ)
  | float (shown : String)
  | decimal (value : Number) (shown : String)
  | str (value : String)
  | other (shown : String)

/-- What is read of the language: `Decimal(text)`, `str(Decimal(text))`, `str(number.normalize())`,
`text.strip()`, `text.lstrip("-").isdigit()` and the blake2b digest. -/
structure PythonTexts where
  decimal : String → Option Number
  spelling : String → String
  normalized : Number → Option String
  strip : String → String
  isDigits : String → Bool
  hash64 : String → Fin (2 ^ 64)

variable (w : PythonTexts)

/-- `numeric_or_none`. -/
def numericOrNone : Raw → Option Number
  | .none => none
  | .bool _ => none
  | .decimal value _ => some value
  | .int value => some (.finite value)
  | .float shown => w.decimal shown
  | .str value => w.decimal (w.strip value)
  | .other _ => none

/-- `number == number.to_integral()`; a signalling NaN raises. -/
def isIntegral : Number → Option Bool
  | .finite q => some (decide (q.den = 1))
  | .infinity _ => some true
  | .nan => some false
  | .snan => none

/-- `str(number.normalize()) if number == number.to_integral() else …`. -/
def canonical (number : Number) (otherwise : String) : Option (Option String) := do
  if ← isIntegral number then (w.normalized number).map some else some (some otherwise)

/-- The last two returns of `distinct_key`, on a text. -/
def textKey (text : String) : Option (Option String) :=
  if text = "" then some none
  else
    match w.decimal (w.strip text) with
    | none => some (some text)
    | some number => if w.isDigits text then canonical w number text else
        -- `number == number.to_integral()` is evaluated before `isdigit()`
        (isIntegral number).map fun _ => some text

/-- `distinct_key`; the outer `none` is an exception, the inner one nothing to count. -/
def distinctKey : Raw → Option (Option String)
  | .none => some none
  | .bool _ => some none
  | .int value => canonical w (.finite value) ""
  | .float shown => (w.decimal shown).bind fun number => canonical w number (w.spelling shown)
  | .decimal value shown => canonical w value shown
  | .str value => textKey w (w.strip value)
  | .other shown => textKey w (w.strip shown)

/-! ## §2. Sketches and histograms. -/

/-- `REGISTERS`. -/
abbrev registers : ℕ := 4096

/-- The registers of a sketch. -/
abbrev Sketch := Fin registers → ℕ

/-- `hll.EMPTY`. -/
def Sketch.empty : Sketch := fun _ => 0

/-- `hll.add`. -/
def Sketch.add (sketch : Sketch) (value : String) : Sketch :=
  let index : Fin registers := ⟨(w.hash64 value).val / 2 ^ 52, by
    have := (w.hash64 value).isLt
    rw [Nat.div_lt_iff_lt_mul (by norm_num)]
    exact lt_of_lt_of_eq this (by norm_num)⟩
  let rho := 52 - Nat.size ((w.hash64 value).val % 2 ^ 52) + 1
  if rho ≤ sketch index then sketch else Function.update sketch index rho

/-- `hll.union`. -/
def Sketch.union (a b : Sketch) : Sketch :=
  if a = Sketch.empty then b
  else if b = Sketch.empty then a
  else fun i => max (a i) (b i)

/-- `BANDS`. -/
abbrev bands : ℕ := 20

/-- `hg.EMPTY`. -/
def emptyBands : List ℕ := List.replicate bands 0

/-- `float(value)`; a signalling NaN raises. -/
def float : Number → Option Number
  | .finite q =>
    match doubleFormat.round q with
    | some r => some (.finite r)
    | none => some (.infinity (decide (q < 0)))
  | .snan => none
  | x => some x

/-- The loop of `band_of`: below `_TOP` it makes at most 17 steps. -/
def bandLoop (v : ℚ) : ℕ → ℕ → ℚ → ℕ
  | 0, band, _ => band
  | fuel + 1, band, edge => if edge ≤ v then bandLoop v fuel (band + 1) (edge * 2) else band

/-- `band_of`. -/
def bandOf (value : Number) : Option ℕ :=
  (float value).map fun
    | .finite v => if v < 1 then 0 else if 2 ^ (bands - 2) ≤ v then bands - 1 else bandLoop v 18 1 2
    | .infinity negative => if negative then 0 else bands - 1
    -- every comparison with a NaN is false
    | .nan => 1
    | .snan => 1

/-- `hg.add`. -/
def addBand (histogram : List ℕ) (value : Number) : Option (List ℕ) :=
  (bandOf value).map fun band =>
    let counts := if histogram = [] then emptyBands else histogram
    (counts ++ List.replicate (bands - counts.length) 0).modify band (· + 1)

theorem bandLoop_le (v : ℚ) (fuel band : ℕ) (edge : ℚ) : bandLoop v fuel band edge ≤ band + fuel := by
  induction fuel generalizing band edge with
  | zero => simp [bandLoop]
  | succ fuel ih =>
    unfold bandLoop
    split
    · have := ih (band + 1) (edge * 2)
      omega
    · omega

theorem bandOf_lt {value : Number} {band : ℕ} (h : bandOf value = some band) : band < bands := by
  obtain ⟨v, -, rfl⟩ := Option.map_eq_some_iff.mp h
  cases v with
  | finite v =>
    have := bandLoop_le v 18 1 2
    simp only [bands]
    split_ifs <;> omega
  | infinity s => cases s <;> simp [bands]
  | nan => simp [bands]
  | snan => simp [bands]

/-- A histogram that counted a value has a band that is not zero. -/
theorem any_addBand {histogram counted : List ℕ} {value : Number}
    (h : addBand histogram value = some counted) : counted.any (fun n => decide (n ≠ 0)) = true := by
  obtain ⟨band, hband, rfl⟩ := Option.map_eq_some_iff.mp h
  have hlt := bandOf_lt hband
  simp only
  generalize (if histogram = [] then emptyBands else histogram) = counts
  have hlen : band < (counts ++ List.replicate (bands - counts.length) 0).length := by
    simp only [List.length_append, List.length_replicate]
    omega
  rw [List.any_eq_true]
  refine ⟨_, List.getElem_mem (n := band) (by simpa using hlen), ?_⟩
  simp

/-! ## §3. Definitions, fact rows and buckets. -/

/-- `Aggregation`. -/
inductive Aggregation where
  | sum | count | average | stats | extent | percentile | distinct | latest
  deriving DecidableEq, Repr

/-- A field of a fact row: a typed column, or a key inside `attributes` (`attr:` before it). -/
inductive FieldName where
  | column (name : String)
  | attribute (key : String)
  deriving DecidableEq, Repr

/-- `Measure`, without its unit. -/
structure Measure where
  name : String
  aggregation : Aggregation
  field : Option FieldName := none
  only : List String := []
  statuses : List String := []
  minus : Option FieldName := none

/-- `MetricDefinition`: what the fold reads of it. -/
structure MetricDefinition where
  measures : List Measure
  methodFilter : List String := []
  transactionFilter : List String := []

/-- A fact row. -/
structure FactRow where
  method : Option String := none
  transactionName : Option String := none
  quantityClassification : Option String := none
  status : Option String := none
  eventTime : Option Instant := none
  sourceStartedAt : Option Instant := none
  column : String → Raw := fun _ => .none
  attributes : Option (String → Raw) := none

/-- `resolve_field`. -/
def FactRow.resolveField (row : FactRow) : FieldName → Raw
  | .column name => row.column name
  | .attribute key =>
    match row.attributes with
    | none => .none
    | some attributes => attributes key

/-- `{"at": …, "value": …}`. -/
structure Reading where
  at_ : Instant
  value : Option Number
  deriving DecidableEq

/-- A role bucket: a role that is not there is `none`. -/
@[ext]
structure Roles where
  sumValue : Option Number := none
  countValue : Option ℕ := none
  sumSq : Option Number := none
  minValue : Option (Option Number) := none
  maxValue : Option (Option Number) := none
  histogram : Option (List ℕ) := none
  distinctSketch : Option Sketch := none
  latest : Option (Option Reading) := none

/-- `_empty_roles`, over the roles of `_ROLES`. -/
def Aggregation.emptyRoles : Aggregation → Roles
  | .sum => { sumValue := some Number.zero, countValue := some 0 }
  | .count => { countValue := some 0 }
  | .average => { sumValue := some Number.zero, countValue := some 0 }
  | .stats => { sumValue := some Number.zero, countValue := some 0, sumSq := some Number.zero }
  | .extent => { minValue := some none, maxValue := some none }
  | .percentile => { histogram := some emptyBands, countValue := some 0 }
  | .distinct => { distinctSketch := some Sketch.empty, countValue := some 0 }
  | .latest => { latest := some none, countValue := some 0 }

/-- The buckets of a fold, by measure name. -/
abbrev Buckets := String → Option Roles

/-- `empty`: of two measures with one name the last decides. -/
def MetricDefinition.empty (d : MetricDefinition) : Buckets := fun name =>
  ((d.measures.filter fun m => m.name = name).getLast?).map fun m => m.aggregation.emptyRoles

/-! ## §4. `fold`. -/

/-- A set filter: the empty one lets everything through. -/
def passes (filter : List String) : Option String → Bool
  | none => filter.isEmpty
  | some value => filter.isEmpty || decide (value ∈ filter)

/-- `_contributes`. -/
def contributes (row : FactRow) (d : MetricDefinition) (m : Measure) : Bool :=
  passes d.methodFilter row.method && passes d.transactionFilter row.transactionName &&
    passes m.only row.quantityClassification && passes m.statuses row.status

/-- `_later`: a tie keeps the left one. -/
def later : Option Reading → Option Reading → Option Reading
  | none, y => y
  | some x, none => some x
  | some x, some y => if x.at_ < y.at_ then some y else some x

/-- `min(cur, value)` or `max(cur, value)`; a value that is no number can only be the first. -/
def extreme (takes : Number → Number → Option Bool) (cur value : Option Number) :
    Option (Option Number) :=
  match cur with
  | none => some value
  | some c => value.bind fun v => (takes v c).map fun t => if t then some v else some c

/-- `value < cur`. -/
def takesMin (v c : Number) : Option Bool := Number.lt v c

/-- `value > cur`. -/
def takesMax (v c : Number) : Option Bool := Number.lt c v

/-- An update of a role that is in the bucket. -/
def onRole {α : Type} (role : Option α) (update : α → Option α) : Option (Option α) :=
  match role with
  | none => some none
  | some x => (update x).map some

/-- One contributed value, into every role of the bucket. -/
def record (row : FactRow) (bucket : Roles) (value : Option Number) : Option Roles := do
  let sumValue ← onRole bucket.sumValue fun s => value.bind (Number.add decimalContext s)
  let sumSq ← onRole bucket.sumSq fun s => value.bind fun v =>
    (Number.mul decimalContext v v).bind (Number.add decimalContext s)
  let minValue ← onRole bucket.minValue fun cur => extreme takesMin cur value
  let maxValue ← onRole bucket.maxValue fun cur => extreme takesMax cur value
  let histogram ← onRole bucket.histogram fun h => value.bind (addBand h)
  return { bucket with
    countValue := bucket.countValue.map (· + 1)
    sumValue := sumValue
    sumSq := sumSq
    minValue := minValue
    maxValue := maxValue
    histogram := histogram
    latest := bucket.latest.map fun cur =>
      match row.eventTime with
      | none => cur
      | some moment => later cur (some ⟨moment, value⟩) }

/-- The path of a bucket with a sketch; without a field the lookup itself raises. -/
def recordDistinct (row : FactRow) (m : Measure) (bucket : Roles) (sketch : Sketch) : Option Roles :=
  match m.field with
  | none => none
  | some field =>
    (distinctKey w (row.resolveField field)).map fun
      | none => bucket
      | some key => { bucket with
          distinctSketch := some (sketch.add w key)
          countValue := bucket.countValue.map (· + 1) }

/-- The path of the other buckets. -/
def recordNumber (row : FactRow) (m : Measure) (bucket : Roles) : Option Roles :=
  let value := m.field.bind fun field => numericOrNone w (row.resolveField field)
  if m.field.isSome ∧ value = none then some bucket
  else
    match m.minus with
    | none => record row bucket value
    | some minus =>
      match numericOrNone w (row.resolveField minus) with
      | none => some bucket
      | some other =>
        (value.bind fun v => Number.sub decimalContext v other).bind fun difference =>
          record row bucket (some difference)

/-- What one contributing row does to the bucket of one measure. -/
def observe (row : FactRow) (m : Measure) (bucket : Roles) : Option Roles :=
  match bucket.distinctSketch with
  | some sketch => recordDistinct w row m bucket sketch
  | none => recordNumber w row m bucket

/-- The body of the two loops of `fold`. -/
def foldMeasure (d : MetricDefinition) (row : FactRow) (out : Buckets) (m : Measure) :
    Option Buckets :=
  if contributes row d m then
    (out m.name).bind fun bucket =>
      (observe w row m bucket).map fun updated => Function.update out m.name (some updated)
  else some out

/-- `fold`. -/
def foldRows (d : MetricDefinition) (rows : List FactRow) : Option Buckets :=
  rows.foldlM (fun out row => d.measures.foldlM (foldMeasure w d row) out) d.empty

/-! ## §5. `add_roles`. -/

/-- `(x or 0) + (y or 0)`, in a bucket that has the role. -/
def addSums : Option Number → Option Number → Option (Option Number)
  | none, none => some none
  | x, y => (Number.add decimalContext (x.getD Number.zero) (y.getD Number.zero)).map some

/-- The same on the counts. -/
def addCounts : Option ℕ → Option ℕ → Option ℕ
  | none, none => none
  | x, y => some (x.getD 0 + y.getD 0)

/-- `min(…, default=None)` or `max(…, default=None)`, in a bucket that has the role. -/
def addExtremes (takes : Number → Number → Option Bool) :
    Option (Option Number) → Option (Option Number) → Option (Option (Option Number))
  | none, none => some none
  | x, y =>
    match x.join, y.join with
    | none, none => some (some none)
    | some a, none => some (some (some a))
    | none, some b => some (some (some b))
    | some a, some b => (takes b a).map fun t => some (if t then some b else some a)

/-- Band counts, added over the longer of the two. -/
def addBands : Option (List ℕ) → Option (List ℕ) → Option (List ℕ)
  | none, none => none
  | x, y =>
    let xs := x.getD []
    let ys := y.getD []
    some ((List.range (max xs.length ys.length)).map fun i => xs.getD i 0 + ys.getD i 0)

/-- The union, in a bucket that has the role. -/
def addSketches : Option Sketch → Option Sketch → Option Sketch
  | none, none => none
  | x, y => some ((x.getD Sketch.empty).union (y.getD Sketch.empty))

/-- The later reading, in a bucket that has the role. -/
def addLatest : Option (Option Reading) → Option (Option Reading) → Option (Option Reading)
  | none, none => none
  | x, y => some (later x.join y.join)

/-- `add_roles`. -/
def addRoles (a b : Roles) : Option Roles := do
  let sumValue ← addSums a.sumValue b.sumValue
  let sumSq ← addSums a.sumSq b.sumSq
  let minValue ← addExtremes takesMin a.minValue b.minValue
  let maxValue ← addExtremes takesMax a.maxValue b.maxValue
  return {
    sumValue := sumValue
    countValue := addCounts a.countValue b.countValue
    sumSq := sumSq
    minValue := minValue
    maxValue := maxValue
    histogram := addBands a.histogram b.histogram
    distinctSketch := addSketches a.distinctSketch b.distinctSketch
    latest := addLatest a.latest b.latest }

/-! ## §6. What every bucket of a fold satisfies. -/

/-- `_is_empty`. -/
def Roles.isEmpty (b : Roles) : Bool :=
  decide (b.countValue.getD 0 = 0) && b.minValue.join.isNone && b.maxValue.join.isNone &&
    b.latest.join.isNone

/-- The bucket with the same roles and nothing observed. -/
def Roles.zeroed (b : Roles) : Roles where
  sumValue := b.sumValue.map fun _ => Number.zero
  countValue := b.countValue.map fun _ => 0
  sumSq := b.sumSq.map fun _ => Number.zero
  minValue := b.minValue.map fun _ => none
  maxValue := b.maxValue.map fun _ => none
  histogram := b.histogram.map fun _ => emptyBands
  distinctSketch := b.distinctSketch.map fun _ => Sketch.empty
  latest := b.latest.map fun _ => none

/-- A sum is a number of the decimal context. -/
def InContext (x : Number) : Prop := Number.add decimalContext Number.zero x = some x

/-- The invariant of the buckets of a fold. -/
structure Folded (b : Roles) : Prop where
  sum : ∀ x, b.sumValue = some x → InContext x
  sumSq : ∀ x, b.sumSq = some x → InContext x
  /-- only an extent has no count, and it has nothing else -/
  uncounted : b.countValue = none →
    b.sumValue = none ∧ b.sumSq = none ∧ b.histogram = none ∧ b.distinctSketch = none ∧
      b.latest = none
  apart : b.distinctSketch.isSome → b.histogram = none
  zero : b.isEmpty = true → b = b.zeroed
  counted : b.isEmpty = false → ∀ h, b.histogram = some h →
    h.any (fun n => decide (n ≠ 0)) = true

theorem folded_emptyRoles (a : Aggregation) : Folded a.emptyRoles := by
  have hzero : InContext Number.zero := Number.add_zero_zero _
  constructor
  all_goals cases a
  all_goals simp [Aggregation.emptyRoles, Roles.isEmpty, Roles.zeroed, hzero]

/-- A bucket that counted something is not empty. -/
theorem isEmpty_of_counted {b : Roles} {n : ℕ} (h : b.countValue = some (n + 1)) :
    b.isEmpty = false := by
  simp [Roles.isEmpty, h]

/-- A bucket without a count whose extremes are not there yet is the zero bucket. -/
theorem eq_zeroed_of_uncounted {b : Roles} (hc : b.countValue = none)
    (h : b.sumValue = none ∧ b.sumSq = none ∧ b.histogram = none ∧ b.distinctSketch = none ∧
      b.latest = none) (he : b.isEmpty = true) : b = b.zeroed := by
  obtain ⟨hs, hq, hh, hd, hl⟩ := h
  simp only [Roles.isEmpty, hc, hl, Bool.and_eq_true, Option.isNone_iff_eq_none] at he
  have hjoin : ∀ x : Option (Option Number), x.join = none → x = x.map fun _ => none := by
    intro x hx
    cases x with
    | none => rfl
    | some y => simpa using hx
  ext1
  · simp [Roles.zeroed, hs]
  · simp [Roles.zeroed, hc]
  · simp [Roles.zeroed, hq]
  · exact hjoin _ he.1.1.2
  · exact hjoin _ he.1.2
  · simp [Roles.zeroed, hh]
  · simp [Roles.zeroed, hd]
  · simp [Roles.zeroed, hl]

theorem onRole_eq_some {α : Type} {role : Option α} {update : α → Option α} {r : Option α}
    (h : onRole role update = some r) :
    (role = none ∧ r = none) ∨ ∃ x y, role = some x ∧ update x = some y ∧ r = some y := by
  cases role with
  | none => exact Or.inl ⟨rfl, (Option.some.inj h).symm⟩
  | some x =>
    obtain ⟨y, hy, rfl⟩ := Option.map_eq_some_iff.mp h
    exact Or.inr ⟨x, y, rfl, hy, rfl⟩

/-- What a contributed value does, role by role. -/
theorem record_cases {row : FactRow} {b b' : Roles} {value : Option Number}
    (h : record row b value = some b') :
    b'.countValue = b.countValue.map (· + 1) ∧ b'.distinctSketch = b.distinctSketch ∧
      ((b.sumValue = none ∧ b'.sumValue = none) ∨ ∃ x s v, b.sumValue = some s ∧
        Number.add decimalContext s v = some x ∧ b'.sumValue = some x) ∧
      ((b.sumSq = none ∧ b'.sumSq = none) ∨ ∃ x s v, b.sumSq = some s ∧
        Number.add decimalContext s v = some x ∧ b'.sumSq = some x) ∧
      ((b.histogram = none ∧ b'.histogram = none) ∨ ∃ h₀ h₁ v, b.histogram = some h₀ ∧
        addBand h₀ v = some h₁ ∧ b'.histogram = some h₁) ∧
      (b.latest = none → b'.latest = none) := by
  unfold record at h
  simp only [Option.bind_eq_bind, Option.bind_eq_some_iff, Option.pure_def, Option.some.injEq] at h
  obtain ⟨sum, hsum, sumSq, hsq, minValue, -, maxValue, -, hist, hhist, rfl⟩ := h
  refine ⟨rfl, rfl, ?_, ?_, ?_, ?_⟩
  · rcases onRole_eq_some hsum with ⟨hs, rfl⟩ | ⟨s, x, hs, hx, rfl⟩
    · exact Or.inl ⟨hs, rfl⟩
    · obtain ⟨v, -, hv⟩ := Option.bind_eq_some_iff.mp hx
      exact Or.inr ⟨x, s, v, hs, hv, rfl⟩
  · rcases onRole_eq_some hsq with ⟨hs, rfl⟩ | ⟨s, x, hs, hx, rfl⟩
    · exact Or.inl ⟨hs, rfl⟩
    · obtain ⟨v, -, hv⟩ := Option.bind_eq_some_iff.mp hx
      obtain ⟨u, -, hu⟩ := Option.bind_eq_some_iff.mp hv
      exact Or.inr ⟨x, s, u, hs, hu, rfl⟩
  · rcases onRole_eq_some hhist with ⟨hs, rfl⟩ | ⟨h₀, h₁, hs, hx, rfl⟩
    · exact Or.inl ⟨hs, rfl⟩
    · obtain ⟨v, -, hv⟩ := Option.bind_eq_some_iff.mp hx
      exact Or.inr ⟨h₀, h₁, v, hs, hv, rfl⟩
  · intro hl
    simp [hl]

/-- A contributed value keeps the invariant. -/
theorem Folded.record {row : FactRow} {b b' : Roles} {value : Option Number} (hb : Folded b)
    (h : record row b value = some b') : Folded b' := by
  obtain ⟨hcount, hsketch, hsum, hsq, hhist, hlatest⟩ := record_cases h
  have huncounted : b'.countValue = none →
      b'.sumValue = none ∧ b'.sumSq = none ∧ b'.histogram = none ∧ b'.distinctSketch = none ∧
        b'.latest = none := by
    intro hc
    have hc0 : b.countValue = none := by simpa [hcount] using hc
    obtain ⟨hs, hq, hh, hd, hl⟩ := hb.uncounted hc0
    simp only [hs, hq, hh, hd, true_and, reduceCtorEq, false_and, exists_false, or_false]
      at hsum hsq hhist hsketch
    exact ⟨hsum, hsq, hhist, hsketch, hlatest hl⟩
  -- with a count the bucket is not empty any more
  have hpositive : b'.countValue = none ∨ b'.isEmpty = false := by
    cases hc : b.countValue with
    | none => exact Or.inl (by rw [hcount, hc]; rfl)
    | some n => exact Or.inr (isEmpty_of_counted (n := n) (by rw [hcount, hc]; rfl))
  constructor
  · intro x hx
    rcases hsum with ⟨-, hn⟩ | ⟨y, s, v, -, hadd, hy⟩
    · simp [hn] at hx
    · obtain rfl : y = x := Option.some.inj (hy.symm.trans hx)
      exact Number.zero_add_of_add hadd
  · intro x hx
    rcases hsq with ⟨-, hn⟩ | ⟨y, s, v, -, hadd, hy⟩
    · simp [hn] at hx
    · obtain rfl : y = x := Option.some.inj (hy.symm.trans hx)
      exact Number.zero_add_of_add hadd
  · exact huncounted
  · intro hs
    have hnone := hb.apart (by rw [← hsketch]; exact hs)
    rcases hhist with ⟨-, hn⟩ | ⟨h₀, h₁, v, hs', -, -⟩
    · exact hn
    · simp [hnone] at hs'
  · intro he
    rcases hpositive with hc | hp
    · exact eq_zeroed_of_uncounted hc (huncounted hc) he
    · simp [he] at hp
  · intro _ k hk
    rcases hhist with ⟨-, hn⟩ | ⟨h₀, h₁, v, -, hadd, hy⟩
    · simp [hn] at hk
    · obtain rfl : h₁ = k := Option.some.inj (hy.symm.trans hk)
      exact any_addBand hadd

/-- So does a row, whatever the measure reads of it. -/
theorem Folded.observe {row : FactRow} {m : Measure} {b b' : Roles} (hb : Folded b)
    (h : observe w row m b = some b') : Folded b' := by
  unfold Analytics.observe at h
  cases hs : b.distinctSketch with
  | some sketch =>
    rw [hs] at h
    simp only [recordDistinct] at h
    cases hf : m.field with
    | none => simp [hf] at h
    | some field =>
      rw [hf] at h
      obtain ⟨key, -, rfl⟩ := Option.map_eq_some_iff.mp h
      cases key with
      | none => exact hb
      | some key =>
        -- a sketch and a histogram are never in one bucket
        have hhist : b.histogram = none := hb.apart (by rw [hs]; rfl)
        cases hc : b.countValue with
        | none =>
          obtain ⟨-, -, -, hd, -⟩ := hb.uncounted hc
          simp [hs] at hd
        | some n =>
          have hne : Roles.isEmpty { b with
              distinctSketch := some (sketch.add w key)
              countValue := (some n).map (· + 1) } = false := isEmpty_of_counted (n := n) rfl
          constructor
          · exact hb.sum
          · exact hb.sumSq
          · intro h0
            simp at h0
          · intro _
            exact hhist
          · intro he
            rw [hne] at he
            simp at he
          · intro _ k hk
            simp [hhist] at hk
  | none =>
    rw [hs] at h
    -- without a sketch the row brings a number, or a difference of two
    simp only [recordNumber] at h
    split at h
    · obtain rfl := Option.some.inj h
      exact hb
    · cases hm : m.minus with
      | none =>
        rw [hm] at h
        exact hb.record h
      | some minus =>
        rw [hm] at h
        simp only at h
        split at h
        · obtain rfl := Option.some.inj h
          exact hb
        · obtain ⟨d, -, hd⟩ := Option.bind_eq_some_iff.mp h
          exact hb.record hd

/-- The buckets of a fold, all of them. -/
def AllFolded (out : Buckets) : Prop := ∀ name b, out name = some b → Folded b

theorem AllFolded.foldMeasure {d : MetricDefinition} {row : FactRow} {m : Measure}
    {out out' : Buckets} (hall : AllFolded out) (h : foldMeasure w d row out m = some out') :
    AllFolded out' := by
  unfold Analytics.foldMeasure at h
  split at h
  · obtain ⟨bucket, hbucket, hmap⟩ := Option.bind_eq_some_iff.mp h
    obtain ⟨updated, hobs, rfl⟩ := Option.map_eq_some_iff.mp hmap
    intro name b hb
    by_cases hn : name = m.name
    · subst hn
      obtain rfl : updated = b := by simpa using hb
      exact (hall _ _ hbucket).observe w hobs
    · exact hall name b (by simpa [hn] using hb)
  · obtain rfl := Option.some.inj h
    exact hall

/-- Every bucket of every fold satisfies the invariant. -/
theorem folded_of_fold {d : MetricDefinition} {rows : List FactRow} {out : Buckets}
    (h : foldRows w d rows = some out) : AllFolded out := by
  have hempty : AllFolded d.empty := by
    intro name b hb
    obtain ⟨m, -, rfl⟩ := Option.map_eq_some_iff.mp hb
    exact folded_emptyRoles m.aggregation
  refine foldlM_induct ?_ rows hempty h
  intro out row out' hall hrow
  refine foldlM_induct ?_ d.measures hall hrow
  intro out m out' hall hm
  exact hall.foldMeasure w hm

end RagPipeline.Analytics
