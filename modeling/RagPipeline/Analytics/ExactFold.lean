/-
  RagPipeline.Analytics.ExactFold — `fold` over any arithmetic, and with exact rational numbers.

    * `Arithmetic`       — what the fold asks of its numbers; `decimals` is the context of the code, and with it
                           the fold is `foldRows` (`foldOf_decimals`);
    * `foldOf`           — the fold of the code, over an arithmetic;
    * `rationals`        — exact arithmetic: no rounding, no special values;
    * `exactFold_append` — exactly folded, a batch of facts after another is the merge of the two.
-/
import RagPipeline.Analytics.Tally
import RagPipeline.Lib.Accumulate

namespace RagPipeline.Analytics

open RagPipeline.Stage2 RagPipeline.Lib

/-! ## §1. The fold over an arithmetic. -/

/-- Numbers, their operations and their bands; `none` is an exception. -/
structure Arithmetic (V : Type) where
  ofNumber : Number → Option V
  zero : V
  add : V → V → Option V
  sub : V → V → Option V
  mul : V → V → Option V
  lt : V → V → Option Bool
  band : V → Option ℕ

/-- The decimal context of the code. -/
def decimals : Arithmetic Number where
  ofNumber := some
  zero := .zero
  add := Number.add decimalContext
  sub := Number.sub decimalContext
  mul := Number.mul decimalContext
  lt := Number.lt
  band := bandOf

/-- Exact arithmetic: a NaN or an infinity is no number of it. -/
def rationals : Arithmetic ℚ where
  ofNumber
    | .finite q => some q
    | _ => none
  zero := 0
  add p q := some (p + q)
  sub p q := some (p - q)
  mul p q := some (p * q)
  lt p q := some (decide (p < q))
  band q := bandOf (.finite q)

/-- A `latest` reading. -/
structure ReadingOf (V : Type) where
  at_ : Instant
  value : Option V

/-- A role bucket. -/
@[ext]
structure RolesOf (V : Type) where
  sumValue : Option V := none
  countValue : Option ℕ := none
  sumSq : Option V := none
  minValue : Option (Option V) := none
  maxValue : Option (Option V) := none
  histogram : Option (List ℕ) := none
  distinctSketch : Option Sketch := none
  latest : Option (Option (ReadingOf V)) := none

/-- The buckets of a fold, by measure name. -/
abbrev BucketsOf (V : Type) := String → Option (RolesOf V)

section Generic

variable {V : Type} (A : Arithmetic V) (w : PythonTexts)

/-- `_empty_roles`. -/
def Arithmetic.emptyRoles : Aggregation → RolesOf V
  | .sum => { sumValue := some A.zero, countValue := some 0 }
  | .count => { countValue := some 0 }
  | .average => { sumValue := some A.zero, countValue := some 0 }
  | .stats => { sumValue := some A.zero, countValue := some 0, sumSq := some A.zero }
  | .extent => { minValue := some none, maxValue := some none }
  | .percentile => { histogram := some emptyBands, countValue := some 0 }
  | .distinct => { distinctSketch := some Sketch.empty, countValue := some 0 }
  | .latest => { latest := some none, countValue := some 0 }

/-- `empty`. -/
def Arithmetic.empty (d : MetricDefinition) : BucketsOf V := fun name =>
  ((d.measures.filter fun m => m.name = name).getLast?).map fun m => A.emptyRoles m.aggregation

/-- `_later`. -/
def laterOf : Option (ReadingOf V) → Option (ReadingOf V) → Option (ReadingOf V)
  | none, y => y
  | some x, none => some x
  | some x, some y => if x.at_ < y.at_ then some y else some x

/-- `min(cur, value)` or `max(cur, value)`. -/
def extremeOf (takes : V → V → Option Bool) (cur value : Option V) : Option (Option V) :=
  match cur with
  | none => some value
  | some c => value.bind fun v => (takes v c).map fun t => if t then some v else some c

/-- One value more in its band. -/
def countBand (histogram : List ℕ) (band : ℕ) : List ℕ :=
  let counts := if histogram = [] then emptyBands else histogram
  (counts ++ List.replicate (bands - counts.length) 0).modify band (· + 1)

/-- One contributed value, into every role of the bucket. -/
def Arithmetic.record (row : FactRow) (bucket : RolesOf V) (value : Option V) : Option (RolesOf V) := do
  let sumValue ← onRole bucket.sumValue fun s => value.bind (A.add s)
  let sumSq ← onRole bucket.sumSq fun s => value.bind fun v => (A.mul v v).bind (A.add s)
  let minValue ← onRole bucket.minValue fun cur => extremeOf A.lt cur value
  let maxValue ← onRole bucket.maxValue fun cur => extremeOf (fun v c => A.lt c v) cur value
  let histogram ← onRole bucket.histogram fun h => value.bind fun v => (A.band v).map (countBand h)
  return { bucket with
    countValue := bucket.countValue.map (· + 1)
    sumValue := sumValue
    sumSq := sumSq
    minValue := minValue
    maxValue := maxValue
    histogram := histogram
    latest := bucket.latest.map fun cur =>
      match row.eventTime with
      | none => cur
      | some moment => laterOf cur (some ⟨moment, value⟩) }

/-- The path of a bucket with a sketch. -/
def recordDistinctOf (row : FactRow) (m : Measure) (bucket : RolesOf V) (sketch : Sketch) : Option (RolesOf V) :=
  match m.field with
  | none => none
  | some field =>
    (distinctKey w (row.resolveField field)).map fun
      | none => bucket
      | some key => { bucket with
          distinctSketch := some (sketch.add w key)
          countValue := bucket.countValue.map (· + 1) }

/-- `numeric_or_none`, as a number of the arithmetic: the outer `none` is a number that is none of its. -/
def Arithmetic.read (raw : Raw) : Option (Option V) :=
  match numericOrNone w raw with
  | none => some none
  | some number => (A.ofNumber number).map some

/-- The value of a measure's field; without a field there is none. -/
def Arithmetic.readField (row : FactRow) : Option FieldName → Option (Option V)
  | none => some none
  | some field => A.read w (row.resolveField field)

/-- The path of the other buckets. -/
def Arithmetic.recordNumber (row : FactRow) (m : Measure) (bucket : RolesOf V) : Option (RolesOf V) :=
  (A.readField w row m.field).bind fun value =>
    if m.field.isSome ∧ value.isNone then some bucket
    else
      match m.minus with
      | none => A.record row bucket value
      | some minus =>
        (A.read w (row.resolveField minus)).bind fun
          | none => some bucket
          | some other =>
            (value.bind fun v => A.sub v other).bind fun difference => A.record row bucket (some difference)

/-- What one contributing row does to the bucket of one measure. -/
def Arithmetic.observe (row : FactRow) (m : Measure) (bucket : RolesOf V) : Option (RolesOf V) :=
  match bucket.distinctSketch with
  | some sketch => recordDistinctOf w row m bucket sketch
  | none => A.recordNumber w row m bucket

/-- The body of the two loops of `fold`. -/
def Arithmetic.foldMeasure (d : MetricDefinition) (row : FactRow) (out : BucketsOf V) (m : Measure) :
    Option (BucketsOf V) :=
  if contributes row d m then
    (out m.name).bind fun bucket =>
      (A.observe w row m bucket).map fun updated => Function.update out m.name (some updated)
  else some out

/-- `fold`. -/
def Arithmetic.fold (d : MetricDefinition) (rows : List FactRow) : Option (BucketsOf V) :=
  rows.foldlM (fun out row => d.measures.foldlM (A.foldMeasure w d row) out) (A.empty d)

/-- `(x or 0) + (y or 0)`, in a bucket that has the role. -/
def Arithmetic.addSums : Option V → Option V → Option (Option V)
  | none, none => some none
  | x, y => (A.add (x.getD A.zero) (y.getD A.zero)).map some

/-- `min(…, default=None)` or `max(…, default=None)`, in a bucket that has the role. -/
def addExtremesOf (takes : V → V → Option Bool) :
    Option (Option V) → Option (Option V) → Option (Option (Option V))
  | none, none => some none
  | x, y =>
    match x.join, y.join with
    | none, none => some (some none)
    | some a, none => some (some (some a))
    | none, some b => some (some (some b))
    | some a, some b => (takes b a).map fun t => some (if t then some b else some a)

/-- The later reading, in a bucket that has the role. -/
def addLatestOf : Option (Option (ReadingOf V)) → Option (Option (ReadingOf V)) → Option (Option (ReadingOf V))
  | none, none => none
  | x, y => some (laterOf x.join y.join)

/-- `add_roles`. -/
def Arithmetic.addRoles (a b : RolesOf V) : Option (RolesOf V) := do
  let sumValue ← A.addSums a.sumValue b.sumValue
  let sumSq ← A.addSums a.sumSq b.sumSq
  let minValue ← addExtremesOf A.lt a.minValue b.minValue
  let maxValue ← addExtremesOf (fun v c => A.lt c v) a.maxValue b.maxValue
  return {
    sumValue := sumValue
    countValue := addCounts a.countValue b.countValue
    sumSq := sumSq
    minValue := minValue
    maxValue := maxValue
    histogram := addBands a.histogram b.histogram
    distinctSketch := addSketches a.distinctSketch b.distinctSketch
    latest := addLatestOf a.latest b.latest }

/-- `add`, at one measure name: a name of neither side is in neither. -/
def Arithmetic.addAt (a b : Option (RolesOf V)) : Option (Option (RolesOf V)) :=
  match a, b with
  | none, none => some none
  | x, y => (A.addRoles (x.getD {}) (y.getD {})).map some

end Generic

/-! ## §2. The arithmetic of the code. -/

section Decimals

variable (w : PythonTexts)

/-- A reading of the code's model. -/
def ReadingOf.plain (r : ReadingOf Number) : Reading := ⟨r.at_, r.value⟩

/-- A bucket of the code's model. -/
def RolesOf.plain (b : RolesOf Number) : Roles where
  sumValue := b.sumValue
  countValue := b.countValue
  sumSq := b.sumSq
  minValue := b.minValue
  maxValue := b.maxValue
  histogram := b.histogram
  distinctSketch := b.distinctSketch
  latest := b.latest.map (Option.map ReadingOf.plain)

theorem plain_laterOf (x y : Option (ReadingOf Number)) :
    (laterOf x y).map ReadingOf.plain = later (x.map ReadingOf.plain) (y.map ReadingOf.plain) := by
  cases x with
  | none => rfl
  | some x =>
    cases y with
    | none => rfl
    | some y =>
      show Option.map ReadingOf.plain (if x.at_ < y.at_ then some y else some x) =
        if x.at_ < y.at_ then some y.plain else some x.plain
      split <;> rfl

theorem plain_record (row : FactRow) (b : RolesOf Number) (value : Option Number) :
    (decimals.record row b value).map RolesOf.plain = record row b.plain value := by
  have hextreme : ∀ takes cur, extremeOf takes cur value = extreme takes cur value := by
    intro takes cur
    cases cur <;> rfl
  have hband : ∀ h v, (bandOf v).map (countBand h) = addBand h v := fun _ _ => rfl
  have hlatest : (b.latest.map fun cur => match row.eventTime with
      | none => cur
      | some moment => laterOf cur (some ⟨moment, value⟩)).map (Option.map ReadingOf.plain) =
      (b.latest.map (Option.map ReadingOf.plain)).map fun cur => match row.eventTime with
        | none => cur
        | some moment => later cur (some ⟨moment, value⟩) := by
    rw [Option.map_map, Option.map_map]
    congr 1
    funext cur
    cases row.eventTime with
    | none => rfl
    | some moment => exact plain_laterOf cur (some ⟨moment, value⟩)
  unfold Arithmetic.record record
  simp only [decimals, Option.bind_eq_bind, Option.pure_def, Option.map_bind, Function.comp_def, hextreme,
    hband, Option.map_some, RolesOf.plain, hlatest]
  rfl

theorem plain_emptyRoles (a : Aggregation) : (decimals.emptyRoles a).plain = a.emptyRoles := by
  cases a <;> rfl

theorem plain_observe (row : FactRow) (m : Measure) (b : RolesOf Number) :
    (decimals.observe w row m b).map RolesOf.plain = observe w row m b.plain := by
  unfold Arithmetic.observe observe
  show Option.map RolesOf.plain (match b.distinctSketch with | some sketch => _ | none => _) =
    match b.distinctSketch with | some sketch => _ | none => _
  cases b.distinctSketch with
  | some sketch =>
    show Option.map RolesOf.plain (recordDistinctOf w row m b sketch) = recordDistinct w row m b.plain sketch
    unfold recordDistinctOf recordDistinct
    cases m.field with
    | none => rfl
    | some field =>
      show Option.map RolesOf.plain (Option.map _ _) = _
      rw [Option.map_map]
      congr 1
      funext key
      cases key <;> rfl
  | none =>
    -- a decimal read never raises
    have hread : ∀ raw, decimals.read w raw = some (numericOrNone w raw) := by
      intro raw
      unfold Arithmetic.read
      cases numericOrNone w raw <;> rfl
    show Option.map RolesOf.plain (decimals.recordNumber w row m b) = recordNumber w row m b.plain
    unfold Arithmetic.recordNumber recordNumber
    have hvalue : decimals.readField w row m.field =
        some (m.field.bind fun field => numericOrNone w (row.resolveField field)) := by
      cases m.field with
      | none => rfl
      | some field => exact hread _
    generalize m.field.bind (fun field => numericOrNone w (row.resolveField field)) = value at hvalue
    rw [hvalue, Option.bind_some]
    simp only [Option.isNone_iff_eq_none]
    split
    · rfl
    · cases m.minus with
      | none => exact plain_record row b value
      | some minus =>
        show Option.map RolesOf.plain ((decimals.read w (row.resolveField minus)).bind _) = _
        rw [hread, Option.bind_some]
        dsimp only
        cases numericOrNone w (row.resolveField minus) with
        | none => rfl
        | some other =>
          show Option.map RolesOf.plain (Option.bind _ _) = Option.bind _ _
          rw [Option.map_bind]
          congr 1
          funext difference
          exact plain_record row b (some difference)

/-- The buckets of the code's model. -/
def plainBuckets (out : BucketsOf Number) : Buckets := fun name => (out name).map RolesOf.plain

theorem plain_foldMeasure (d : MetricDefinition) (row : FactRow) (out : BucketsOf Number) (m : Measure) :
    (decimals.foldMeasure w d row out m).map plainBuckets = foldMeasure w d row (plainBuckets out) m := by
  unfold Arithmetic.foldMeasure foldMeasure
  split
  · show Option.map plainBuckets ((out m.name).bind _) = ((out m.name).map RolesOf.plain).bind _
    cases out m.name with
    | none => rfl
    | some bucket =>
      show Option.map plainBuckets ((decimals.observe w row m bucket).map _) =
        (observe w row m bucket.plain).map _
      rw [← plain_observe, Option.map_map, Option.map_map]
      congr 1
      funext updated name
      show (Function.update out m.name (some updated) name).map RolesOf.plain =
        Function.update (plainBuckets out) m.name (some updated.plain) name
      by_cases hname : name = m.name
      · subst hname
        simp
      · simp [hname, plainBuckets]
  · rfl

/-- **With the code's decimals the fold is the code's.** -/
theorem fold_decimals (d : MetricDefinition) (rows : List FactRow) :
    (decimals.fold w d rows).map plainBuckets = foldRows w d rows := by
  have hempty : plainBuckets (decimals.empty d) = d.empty := by
    funext name
    show ((((d.measures.filter fun m => m.name = name).getLast?).map fun m =>
      decimals.emptyRoles m.aggregation).map RolesOf.plain) = _
    rw [Option.map_map]
    show Option.map _ _ = Option.map _ _
    congr 1
    funext m
    exact plain_emptyRoles m.aggregation
  unfold Arithmetic.fold foldRows
  rw [← hempty]
  refine foldlM_correspond plainBuckets ?_ rows _
  intro out row
  exact foldlM_correspond plainBuckets (plain_foldMeasure w d row) d.measures out

/-- **So is the merge.** -/
theorem addRoles_decimals (a b : RolesOf Number) :
    (decimals.addRoles a b).map RolesOf.plain = addRoles a.plain b.plain := by
  have hsums : ∀ x y, decimals.addSums x y = addSums x y := by
    intro x y
    cases x <;> cases y <;> rfl
  have hextremes : ∀ takes x y, addExtremesOf takes x y = addExtremes takes x y := by
    intro takes x y
    rcases x with _ | _ | x <;> rcases y with _ | _ | y <;> rfl
  have hlatest : ∀ x y : Option (Option (ReadingOf Number)),
      (addLatestOf x y).map (Option.map ReadingOf.plain) =
        addLatest (x.map (Option.map ReadingOf.plain)) (y.map (Option.map ReadingOf.plain)) := by
    intro x y
    cases x with
    | none =>
      cases y with
      | none => rfl
      | some y => rfl
    | some x =>
      cases y with
      | none => exact congrArg some (plain_laterOf x none)
      | some y => exact congrArg some (plain_laterOf x y)
  unfold Arithmetic.addRoles addRoles
  simp only [hsums, hextremes]
  simp only [decimals, Option.bind_eq_bind, Option.pure_def, Option.map_bind, Function.comp_def,
    Option.map_some, RolesOf.plain, hlatest]
  rfl

end Decimals

/-! ## §3. The merge, exactly. -/

/-- Band counts, added over the longer of the two. -/
def plusBands (xs ys : List ℕ) : List ℕ :=
  (List.range (max xs.length ys.length)).map fun i => xs.getD i 0 + ys.getD i 0

/-- `_later` of two readings. -/
def laterReading {V : Type} (x y : ReadingOf V) : ReadingOf V := if x.at_ < y.at_ then y else x

/-- `add_roles` with exact numbers: role by role, and a role that one side lacks is the other's. -/
def mergeRoles (a b : RolesOf ℚ) : RolesOf ℚ where
  sumValue := a.sumValue.merge (· + ·) b.sumValue
  countValue := a.countValue.merge (· + ·) b.countValue
  sumSq := a.sumSq.merge (· + ·) b.sumSq
  minValue := a.minValue.merge (Option.merge min) b.minValue
  maxValue := a.maxValue.merge (Option.merge max) b.maxValue
  histogram := a.histogram.merge plusBands b.histogram
  distinctSketch := a.distinctSketch.merge Sketch.union b.distinctSketch
  latest := a.latest.merge (Option.merge laterReading) b.latest

/-- `add` with exact numbers. -/
def mergeBuckets (a b : BucketsOf ℚ) : BucketsOf ℚ := fun name => (a name).merge mergeRoles (b name)

theorem optionMerge_assoc {α : Type} (f : α → α → α) [Std.Associative f] (x y z : Option α) :
    Option.merge f (Option.merge f x y) z = Option.merge f x (Option.merge f y z) :=
  Std.Associative.assoc x y z

theorem getD_plusBands (xs ys : List ℕ) (i : ℕ) : (plusBands xs ys).getD i 0 = xs.getD i 0 + ys.getD i 0 := by
  unfold plusBands
  by_cases hi : i < max xs.length ys.length
  · simp [List.getD_eq_getElem?_getD, hi]
  · have hx : xs.length ≤ i := by omega
    have hy : ys.length ≤ i := by omega
    simp [List.getD_eq_getElem?_getD, hx, hy]

/-- Two lists of counts of one length with the same counts. -/
theorem counts_ext {xs ys : List ℕ} (hlen : xs.length = ys.length) (h : ∀ i, xs.getD i 0 = ys.getD i 0) :
    xs = ys := by
  refine List.ext_getElem hlen ?_
  intro i hx hy
  have hi := h i
  rwa [List.getD_eq_getElem _ _ hx, List.getD_eq_getElem _ _ hy] at hi

@[simp] theorem length_plusBands (xs ys : List ℕ) : (plusBands xs ys).length = max xs.length ys.length := by
  simp [plusBands]

instance : Std.Associative plusBands where
  assoc xs ys zs := by
    refine counts_ext (by simp only [length_plusBands]; omega) ?_
    intro i
    simp only [getD_plusBands]
    omega

instance : Std.Associative Sketch.union where
  assoc a b c := by
    simp only [Sketch.union_eq]
    funext i
    exact max_assoc _ _ _

/-- The later of three readings: of two at one instant the left one. -/
instance {V : Type} : Std.Associative (@laterReading V) where
  assoc x y z := by
    have htrans : x.at_ < y.at_ → y.at_ < z.at_ → x.at_ < z.at_ := fun h h' => lt_trans h h'
    have hback : ¬x.at_ < y.at_ → x.at_ < z.at_ → y.at_ < z.at_ := fun h h' => lt_of_le_of_lt (not_lt.mp h) h'
    unfold laterReading
    by_cases hxy : x.at_ < y.at_
    · by_cases hyz : y.at_ < z.at_
      · simp [hxy, hyz, htrans hxy hyz]
      · simp [hxy, hyz]
    · by_cases hxz : x.at_ < z.at_
      · simp [hxy, hxz, hback hxy hxz]
      · by_cases hyz : y.at_ < z.at_
        · simp [hxy, hxz, hyz]
        · simp [hxy, hxz, hyz]

/-- **The merge is associative.** -/
instance : Std.Associative mergeRoles where
  assoc a b c := by
    ext1
    · exact optionMerge_assoc _ _ _ _
    · exact optionMerge_assoc _ _ _ _
    · exact optionMerge_assoc _ _ _ _
    · exact optionMerge_assoc _ _ _ _
    · exact optionMerge_assoc _ _ _ _
    · exact optionMerge_assoc _ _ _ _
    · exact optionMerge_assoc _ _ _ _
    · exact optionMerge_assoc _ _ _ _

theorem mergeBuckets_assoc (a b c : BucketsOf ℚ) :
    mergeBuckets (mergeBuckets a b) c = mergeBuckets a (mergeBuckets b c) := by
  funext name
  exact optionMerge_assoc _ _ _ _

/-- A bucket without roles is neutral. -/
theorem mergeRoles_nothing (a : RolesOf ℚ) : mergeRoles a {} = a ∧ mergeRoles {} a = a := by
  constructor
  · ext1
    all_goals exact Option.merge_none_right
  · ext1
    all_goals exact Option.merge_none_left

theorem laterOf_eq {V : Type} (x y : Option (ReadingOf V)) : laterOf x y = Option.merge laterReading x y := by
  cases x with
  | none => simp [laterOf]
  | some x =>
    cases y with
    | none => rfl
    | some y =>
      show (if x.at_ < y.at_ then some y else some x) = some (if x.at_ < y.at_ then y else x)
      split <;> rfl

theorem takes_min (v c : ℚ) :
    (rationals.lt v c).map (fun t => if t then some v else some c) = some (some (min c v)) := by
  show some (if decide (v < c) = true then some v else some c) = _
  by_cases h : v < c
  · simp [h, min_eq_right h.le]
  · simp [h, min_eq_left (not_lt.mp h)]

theorem takes_max (v c : ℚ) :
    (rationals.lt c v).map (fun t => if t then some v else some c) = some (some (max c v)) := by
  show some (if decide (c < v) = true then some v else some c) = _
  by_cases h : c < v
  · simp [h, max_eq_right h.le]
  · simp [h, max_eq_left (not_lt.mp h)]

theorem addSums_rationals (x y : Option ℚ) : rationals.addSums x y = some (x.merge (· + ·) y) := by
  cases x <;> cases y <;> simp [Arithmetic.addSums, rationals]

theorem addCounts_merge (x y : Option ℕ) : addCounts x y = x.merge (· + ·) y := by
  cases x <;> cases y <;> simp [addCounts]

/-- Both extremes of two buckets, by the operation that keeps them. -/
theorem addExtremesOf_merge {takes : ℚ → ℚ → Option Bool} {op : ℚ → ℚ → ℚ}
    (hop : ∀ v c, (takes v c).map (fun t => if t then some v else some c) = some (some (op c v)))
    (x y : Option (Option ℚ)) : addExtremesOf takes x y = some (x.merge (Option.merge op) y) := by
  rcases x with _ | _ | x <;> rcases y with _ | _ | y <;> try rfl
  -- both have one
  have hboth := congrArg (Option.map some) (hop y x)
  rw [Option.map_map] at hboth
  exact hboth

theorem addBands_merge (x y : Option (List ℕ)) : addBands x y = x.merge plusBands y := by
  cases x with
  | none =>
    cases y with
    | none => rfl
    | some y =>
      show some (plusBands [] y) = some y
      exact congrArg some (counts_ext (by simp) fun i => by rw [getD_plusBands]; simp)
  | some x =>
    cases y with
    | none =>
      show some (plusBands x []) = some x
      exact congrArg some (counts_ext (by simp) fun i => by rw [getD_plusBands]; simp)
    | some y => rfl

theorem addSketches_merge (x y : Option Sketch) : addSketches x y = x.merge Sketch.union y := by
  cases x with
  | none =>
    cases y with
    | none => rfl
    | some y => simp [addSketches, Sketch.union]
  | some x =>
    cases y with
    | none =>
      simp only [addSketches, Option.getD_some, Option.getD_none, Option.merge_none_right, Sketch.union_eq]
      congr 1
      funext i
      simp [Sketch.empty]
    | some y => rfl

theorem addLatestOf_merge (x y : Option (Option (ReadingOf ℚ))) :
    addLatestOf x y = x.merge (Option.merge laterReading) y := by
  cases x with
  | none =>
    cases y with
    | none => rfl
    | some y => exact congrArg some ((laterOf_eq none y).trans Option.merge_none_left)
  | some x =>
    cases y with
    | none => exact congrArg some ((laterOf_eq x none).trans Option.merge_none_right)
    | some y => exact congrArg some (laterOf_eq x y)

/-- **`add_roles` does not raise with exact numbers.** -/
theorem addRoles_rationals (a b : RolesOf ℚ) : rationals.addRoles a b = some (mergeRoles a b) := by
  unfold Arithmetic.addRoles
  simp only [addSums_rationals, addExtremesOf_merge takes_min, addExtremesOf_merge takes_max, addCounts_merge,
    addBands_merge, addSketches_merge, addLatestOf_merge, Option.bind_eq_bind, Option.bind_some, Option.pure_def]
  rfl

/-- `add` at one name. -/
theorem addAt_rationals (a b : BucketsOf ℚ) (name : String) :
    rationals.addAt (a name) (b name) = some (mergeBuckets a b name) := by
  unfold Arithmetic.addAt mergeBuckets
  cases a name with
  | none =>
    cases b name with
    | none => rfl
    | some y =>
      show (rationals.addRoles {} y).map some = some (some y)
      rw [addRoles_rationals, (mergeRoles_nothing y).2]
      rfl
  | some x =>
    cases b name with
    | none =>
      show (rationals.addRoles x {}).map some = some (some x)
      rw [addRoles_rationals, (mergeRoles_nothing x).1]
      rfl
    | some y =>
      show (rationals.addRoles x y).map some = some (some (mergeRoles x y))
      rw [addRoles_rationals]
      rfl

/-! ## §4. One measure. -/

/-- A role of the empty bucket and the same role of a bucket that grew from it. -/
def Pairs {α : Type} (zero : α) (P : α → Prop) (e b : Option α) : Prop :=
  (e = none ∧ b = none) ∨ (e = some zero ∧ ∃ x, b = some x ∧ P x)

section Pairs

variable {α : Type} {zero : α} {P : α → Prop} {e b : Option α}

/-- What is neutral on the right of a value is on the right of a role. -/
theorem Pairs.neutral (h : Pairs zero P e b) {f : α → α → α} (hf : ∀ x, P x → f x zero = x) :
    Option.merge f b e = b := by
  rcases h with ⟨rfl, rfl⟩ | ⟨rfl, x, rfl, hx⟩
  · rfl
  · exact congrArg some (hf x hx)

theorem Pairs.neutral_left (h : Pairs zero P e b) {f : α → α → α} (hf : ∀ x, P x → f zero x = x) :
    Option.merge f e b = b := by
  rcases h with ⟨rfl, rfl⟩ | ⟨rfl, x, rfl, hx⟩
  · rfl
  · exact congrArg some (hf x hx)

/-- An update that may raise. -/
theorem Pairs.onRole (h : Pairs zero P e b) {f : α → α → α} {update : α → Option α}
    (hupdate : ∀ x, P x → update x = (update zero).map (f x)) :
    onRole b update = (onRole e update).map (Option.merge f b) := by
  rcases h with ⟨rfl, rfl⟩ | ⟨rfl, x, rfl, hx⟩
  · rfl
  · show (update x).map some = ((update zero).map some).map (Option.merge f (some x))
    rw [hupdate x hx, Option.map_map, Option.map_map]
    rfl

/-- An update that does not. -/
theorem Pairs.map (h : Pairs zero P e b) {f : α → α → α} {update : α → α}
    (hupdate : ∀ x, P x → update x = f x (update zero)) :
    b.map update = Option.merge f b (e.map update) := by
  rcases h with ⟨rfl, rfl⟩ | ⟨rfl, x, rfl, hx⟩
  · rfl
  · exact congrArg some (hupdate x hx)

theorem Pairs.onRole_kept (h : Pairs zero P e b) {update : α → Option α} {r : Option α}
    (hr : Analytics.onRole b update = some r) (hkeep : ∀ x y, P x → update x = some y → P y) :
    Pairs zero P e r := by
  rcases h with ⟨rfl, rfl⟩ | ⟨rfl, x, rfl, hx⟩
  · exact Or.inl ⟨rfl, (Option.some.inj hr).symm⟩
  · obtain ⟨y, hy, rfl⟩ := Option.map_eq_some_iff.mp hr
    exact Or.inr ⟨rfl, y, rfl, hkeep x y hx hy⟩

theorem Pairs.map_kept (h : Pairs zero P e b) {update : α → α} (hkeep : ∀ x, P x → P (update x)) :
    Pairs zero P e (b.map update) := by
  rcases h with ⟨rfl, rfl⟩ | ⟨rfl, x, rfl, hx⟩
  · exact Or.inl ⟨rfl, rfl⟩
  · exact Or.inr ⟨rfl, _, rfl, hkeep x hx⟩

end Pairs

/-- A bucket that grew from an empty one; without a field nothing has an extreme. -/
structure Grown (fieldless : Prop) (e b : RolesOf ℚ) : Prop where
  sumValue : Pairs 0 (fun _ => True) e.sumValue b.sumValue
  countValue : Pairs 0 (fun _ => True) e.countValue b.countValue
  sumSq : Pairs 0 (fun _ => True) e.sumSq b.sumSq
  minValue : Pairs none (fun x => fieldless → x = none) e.minValue b.minValue
  maxValue : Pairs none (fun x => fieldless → x = none) e.maxValue b.maxValue
  histogram : Pairs emptyBands (fun h => bands ≤ h.length) e.histogram b.histogram
  distinctSketch : Pairs Sketch.empty (fun _ => True) e.distinctSketch b.distinctSketch
  latest : Pairs none (fun _ => True) e.latest b.latest

theorem grown_emptyRoles (fieldless : Prop) (a : Aggregation) :
    Grown fieldless (rationals.emptyRoles a) (rationals.emptyRoles a) := by
  have hlen : bands ≤ emptyBands.length := by simp [emptyBands]
  constructor
  all_goals cases a
  all_goals simp [Pairs, Arithmetic.emptyRoles, rationals, hlen]

/-- **The empty bucket is neutral** for what grew from it. -/
theorem Grown.neutral {fieldless : Prop} {e b : RolesOf ℚ} (h : Grown fieldless e b) : mergeRoles b e = b := by
  ext1
  · exact h.sumValue.neutral fun x _ => add_zero x
  · exact h.countValue.neutral fun x _ => Nat.add_zero x
  · exact h.sumSq.neutral fun x _ => add_zero x
  · exact h.minValue.neutral fun x _ => Option.merge_none_right
  · exact h.maxValue.neutral fun x _ => Option.merge_none_right
  · refine h.histogram.neutral fun x hx => counts_ext ?_ fun i => ?_
    · simpa [emptyBands] using hx
    · rw [getD_plusBands]
      by_cases hi : i < bands
      · simp [emptyBands, List.getD_eq_getElem?_getD, hi]
      · simp [emptyBands, List.getD_eq_getElem?_getD, hi]
  · refine h.distinctSketch.neutral fun x _ => ?_
    rw [Sketch.union_eq]
    funext i
    simp [Sketch.empty]
  · exact h.latest.neutral fun x _ => Option.merge_none_right

/-- On the other side too. -/
theorem Grown.neutral_left {fieldless : Prop} {e b : RolesOf ℚ} (h : Grown fieldless e b) : mergeRoles e b = b := by
  ext1
  · exact h.sumValue.neutral_left fun x _ => zero_add x
  · exact h.countValue.neutral_left fun x _ => Nat.zero_add x
  · exact h.sumSq.neutral_left fun x _ => zero_add x
  · exact h.minValue.neutral_left fun x _ => Option.merge_none_left
  · exact h.maxValue.neutral_left fun x _ => Option.merge_none_left
  · refine h.histogram.neutral_left fun x hx => counts_ext ?_ fun i => ?_
    · simpa [emptyBands] using hx
    · rw [getD_plusBands]
      by_cases hi : i < bands
      · simp [emptyBands, List.getD_eq_getElem?_getD, hi]
      · simp [emptyBands, List.getD_eq_getElem?_getD, hi]
  · refine h.distinctSketch.neutral_left fun x _ => ?_
    rw [Sketch.union_eq]
    funext i
    simp [Sketch.empty]
  · exact h.latest.neutral_left fun x _ => Option.merge_none_left

theorem getD_countBand {h : List ℕ} (hlen : bands ≤ h.length) (band i : ℕ) (hband : band < bands) :
    (countBand h band).getD i 0 = h.getD i 0 + if i = band then 1 else 0 := by
  have hne : h ≠ [] := by
    intro hnil
    rw [hnil] at hlen
    simp [bands] at hlen
  have hpad : bands - h.length = 0 := by omega
  unfold countBand
  simp only [if_neg hne, hpad, List.replicate_zero, List.append_nil]
  by_cases hi : i < h.length
  · rw [List.getD_eq_getElem _ _ (by simpa using hi), List.getD_eq_getElem _ _ hi, List.getElem_modify]
    split
    · next heq => simp [heq]
    · next hne' => simp [Ne.symm hne']
  · have hib : i ≠ band := by omega
    simp [List.getD_eq_getElem?_getD, hi, hib]

theorem length_countBand {h : List ℕ} (hlen : bands ≤ h.length) (band : ℕ) :
    (countBand h band).length = h.length := by
  have hne : h ≠ [] := by
    intro hnil
    rw [hnil] at hlen
    simp [bands] at hlen
  have hpad : bands - h.length = 0 := by omega
  simp [countBand, hne, hpad]

/-- Counting into a histogram is adding a histogram of one. -/
theorem countBand_eq {h : List ℕ} (hlen : bands ≤ h.length) {band : ℕ} (hband : band < bands) :
    countBand h band = plusBands h (countBand emptyBands band) := by
  have hempty : bands ≤ emptyBands.length := by simp [emptyBands]
  refine counts_ext ?_ ?_
  · rw [length_countBand hlen, length_plusBands, length_countBand hempty]
    simpa [emptyBands] using hlen
  · intro i
    rw [getD_countBand hlen band i hband, getD_plusBands, getD_countBand hempty band i hband]
    have hzero : emptyBands.getD i 0 = 0 := by
      by_cases hi : i < bands
      · simp [emptyBands, List.getD_eq_getElem?_getD, hi]
      · simp [emptyBands, List.getD_eq_getElem?_getD, hi]
    rw [hzero, Nat.zero_add]

section Extremes

variable {takes : ℚ → ℚ → Option Bool} {op : ℚ → ℚ → ℚ}

/-- Both extremes, by the operation that keeps them. -/
theorem extremeOf_eq (hop : ∀ v c, (takes v c).map (fun t => if t then some v else some c) = some (some (op c v)))
    {x value : Option ℚ} (h : value = none → x = none) :
    extremeOf takes x value = (extremeOf takes none value).map (Option.merge op x) := by
  cases x with
  | none => simp [extremeOf]
  | some c =>
    cases value with
    | none => exact absurd (h rfl) (by simp)
    | some v => exact hop v c

theorem extremeOf_none {x y : Option ℚ} (hx : x = none) (h : extremeOf takes x none = some y) : y = none := by
  subst hx
  exact (Option.some.inj h).symm

end Extremes

/-- What a value leaves of a bucket has the same roles, and the same kind of extremes. -/
theorem Grown.record {fieldless : Prop} {e b b' : RolesOf ℚ} (hb : Grown fieldless e b) {row : FactRow}
    {value : Option ℚ} (hmin : e.minValue.isSome = true → (value = none ↔ fieldless))
    (hmax : e.maxValue.isSome = true → (value = none ↔ fieldless)) (hrecord : rationals.record row b value = some b') :
    Grown fieldless e b' := by
  unfold Arithmetic.record at hrecord
  simp only [Option.bind_eq_bind, Option.bind_eq_some_iff, Option.pure_def, Option.some.injEq] at hrecord
  obtain ⟨sum, hs, sumSq, hq, low, hl, high, hh, histogram, hhi, rfl⟩ := hrecord
  constructor
  · exact hb.sumValue.onRole_kept hs fun _ _ _ _ => trivial
  · exact hb.countValue.map_kept fun _ _ => trivial
  · exact hb.sumSq.onRole_kept hq fun _ _ _ _ => trivial
  · rcases hb.minValue with ⟨hnone, hnone'⟩ | ⟨hsome, -⟩
    · rw [hnone'] at hl
      exact Or.inl ⟨hnone, (Option.some.inj hl).symm⟩
    · refine hb.minValue.onRole_kept hl fun x y hx hy hfree => ?_
      rw [(hmin (by rw [hsome]; rfl)).mpr hfree] at hy
      exact extremeOf_none (hx hfree) hy
  · rcases hb.maxValue with ⟨hnone, hnone'⟩ | ⟨hsome, -⟩
    · rw [hnone'] at hh
      exact Or.inl ⟨hnone, (Option.some.inj hh).symm⟩
    · refine hb.maxValue.onRole_kept hh fun x y hx hy hfree => ?_
      rw [(hmax (by rw [hsome]; rfl)).mpr hfree] at hy
      exact extremeOf_none (hx hfree) hy
  · refine hb.histogram.onRole_kept hhi fun x y hx hy => ?_
    obtain ⟨v, -, hy⟩ := Option.bind_eq_some_iff.mp hy
    obtain ⟨band, -, rfl⟩ := Option.map_eq_some_iff.mp hy
    rwa [length_countBand hx]
  · exact hb.distinctSketch
  · exact hb.latest.map_kept fun _ _ => trivial

/-- **A contributed value accumulates**: of a bucket with an extreme, all values are there or none is. -/
theorem record_accumulates {fieldless : Prop} {e : RolesOf ℚ} (row : FactRow)
    {value : Option ℚ} (hmin : e.minValue.isSome = true → (value = none ↔ fieldless))
    (hmax : e.maxValue.isSome = true → (value = none ↔ fieldless)) :
    Accumulates (Grown fieldless e) e mergeRoles fun b => rationals.record row b value := by
  intro b hb
  -- role by role: the update of the bucket is the update of the empty one, merged into it
  have hsum : onRole b.sumValue (fun s => value.bind (rationals.add s)) =
      (onRole e.sumValue fun s => value.bind (rationals.add s)).map (Option.merge (· + ·) b.sumValue) := by
    refine hb.sumValue.onRole fun x _ => ?_
    cases value with
    | none => rfl
    | some v => exact congrArg some (congrArg (x + ·) (zero_add v).symm)
  have hsq : onRole b.sumSq (fun s => value.bind fun v => (rationals.mul v v).bind (rationals.add s)) =
      (onRole e.sumSq fun s => value.bind fun v => (rationals.mul v v).bind (rationals.add s)).map
        (Option.merge (· + ·) b.sumSq) := by
    refine hb.sumSq.onRole fun x _ => ?_
    cases value with
    | none => rfl
    | some v => exact congrArg some (congrArg (x + ·) (zero_add (v * v)).symm)
  have hmin' : onRole b.minValue (fun cur => extremeOf rationals.lt cur value) =
      (onRole e.minValue fun cur => extremeOf rationals.lt cur value).map
        (Option.merge (Option.merge min) b.minValue) := by
    rcases hb.minValue with ⟨hnone, hnone'⟩ | ⟨hsome, -⟩
    · rw [hnone, hnone']
      rfl
    · refine hb.minValue.onRole fun x hx => extremeOf_eq takes_min fun hv => hx ?_
      exact (hmin (by rw [hsome]; rfl)).mp hv
  have hmax' : onRole b.maxValue (fun cur => extremeOf (fun v c => rationals.lt c v) cur value) =
      (onRole e.maxValue fun cur => extremeOf (fun v c => rationals.lt c v) cur value).map
        (Option.merge (Option.merge max) b.maxValue) := by
    rcases hb.maxValue with ⟨hnone, hnone'⟩ | ⟨hsome, -⟩
    · rw [hnone, hnone']
      rfl
    · refine hb.maxValue.onRole fun x hx => extremeOf_eq takes_max fun hv => hx ?_
      exact (hmax (by rw [hsome]; rfl)).mp hv
  have hhist : onRole b.histogram (fun h => value.bind fun v => (rationals.band v).map (countBand h)) =
      (onRole e.histogram fun h => value.bind fun v => (rationals.band v).map (countBand h)).map
        (Option.merge plusBands b.histogram) := by
    refine hb.histogram.onRole fun x hx => ?_
    cases value with
    | none => rfl
    | some v =>
      show (rationals.band v).map (countBand x) =
        ((rationals.band v).map (countBand emptyBands)).map (plusBands x)
      cases hband : rationals.band v with
      | none => rfl
      | some band => exact congrArg some (countBand_eq hx (bandOf_lt hband))
  have hcount : b.countValue.map (· + 1) = Option.merge (· + ·) b.countValue (e.countValue.map (· + 1)) :=
    hb.countValue.map fun x _ => rfl
  have hlatest : (b.latest.map fun cur => match row.eventTime with
      | none => cur
      | some moment => laterOf cur (some ⟨moment, value⟩)) =
      Option.merge (Option.merge laterReading) b.latest (e.latest.map fun cur => match row.eventTime with
        | none => cur
        | some moment => laterOf cur (some ⟨moment, value⟩)) := by
    refine hb.latest.map fun x _ => ?_
    cases row.eventTime with
    | none => exact Option.merge_none_right.symm
    | some moment => exact laterOf_eq x _
  have hsketch : b.distinctSketch = Option.merge Sketch.union b.distinctSketch e.distinctSketch :=
    (congrArg RolesOf.distinctSketch hb.neutral).symm
  constructor
  · unfold Arithmetic.record
    simp only [hsum, hsq, hmin', hmax', hhist, hcount, hlatest, Option.bind_eq_bind, Option.pure_def,
      Option.bind_map, Option.map_bind, Function.comp_def, Option.map_some]
    congr 1
    funext sum
    congr 1
    funext sumSq
    congr 1
    funext low
    congr 1
    funext high
    congr 1
    funext histogram
    exact congrArg some (RolesOf.ext rfl rfl rfl rfl rfl rfl hsketch rfl)
  · exact fun b' hrecord => hb.record hmin hmax hrecord

/-- A step that raises whatever the bucket is. -/
theorem raises_accumulates {fieldless : Prop} {e : RolesOf ℚ} :
    Accumulates (Grown fieldless e) e mergeRoles fun _ => none :=
  fun _ _ => ⟨rfl, fun _ h => absurd h (by simp)⟩

section Measure

variable (w : PythonTexts)

/-- An identity accumulates. -/
theorem recordDistinct_accumulates {fieldless : Prop} {e : RolesOf ℚ} (row : FactRow) (m : Measure)
    (hsketch : e.distinctSketch = some Sketch.empty) :
    Accumulates (Grown fieldless e) e mergeRoles fun b => rationals.observe w row m b := by
  intro b hb
  obtain ⟨x, hx⟩ : ∃ x, b.distinctSketch = some x := by
    rcases hb.distinctSketch with ⟨hnone, -⟩ | ⟨-, x, hx, -⟩
    · exact absurd (hsketch.symm.trans hnone) (by simp)
    · exact ⟨x, hx⟩
  show rationals.observe w row m b = (rationals.observe w row m e).map (mergeRoles b) ∧
    ∀ b' ∈ rationals.observe w row m b, Grown fieldless e b'
  have hobserve : ∀ (b : RolesOf ℚ) x, b.distinctSketch = some x →
      rationals.observe w row m b = recordDistinctOf w row m b x := by
    intro b x hx
    unfold Arithmetic.observe
    rw [hx]
  -- both buckets take the branch of the sketch
  rw [hobserve b x hx, hobserve e _ hsketch]
  unfold recordDistinctOf
  cases m.field with
  | none => exact ⟨rfl, fun _ h => absurd h (by simp)⟩
  | some field =>
    dsimp only
    cases distinctKey w (row.resolveField field) with
    | none => exact ⟨rfl, fun _ h => absurd h (by simp)⟩
    | some key =>
      cases key with
      | none =>
        refine ⟨congrArg some hb.neutral.symm, ?_⟩
        intro b' hb'
        exact Option.some.inj hb' ▸ hb
      | some key =>
        constructor
        · -- everything but the sketch and the count is as it was
          have hcount : b.countValue.map (· + 1) = Option.merge (· + ·) b.countValue (e.countValue.map (· + 1)) :=
            hb.countValue.map fun x _ => rfl
          have hadd : some (x.add w key) = Option.merge Sketch.union b.distinctSketch
              (some (Sketch.empty.add w key)) := by
            rw [hx]
            refine congrArg some ?_
            rw [Sketch.union_eq]
            exact Sketch.add_eq w x key
          refine congrArg some (RolesOf.ext ?_ hcount ?_ ?_ ?_ ?_ hadd ?_)
          · exact (congrArg RolesOf.sumValue hb.neutral).symm
          · exact (congrArg RolesOf.sumSq hb.neutral).symm
          · exact (congrArg RolesOf.minValue hb.neutral).symm
          · exact (congrArg RolesOf.maxValue hb.neutral).symm
          · exact (congrArg RolesOf.histogram hb.neutral).symm
          · exact (congrArg RolesOf.latest hb.neutral).symm
        · intro b' hb'
          obtain rfl := Option.some.inj hb'
          exact { hb with
            countValue := hb.countValue.map_kept fun _ _ => trivial
            distinctSketch := Or.inr ⟨hsketch, _, rfl, trivial⟩ }

/-- A number accumulates. -/
theorem recordNumber_accumulates {fieldless : Prop} {e : RolesOf ℚ} (he : Grown fieldless e e) (row : FactRow)
    (m : Measure) (hsketch : e.distinctSketch = none)
    (hmin : e.minValue.isSome = true → (m.field = none ↔ fieldless))
    (hmax : e.maxValue.isSome = true → (m.field = none ↔ fieldless)) :
    Accumulates (Grown fieldless e) e mergeRoles fun b => rationals.observe w row m b := by
  have hobserve : ∀ b, Grown fieldless e b → rationals.observe w row m b = rationals.recordNumber w row m b := by
    intro b hb
    have hnone : b.distinctSketch = none := by
      rcases hb.distinctSketch with ⟨-, hnone⟩ | ⟨hsome, -⟩
      · exact hnone
      · exact absurd (hsketch.symm.trans hsome) (by simp)
    unfold Arithmetic.observe
    rw [hnone]
  suffices hnumber : Accumulates (Grown fieldless e) e mergeRoles fun b => rationals.recordNumber w row m b by
    intro b hb
    show rationals.observe w row m b = (rationals.observe w row m e).map (mergeRoles b) ∧
      ∀ b' ∈ rationals.observe w row m b, Grown fieldless e b'
    rw [hobserve b hb, hobserve e he]
    exact hnumber b hb
  have hskip : Accumulates (Grown fieldless e) e mergeRoles some := Accumulates.skip fun _ hb => hb.neutral
  unfold Arithmetic.recordNumber
  cases hvalue : rationals.readField w row m.field with
  | none => exact raises_accumulates
  | some value =>
    show Accumulates (Grown fieldless e) e mergeRoles fun b =>
      if m.field.isSome ∧ value.isNone then some b else _
    by_cases habsent : m.field.isSome = true ∧ value.isNone = true
    · simp only [habsent, and_self, if_true]
      exact hskip
    · simp only [habsent, if_false]
      -- there is a value exactly when there is a field
      have hfield : value = none ↔ m.field = none := by
        cases hm : m.field with
        | none =>
          rw [hm] at hvalue
          exact ⟨fun _ => rfl, fun _ => (Option.some.inj hvalue).symm⟩
        | some field =>
          rw [hm] at habsent
          cases value with
          | none => exact absurd ⟨rfl, rfl⟩ habsent
          | some v => simp
      cases m.minus with
      | none =>
        exact record_accumulates row (fun h => hfield.trans (hmin h)) fun h => hfield.trans (hmax h)
      | some minus =>
        dsimp only
        cases rationals.read w (row.resolveField minus) with
        | none => exact raises_accumulates
        | some other =>
          cases other with
          | none => exact hskip
          | some other =>
            cases value with
            | none => exact raises_accumulates
            | some v =>
              have hsome : (some (v - other) : Option ℚ) = none ↔ m.field = none := by
                rw [← hfield]
                simp
              exact record_accumulates row (fun h => hsome.trans (hmin h)) fun h => hsome.trans (hmax h)

end Measure

/-! ## §5. The fold. -/

/-- The measure whose roles the bucket of a name has: of two with one name the last. -/
def MetricDefinition.lastNamed (d : MetricDefinition) (name : String) : Option Measure :=
  (d.measures.filter fun m => m.name = name).getLast?

/-- Measures that share their name with an extent name a field if it does, and only then. -/
def MetricDefinition.NoClash (d : MetricDefinition) : Prop :=
  ∀ m ∈ d.measures, ∀ m' ∈ d.measures, m.name = m'.name → m'.aggregation = .extent →
    (m.field = none ↔ m'.field = none)

/-- Names that are all different do not clash. -/
theorem noClash_of_nodup {d : MetricDefinition} (h : (d.measures.map Measure.name).Nodup) : d.NoClash := by
  intro m hm m' hm' hname _
  rw [List.inj_on_of_nodup_map h hm hm' hname]

/-- The buckets of a fold, as they grew from the empty ones. -/
def GrownBuckets (d : MetricDefinition) (out : BucketsOf ℚ) : Prop :=
  ∀ name, (d.lastNamed name = none ∧ out name = none) ∨
    ∃ last b, d.lastNamed name = some last ∧ out name = some b ∧
      Grown (last.field = none) (rationals.emptyRoles last.aggregation) b

section Fold

variable (w : PythonTexts) (d : MetricDefinition)

theorem empty_at_lastNamed {name : String} {last : Measure} (h : d.lastNamed name = some last) :
    rationals.empty d name = some (rationals.emptyRoles last.aggregation) :=
  congrArg (Option.map fun m : Measure => rationals.emptyRoles m.aggregation) h

theorem empty_at_unnamed {name : String} (h : d.lastNamed name = none) : rationals.empty d name = none :=
  congrArg (Option.map fun m : Measure => rationals.emptyRoles m.aggregation) h

theorem grownBuckets_empty : GrownBuckets d (rationals.empty d) := by
  intro name
  cases hlast : d.lastNamed name with
  | none => exact Or.inl ⟨rfl, empty_at_unnamed d hlast⟩
  | some last => exact Or.inr ⟨last, _, rfl, empty_at_lastNamed d hlast, grown_emptyRoles _ _⟩

theorem GrownBuckets.neutral {out : BucketsOf ℚ} (h : GrownBuckets d out) :
    mergeBuckets out (rationals.empty d) = out ∧ mergeBuckets (rationals.empty d) out = out := by
  constructor
  all_goals funext name
  all_goals unfold mergeBuckets
  all_goals rcases h name with ⟨hlast, hout⟩ | ⟨last, b, hlast, hout, hb⟩
  · rw [hout, empty_at_unnamed d hlast]
    rfl
  · rw [hout, empty_at_lastNamed d hlast]
    exact congrArg some hb.neutral
  · rw [hout, empty_at_unnamed d hlast]
    rfl
  · rw [hout, empty_at_lastNamed d hlast]
    exact congrArg some hb.neutral_left

/-- A measure is observed in the bucket of its name. -/
theorem observe_accumulates (hclash : d.NoClash) (row : FactRow) {m last : Measure} (hm : m ∈ d.measures)
    (hlast : d.lastNamed m.name = some last) :
    Accumulates (Grown (last.field = none) (rationals.emptyRoles last.aggregation))
      (rationals.emptyRoles last.aggregation) mergeRoles fun b => rationals.observe w row m b := by
  have hmem : last ∈ d.measures.filter fun m' => m'.name = m.name := List.mem_of_getLast? hlast
  rw [List.mem_filter, decide_eq_true_eq] at hmem
  have hgrown := grown_emptyRoles (last.field = none) last.aggregation
  have hclash' : last.aggregation = .extent → (m.field = none ↔ last.field = none) :=
    hclash m hm last hmem.1 hmem.2.symm
  cases hagg : last.aggregation with
  | distinct =>
    rw [hagg] at hgrown
    exact recordDistinct_accumulates w row m rfl
  | extent =>
    rw [hagg] at hgrown
    exact recordNumber_accumulates w hgrown row m rfl (fun _ => hclash' hagg) fun _ => hclash' hagg
  | sum | count | average | stats | percentile | latest =>
    rw [hagg] at hgrown
    exact recordNumber_accumulates w hgrown row m rfl (fun h => absurd h (by simp [Arithmetic.emptyRoles]))
      fun h => absurd h (by simp [Arithmetic.emptyRoles])

/-- **One measure of one row accumulates**: it touches the bucket of its name. -/
theorem foldMeasure_accumulates (hclash : d.NoClash) (row : FactRow) {m : Measure} (hm : m ∈ d.measures) :
    Accumulates (GrownBuckets d) (rationals.empty d) mergeBuckets fun out => rationals.foldMeasure w d row out m := by
  unfold Arithmetic.foldMeasure
  by_cases hcontributes : contributes row d m = true
  · simp only [hcontributes, if_true]
    -- the bucket of a name is that of its last measure
    obtain ⟨last, hlast⟩ : ∃ last, d.lastNamed m.name = some last := by
      cases hl : d.lastNamed m.name with
      | some last => exact ⟨last, rfl⟩
      | none =>
        have hnil := List.getLast?_eq_none_iff.mp hl
        have hmem : m ∈ d.measures.filter fun m' => m'.name = m.name := by simp [hm]
        rw [hnil] at hmem
        exact absurd hmem List.not_mem_nil
    have hstep := observe_accumulates w d hclash row hm hlast
    intro out hout
    rcases hout m.name with ⟨hnone, -⟩ | ⟨last', b, hlast', hb, hgrown⟩
    · exact absurd (hlast.symm.trans hnone) (by simp)
    · obtain rfl : last = last' := Option.some.inj (hlast.symm.trans hlast')
      dsimp only
      rw [hb, empty_at_lastNamed d hlast, Option.bind_some, Option.bind_some]
      obtain ⟨hobserve, hkeep⟩ := hstep b hgrown
      constructor
      · rw [show rationals.observe w row m b = _ from hobserve, Option.map_map, Option.map_map]
        congr 1
        funext u name
        show Function.update out m.name (some (mergeRoles b u)) name =
          (out name).merge mergeRoles (Function.update (rationals.empty d) m.name (some u) name)
        -- no other bucket is touched
        by_cases hname : name = m.name
        · subst hname
          rw [Function.update_self, Function.update_self, hb]
          rfl
        · rw [Function.update_of_ne hname, Function.update_of_ne hname]
          exact (congrFun (GrownBuckets.neutral d hout).1 name).symm
      · intro out' hout'
        obtain ⟨b', hb', rfl⟩ := Option.map_eq_some_iff.mp hout'
        intro name
        by_cases hname : name = m.name
        · subst hname
          exact Or.inr ⟨last, b', hlast, Function.update_self _ _ _, hkeep b' hb'⟩
        · rw [Function.update_of_ne hname]
          exact hout name
  · simp only [hcontributes]
    exact Accumulates.skip fun _ h => (GrownBuckets.neutral d h).1

/-- **Exactly folded, one batch after another is the merge of the two.** -/
theorem fold_append_merge (hclash : d.NoClash) (xs ys : List FactRow) :
    rationals.fold w d (xs ++ ys) =
      (rationals.fold w d xs).bind fun a => (rationals.fold w d ys).map fun b => mergeBuckets a b := by
  have hneutral : ∀ out, GrownBuckets d out → mergeBuckets out (rationals.empty d) = out :=
    fun _ h => (GrownBuckets.neutral d h).1
  refine foldlM_append_merge mergeBuckets_assoc (grownBuckets_empty d) hneutral xs ys fun row _ => ?_
  exact Accumulates.foldlM mergeBuckets_assoc (grownBuckets_empty d) hneutral d.measures fun m hm =>
    foldMeasure_accumulates w d hclash row hm

theorem grownBuckets_fold (hclash : d.NoClash) {rows : List FactRow} {out : BucketsOf ℚ}
    (h : rationals.fold w d rows = some out) : GrownBuckets d out := by
  have hneutral : ∀ out, GrownBuckets d out → mergeBuckets out (rationals.empty d) = out :=
    fun _ h => (GrownBuckets.neutral d h).1
  have hloop := Accumulates.foldlM mergeBuckets_assoc (grownBuckets_empty d) hneutral rows fun row _ =>
    Accumulates.foldlM mergeBuckets_assoc (grownBuckets_empty d) hneutral d.measures fun m hm =>
      foldMeasure_accumulates w d hclash row hm
  exact (hloop _ (grownBuckets_empty d)).2 out h

end Fold

/-! ## §6. The law. -/

section Law

variable (w : PythonTexts) (d : MetricDefinition)

/-- The entry of one key in what `group_fold` returns: a key without rows has none. -/
def foldEntry {κ : Type} [DecidableEq κ] (keyOf : FactRow → Option κ) (rows : List FactRow) (k : κ) :
    Option (Option (BucketsOf ℚ)) :=
  let group := rows.filter fun row => decide (keyOf row = some k)
  if group = [] then some none else (rationals.fold w d group).map some

/-- What an entry has under a measure name: a missing entry has nothing. -/
def entryAt (entry : Option (BucketsOf ℚ)) (name : String) : Option (RolesOf ℚ) := entry.bind fun out => out name

/-- `fold` is a homomorphism to `add`, with exact numbers. -/
structure FoldLaw : Prop where
  /-- two batches raise together exactly when one of them does -/
  raises : ∀ xs ys, rationals.fold w d (xs ++ ys) = none ↔
    rationals.fold w d xs = none ∨ rationals.fold w d ys = none
  /-- every role under every name is the merge of the two -/
  merges : ∀ xs ys a b c, rationals.fold w d xs = some a → rationals.fold w d ys = some b →
    rationals.fold w d (xs ++ ys) = some c → ∀ name, rationals.addAt (a name) (b name) = some (c name)
  /-- so it is bucket by bucket, for any grouping of the rows, with keys of one side only -/
  groups : ∀ {κ : Type} [DecidableEq κ] (keyOf : FactRow → Option κ) (k : κ) (xs ys : List FactRow),
    (foldEntry w d keyOf (xs ++ ys) k = none ↔
      foldEntry w d keyOf xs k = none ∨ foldEntry w d keyOf ys k = none) ∧
    ∀ a b c, foldEntry w d keyOf xs k = some a → foldEntry w d keyOf ys k = some b →
      foldEntry w d keyOf (xs ++ ys) k = some c →
      (c = none ↔ a = none ∧ b = none) ∧
      ∀ name, rationals.addAt (entryAt a name) (entryAt b name) = some (entryAt c name)
  /-- `add` is associative on any results -/
  assoc : ∀ (a b c : BucketsOf ℚ) (name : String),
    ((rationals.addAt (a name) (b name)).bind fun x => rationals.addAt x (c name)) =
      (rationals.addAt (b name) (c name)).bind fun y => rationals.addAt (a name) y
  /-- the empty result is the fold of nothing, and neutral -/
  identity : rationals.fold w d [] = some (rationals.empty d) ∧
    ∀ rows out, rationals.fold w d rows = some out → ∀ name,
      rationals.addAt (rationals.empty d name) (out name) = some (out name) ∧
        rationals.addAt (out name) (rationals.empty d name) = some (out name)

/-- What a merge of entries is. -/
theorem foldEntry_append (hclash : d.NoClash) {κ : Type} [DecidableEq κ] (keyOf : FactRow → Option κ) (k : κ)
    (xs ys : List FactRow) :
    foldEntry w d keyOf (xs ++ ys) k = (foldEntry w d keyOf xs k).bind fun a =>
      (foldEntry w d keyOf ys k).map fun b => Option.merge mergeBuckets a b := by
  unfold foldEntry
  simp only [List.filter_append]
  generalize (xs.filter fun row => decide (keyOf row = some k)) = xs
  generalize (ys.filter fun row => decide (keyOf row = some k)) = ys
  by_cases hx : xs = []
  · by_cases hy : ys = []
    · simp [hx, hy]
    · simp only [hx, List.nil_append, if_neg hy, if_true, Option.bind_some, Option.map_map]
      congr 1
  · by_cases hy : ys = []
    · simp only [hy, List.append_nil, if_neg hx, if_true, Option.map_some, Option.merge_none_right]
      cases rationals.fold w d xs <;> rfl
    · have hxy : xs ++ ys ≠ [] := fun h => hx (List.append_eq_nil_iff.mp h).1
      rw [if_neg hx, if_neg hy, if_neg hxy, fold_append_merge w d hclash]
      cases rationals.fold w d xs with
      | none => rfl
      | some a => cases rationals.fold w d ys <;> rfl

theorem bind_map_eq_none {α β γ : Type} {x : Option α} {y : Option β} {f : α → β → γ} :
    (x.bind fun a => y.map fun b => f a b) = none ↔ x = none ∨ y = none := by
  cases x <;> cases y <;> simp

theorem entryAt_merge (a b : Option (BucketsOf ℚ)) (name : String) :
    rationals.addAt (entryAt a name) (entryAt b name) = some (entryAt (Option.merge mergeBuckets a b) name) := by
  have hadd := addAt_rationals (entryAt a) (entryAt b) name
  rw [hadd]
  cases a with
  | none =>
    cases b with
    | none => rfl
    | some b => exact congrArg some Option.merge_none_left
  | some a =>
    cases b with
    | none => exact congrArg some Option.merge_none_right
    | some b => rfl

/-- **The fold is a homomorphism.** -/
theorem exactFold_append (hclash : d.NoClash) : FoldLaw w d := by
  constructor
  · intro xs ys
    rw [fold_append_merge w d hclash]
    exact bind_map_eq_none
  · intro xs ys a b c ha hb hc name
    rw [fold_append_merge w d hclash, ha, hb] at hc
    rw [addAt_rationals, ← Option.some.inj hc]
  · intro κ _ keyOf k xs ys
    rw [foldEntry_append w d hclash]
    refine ⟨bind_map_eq_none, ?_⟩
    intro a b c ha hb hc
    rw [ha, hb] at hc
    obtain rfl : Option.merge mergeBuckets a b = c := Option.some.inj hc
    exact ⟨Option.merge_eq_none_iff, entryAt_merge a b⟩
  · intro a b c name
    rw [addAt_rationals a b, addAt_rationals b c]
    show rationals.addAt (mergeBuckets a b name) (c name) = rationals.addAt (a name) (mergeBuckets b c name)
    rw [addAt_rationals, addAt_rationals, mergeBuckets_assoc]
  · refine ⟨rfl, ?_⟩
    intro rows out hout name
    obtain ⟨hright, hleft⟩ := GrownBuckets.neutral d (grownBuckets_fold w d hclash hout)
    rw [addAt_rationals, addAt_rationals, hleft, hright]
    exact ⟨rfl, rfl⟩

end Law

/-- Two measures of one name, a count and the extent of a field. -/
def clashing : MetricDefinition where
  measures := [{ name := "x", aggregation := .count },
    { name := "x", aggregation := .extent, field := some (.column "quantity") }]

/-- A row with a quantity. -/
def fiveUnits : FactRow := { column := fun name => if name = "quantity" then .int 5 else .none }

/-- The count compares nothing with the extreme of the row before. -/
theorem clashing_not_homomorphic : ¬∀ (w : PythonTexts) (d : MetricDefinition), FoldLaw w d := by
  intro h
  have hlaw := (h plainTexts clashing).raises [fiveUnits] [fiveUnits]
  have honce : (rationals.fold plainTexts clashing [fiveUnits]).isSome = true := by decide +kernel
  have htwice : (rationals.fold plainTexts clashing ([fiveUnits] ++ [fiveUnits])).isNone = true := by
    decide +kernel
  have hnone := hlaw.mp (Option.isNone_iff_eq_none.mp htwice)
  rw [or_self] at hnone
  rw [hnone] at honce
  exact absurd honce (by simp)

/-- A total and the extent of a field do not clash under two names. -/
theorem exactFold_append_quantity : FoldLaw plainTexts
    { measures := [{ name := "total", aggregation := .sum, field := some (.column "quantity") },
      { name := "range", aggregation := .extent, field := some (.column "quantity") }] } :=
  exactFold_append plainTexts _ (noClash_of_nodup (by decide))

end RagPipeline.Analytics
