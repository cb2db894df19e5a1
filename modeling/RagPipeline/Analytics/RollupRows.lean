/-
  RagPipeline.Analytics.RollupRows — a role bucket as a rollup row, and back.

    * `rowFor`       — `_rows_for`: every role into its column, nothing for an empty bucket;
    * `insert`       — what the columns make of it: numeric columns of six decimals, a `BIGINT` count, a
                       JSONB reading that the serializer must know;
    * `cascadeRoles` — the decoder of the day and month folds;
    * `readerRoles`  — the decoder of the point reads, which takes every column it does not name for a
                       number;
    * `RoundTrips`   — both give the bucket back.

  `roundTrips_iff_storable` is exact: a bucket round-trips iff the columns hold its numbers and it has no
  `latest` reading.
-/
import RagPipeline.Analytics.Roles

namespace RagPipeline.Analytics

open RagPipeline.Stage2 RagPipeline.Lib

/-! ## §1. The row and its columns. -/

/-- The role columns of a rollup table. -/
structure RollupRow where
  sumValue : Option Number
  countValue : Option ℕ
  sumSq : Option Number
  minValue : Option Number
  maxValue : Option Number
  histogram : Option (List ℕ)
  distinctSketch : Option Sketch
  latest : Option Reading

/-- `Numeric(30, 6)`: `sum_value`, `min_value`, `max_value`. -/
def numericColumn : NumericColumn := ⟨30, 6⟩

/-- `Numeric(40, 6)`: `sum_sq`. -/
def squareColumn : NumericColumn := ⟨40, 6⟩

/-- `_rows_for`, the role columns: a histogram of zeros is NULL. -/
def rowFor (b : Roles) : RollupRow where
  sumValue := b.sumValue
  countValue := b.countValue
  sumSq := b.sumSq
  minValue := b.minValue.join
  maxValue := b.maxValue.join
  histogram := b.histogram.filter fun h => h.any fun n => decide (n ≠ 0)
  distinctSketch := b.distinctSketch
  latest := b.latest.join

/-- `json.dumps` of a reading: it does not know a `Decimal`. -/
def serializable (r : Reading) : Bool := r.value.isNone

/-- `pg_insert`: the row as the table holds it, or the failure of the statement. -/
def insert (row : RollupRow) : Option RollupRow := do
  let sumValue ← onRole row.sumValue numericColumn.store
  let sumSq ← onRole row.sumSq squareColumn.store
  let minValue ← onRole row.minValue numericColumn.store
  let maxValue ← onRole row.maxValue numericColumn.store
  let countValue ← onRole row.countValue fun n => if n < 2 ^ 63 then some n else none
  let latest ← onRole row.latest fun r => if serializable r then some r else none
  return { row with
    sumValue := sumValue
    sumSq := sumSq
    minValue := minValue
    maxValue := maxValue
    countValue := countValue
    latest := latest }

/-! ## §2. The two decoders. -/

/-- The columns that are not NULL, each under its role. -/
def cascadeRoles (row : RollupRow) : Roles where
  sumValue := row.sumValue
  countValue := row.countValue
  sumSq := row.sumSq
  minValue := row.minValue.map some
  maxValue := row.maxValue.map some
  histogram := row.histogram
  distinctSketch := row.distinctSketch
  latest := row.latest.map some

/-- `_fold_daily_from_hourly` and `_fold_monthly`, on the one row of a bucket. -/
def cascadeRead (row : RollupRow) : Option Roles := addRoles {} (cascadeRoles row)

/-- `_rollup_points`: `Decimal(value)` of a reading raises. -/
def readerRoles (row : RollupRow) : Option Roles :=
  match row.latest with
  | some _ => none
  | none => some
    { sumValue := row.sumValue
      countValue := row.countValue
      sumSq := row.sumSq
      minValue := row.minValue.map some
      maxValue := row.maxValue.map some
      histogram := row.histogram.filter fun h => !h.isEmpty
      distinctSketch := row.distinctSketch }

/-- `_rollup_points`, on the one row of a bucket. -/
def readerRead (row : RollupRow) : Option Roles := (readerRoles row).bind (addRoles {})

/-- The bucket without the roles that are there and `None`: `get` sees no difference. -/
def Roles.present (b : Roles) : Roles :=
  { b with
    minValue := b.minValue.join.map some
    maxValue := b.maxValue.join.map some
    latest := b.latest.join.map some }

/-- Written and read back by both decoders; an empty bucket is not written, and nothing is lost by it. -/
def RoundTrips (b : Roles) : Prop :=
  if b.isEmpty then b = b.zeroed
  else ∃ row, insert (rowFor b) = some row ∧ cascadeRead row = some b.present ∧
    readerRead row = some b.present

/-- What the columns hold as it is: numbers of at most six decimals and of the column's size, a count
below `2 ^ 63`, and no `latest` reading. -/
structure Storable (b : Roles) : Prop where
  sum : ∀ x, b.sumValue = some x → numericColumn.Holds x
  sumSq : ∀ x, b.sumSq = some x → squareColumn.Holds x
  min : ∀ x, b.minValue.join = some x → numericColumn.Holds x
  max : ∀ x, b.maxValue.join = some x → numericColumn.Holds x
  count : ∀ n, b.countValue = some n → n < 2 ^ 63
  latest : b.latest.join = none

/-! ## §3. Adding to nothing. -/

theorem addSums_none (y : Option Number) :
    addSums none y = onRole y (Number.add decimalContext Number.zero) := by
  cases y <;> rfl

theorem addCounts_none (y : Option ℕ) : addCounts none y = y := by
  cases y <;> simp [addCounts]

theorem addExtremes_none (takes : Number → Number → Option Bool) (y : Option Number) :
    addExtremes takes none (y.map some) = some (y.map some) := by
  cases y <;> simp [addExtremes]

theorem addSketches_none (y : Option Sketch) : addSketches none y = y := by
  cases y <;> simp [addSketches, Sketch.union]

theorem addLatest_none (y : Option Reading) : addLatest none (y.map some) = y.map some := by
  cases y <;> simp [addLatest, later]

theorem addBands_none (y : Option (List ℕ)) : addBands none y = y := by
  cases y with
  | none => rfl
  | some ys =>
    simp only [addBands, Option.getD_none, Option.getD_some, List.length_nil, Nat.zero_max,
      Option.some.injEq]
    apply List.ext_getElem
    · simp
    · intro i h₁ h₂
      simp [List.getElem?_eq_getElem h₂]

/-- A decoded row, added to nothing, is itself but for the two sums, which are rounded to the context. -/
theorem addRoles_empty_cascade (row : RollupRow) :
    cascadeRead row = (onRole row.sumValue (Number.add decimalContext Number.zero)).bind fun s =>
      (onRole row.sumSq (Number.add decimalContext Number.zero)).bind fun q =>
        some { cascadeRoles row with sumValue := s, sumSq := q } := by
  unfold cascadeRead addRoles
  simp only [cascadeRoles, addSums_none, addCounts_none, addExtremes_none, addSketches_none,
    addLatest_none, addBands_none, Option.bind_eq_bind, Option.bind_some, Option.pure_def]

/-- Without a reading, and with bands where there is a histogram, the two decoders agree. -/
theorem readerRead_eq_cascadeRead {row : RollupRow} (hl : row.latest = none)
    (hh : ∀ h, row.histogram = some h → h ≠ []) : readerRead row = cascadeRead row := by
  have hfilter : row.histogram.filter (fun h => !h.isEmpty) = row.histogram := by
    cases hc : row.histogram with
    | none => rfl
    | some h =>
      have hne := hh h hc
      simp [Option.filter, hne]
  unfold readerRead readerRoles cascadeRead cascadeRoles
  rw [hl]
  simp [hfilter]

/-! ## §4. The round trip. -/

theorem onRole_eq_self {α : Type} {role : Option α} (update : α → Option α)
    (h : ∀ x, role = some x → update x = some x) : onRole role update = some role := by
  cases role with
  | none => rfl
  | some x => simp [onRole, h x rfl]

/-- What is storable is stored as it is. -/
theorem insert_of_storable {b : Roles} (h : Storable b) : insert (rowFor b) = some (rowFor b) := by
  have hsum := onRole_eq_self numericColumn.store fun x hx =>
    NumericColumn.store_of_holds (h.sum x hx)
  have hsq := onRole_eq_self squareColumn.store fun x hx =>
    NumericColumn.store_of_holds (h.sumSq x hx)
  have hmin := onRole_eq_self numericColumn.store fun x hx =>
    NumericColumn.store_of_holds (h.min x hx)
  have hmax := onRole_eq_self numericColumn.store fun x hx =>
    NumericColumn.store_of_holds (h.max x hx)
  have hcount := onRole_eq_self (fun n => if n < 2 ^ 63 then some n else none) fun n hn =>
    if_pos (h.count n hn)
  have hlatest := onRole_eq_self (fun r : Reading => if serializable r then some r else none)
    fun r (hr : b.latest.join = some r) => by simp [h.latest] at hr
  unfold insert
  simp only [rowFor, hsum, hsq, hmin, hmax, hcount, hlatest, Option.bind_eq_bind, Option.bind_some,
    Option.pure_def]

/-- A histogram of a bucket that is written goes into its column. -/
theorem rowFor_histogram {b : Roles} (hb : Folded b) (he : b.isEmpty = false) :
    (rowFor b).histogram = b.histogram := by
  cases hh : b.histogram with
  | none => simp [rowFor, hh]
  | some h =>
    have hany := hb.counted he h hh
    simp only [rowFor, hh, Option.filter, hany, if_true]

theorem roundTrips_of_storable {b : Roles} (hb : Folded b) (h : Storable b) : RoundTrips b := by
  unfold RoundTrips
  split
  · rename_i he
    exact hb.zero he
  · rename_i he
    have he : b.isEmpty = false := by simpa using he
    have hhist := rowFor_histogram hb he
    have hcascade : cascadeRead (rowFor b) = some b.present := by
      have hsum := onRole_eq_self (Number.add decimalContext Number.zero) hb.sum
      have hsq := onRole_eq_self (Number.add decimalContext Number.zero) hb.sumSq
      rw [addRoles_empty_cascade]
      show (onRole b.sumValue _).bind _ = _
      rw [hsum, Option.bind_some]
      show (onRole b.sumSq _).bind _ = _
      rw [hsq, Option.bind_some]
      simp only [cascadeRoles, hhist]
      rfl
    refine ⟨rowFor b, insert_of_storable h, hcascade, ?_⟩
    rw [readerRead_eq_cascadeRead h.latest, hcascade]
    intro k hk
    rw [hhist] at hk
    have hany := hb.counted he k hk
    rintro rfl
    simp at hany

/-- The columns, one by one, of a row that was inserted. -/
theorem insert_cases {row stored : RollupRow} (h : insert row = some stored) :
    onRole row.sumValue numericColumn.store = some stored.sumValue ∧
      onRole row.sumSq squareColumn.store = some stored.sumSq ∧
      onRole row.minValue numericColumn.store = some stored.minValue ∧
      onRole row.maxValue numericColumn.store = some stored.maxValue ∧
      onRole row.countValue (fun n => if n < 2 ^ 63 then some n else none) =
        some stored.countValue ∧
      onRole row.latest (fun r => if serializable r then some r else none) = some stored.latest := by
  unfold insert at h
  simp only [Option.bind_eq_bind, Option.bind_eq_some_iff, Option.pure_def, Option.some.injEq] at h
  obtain ⟨s, hs, q, hq, mn, hmn, mx, hmx, n, hn, l, hl, rfl⟩ := h
  exact ⟨hs, hq, hmn, hmx, hn, hl⟩

theorem storable_of_roundTrips {b : Roles} (he : b.isEmpty = false) (h : RoundTrips b) :
    Storable b := by
  unfold RoundTrips at h
  rw [he] at h
  obtain ⟨row, hinsert, hcascade, hreader⟩ : ∃ row, insert (rowFor b) = some row ∧
    cascadeRead row = some b.present ∧ readerRead row = some b.present := h
  obtain ⟨hsum, hsq, hmin, hmax, hcount, hlatest⟩ := insert_cases hinsert
  rw [addRoles_empty_cascade] at hcascade
  obtain ⟨s, hs, hrest⟩ := Option.bind_eq_some_iff.mp hcascade
  obtain ⟨q, hq, hpresent⟩ := Option.bind_eq_some_iff.mp hrest
  have hpresent := Option.some.inj hpresent
  -- a stored value that comes back as the bucket's, through the context or as it is
  have hback : ∀ {c : NumericColumn} {x : Number} {y : Option Number},
      onRole (some x) c.store = some y →
      onRole y (Number.add decimalContext Number.zero) = some (some x) → c.Holds x := by
    intro c x y hstore hadd
    rcases onRole_eq_some hstore with ⟨hn, -⟩ | ⟨u, v, hu, hv, rfl⟩
    · simp at hn
    · obtain rfl : x = u := Option.some.inj hu
      obtain ⟨z, hz, hzx⟩ := Option.map_eq_some_iff.mp hadd
      obtain rfl : z = x := Option.some.inj hzx
      exact NumericColumn.holds_of_store rfl hv hz
  have hexact : ∀ {c : NumericColumn} {x : Number} {y : Option Number},
      onRole (some x) c.store = some y → y.map some = (some x).map some → c.Holds x := by
    intro c x y hstore hy
    obtain rfl : y = some x := Option.map_injective (Option.some_injective _) hy
    rcases onRole_eq_some hstore with ⟨hn, -⟩ | ⟨u, v, hu, hv, hvx⟩
    · simp at hn
    · obtain rfl : x = u := Option.some.inj hu
      obtain rfl : x = v := Option.some.inj hvx
      exact NumericColumn.holds_of_store_self hv
  constructor
  · intro x hx
    have h1 : onRole (some x) numericColumn.store = some row.sumValue := by rw [← hx]; exact hsum
    have h2 : s = b.sumValue := congrArg Roles.sumValue hpresent
    exact hback h1 (by rw [hs, h2, hx])
  · intro x hx
    have h1 : onRole (some x) squareColumn.store = some row.sumSq := by rw [← hx]; exact hsq
    have h2 : q = b.sumSq := congrArg Roles.sumSq hpresent
    exact hback h1 (by rw [hq, h2, hx])
  · intro x hx
    have h1 : onRole (some x) numericColumn.store = some row.minValue := by rw [← hx]; exact hmin
    have h2 : row.minValue.map some = b.minValue.join.map some := congrArg Roles.minValue hpresent
    exact hexact h1 (by rw [h2, hx])
  · intro x hx
    have h1 : onRole (some x) numericColumn.store = some row.maxValue := by rw [← hx]; exact hmax
    have h2 : row.maxValue.map some = b.maxValue.join.map some := congrArg Roles.maxValue hpresent
    exact hexact h1 (by rw [h2, hx])
  · intro n hn
    rcases onRole_eq_some hcount with ⟨hnone, -⟩ | ⟨u, v, hu, hv, -⟩
    · simp [rowFor, hn] at hnone
    · obtain rfl : n = u := by
        simpa [rowFor, hn] using hu
      by_contra hlt
      rw [if_neg hlt] at hv
      simp at hv
  · -- a reading that was stored stops the reader
    rcases onRole_eq_some hlatest with ⟨hnone, -⟩ | ⟨u, v, -, -, hv⟩
    · exact hnone
    · simp [readerRead, readerRoles, hv] at hreader

/-- An empty bucket is storable: its numbers are zeros. -/
theorem storable_of_isEmpty {b : Roles} (hb : Folded b) (he : b.isEmpty = true) : Storable b := by
  have hz := hb.zero he
  have hzero : ∀ c : NumericColumn, c.Holds Number.zero := by
    intro c
    exact ⟨onGrid_zero, by rw [abs_zero]; positivity⟩
  simp only [Roles.isEmpty, Bool.and_eq_true, Option.isNone_iff_eq_none, decide_eq_true_eq] at he
  obtain ⟨⟨⟨hc, hmin⟩, hmax⟩, hlatest⟩ := he
  constructor
  · intro x hx
    rw [hz] at hx
    obtain ⟨y, -, rfl⟩ := Option.map_eq_some_iff.mp hx
    exact hzero _
  · intro x hx
    rw [hz] at hx
    obtain ⟨y, -, rfl⟩ := Option.map_eq_some_iff.mp hx
    exact hzero _
  · intro x hx
    simp [hmin] at hx
  · intro x hx
    simp [hmax] at hx
  · intro n hn
    rw [hn] at hc
    simp only [Option.getD_some] at hc
    omega
  · exact hlatest

/-- A bucket of a fold round-trips exactly when the columns hold it. -/
theorem roundTrips_iff_storable {b : Roles} (hb : Folded b) : RoundTrips b ↔ Storable b := by
  constructor
  · intro h
    cases he : b.isEmpty with
    | true => exact storable_of_isEmpty hb he
    | false => exact storable_of_roundTrips he h
  · exact roundTrips_of_storable hb

/-- The day's bucket makes the row the hour's bucket made: a month reads what a day reads. -/
theorem rowFor_present (b : Roles) : rowFor b.present = rowFor b := by
  have hjoin : ∀ {α : Type} (x : Option (Option α)), (x.join.map some).join = x.join := by
    intro α x
    cases x.join <;> rfl
  simp only [rowFor, Roles.present, hjoin]

/-! ## §5. Every bucket of every fold. -/

/-- A bucket of a fold round-trips through its row and both decoders exactly when it is storable. -/
theorem stored_roles_round_trip_iff (w : PythonTexts) (d : MetricDefinition) (rows : List FactRow)
    (out : Buckets) (hfold : foldRows w d rows = some out) (name : String) (b : Roles)
    (hb : out name = some b) : RoundTrips b ↔ Storable b :=
  roundTrips_iff_storable (folded_of_fold w hfold name b hb)

/-- Texts that know no number. -/
def plainTexts : PythonTexts where
  decimal := fun _ => none
  spelling := id
  normalized := fun _ => none
  strip := id
  isDigits := fun _ => false
  hash64 := fun _ => 0

/-- The level of a shelf, as it stands. -/
def shelfLevel : MetricDefinition where
  measures := [{ name := "level", aggregation := .latest, field := some (.column "quantity") }]

/-- One reading of seven. -/
def shelfRow : FactRow where
  eventTime := some 0
  column := fun name => if name = "quantity" then .int 7 else .none

/-- The bucket of that one reading. -/
def shelfBucket : Roles where
  countValue := some 1
  latest := some (some ⟨0, some (.finite 7)⟩)

theorem fold_shelf : foldRows plainTexts shelfLevel [shelfRow] =
    some (Function.update shelfLevel.empty "level" (some shelfBucket)) := rfl

theorem stored_roles_round_trip_iff_shelf : RoundTrips shelfBucket ↔ Storable shelfBucket :=
  stored_roles_round_trip_iff plainTexts shelfLevel [shelfRow] _ fold_shelf "level" shelfBucket
    (by simp)

/-- Every bucket of every fold comes back. -/
def StoredRolesRoundTrip : Prop :=
  ∀ (w : PythonTexts) (d : MetricDefinition) (rows : List FactRow) (out : Buckets) (name : String)
    (b : Roles), foldRows w d rows = some out → out name = some b → RoundTrips b

/-- A `latest` reading carries a `Decimal`, which the JSONB column cannot take. -/
theorem latest_reading_not_stored : ¬ StoredRolesRoundTrip := by
  intro h
  have hround : RoundTrips shelfBucket :=
    h plainTexts shelfLevel [shelfRow] _ "level" shelfBucket fold_shelf (by simp)
  have hfolded : Folded shelfBucket :=
    folded_of_fold plainTexts fold_shelf "level" shelfBucket (by simp)
  have hlatest := ((roundTrips_iff_storable hfolded).mp hround).latest
  simp [shelfBucket] at hlatest

end RagPipeline.Analytics
