/-
  RagPipeline.Analytics.Tally — what a fold leaves in a bucket, in closed form.

  A row brings a measure nothing, a tick, a number or a key (`seen`).  Where the numbers are finite and
  their sums have room in the decimal context (`HasRoom`), the bucket is decided by what was seen, in any
  order and in any grouping:

    * `foldMeasure_tally` — the bucket of a fold is the `tally` of what its rows bring;
    * `tally_perm`        — the order of the rows does not matter;
    * `addRoles_tally`    — merging two tallies is the tally of both;
    * `mergeAll_tally`    — so is merging any number of them.

  A `latest` measure is left out: readings of one instant are told apart by their order.
-/
import RagPipeline.Analytics.RollupRows
import Mathlib.Algebra.Order.BigOperators.Group.List
import Mathlib.Algebra.BigOperators.Group.List.Basic

namespace RagPipeline.Analytics

open RagPipeline.Stage2 RagPipeline.Lib

/-! ## §1. Sums that have room. -/

/-- The numbers are on one grid, and all of them together leave no digit of the context. -/
def Fits (f : Format) (vs : List ℚ) : Prop :=
  ∃ k : ℤ, f.tiny ≤ k ∧ k + f.precision ≤ f.top + 1 ∧ (∀ v ∈ vs, OnGrid f.base k v) ∧
    (vs.map fun v => |v|).sum < (f.base : ℚ) ^ (k + f.precision)

section Fits

variable {f : Format} {vs xs ys : List ℚ} {q : ℚ} {k : ℤ}

theorem onGrid_add {p : ℚ} (hp : OnGrid f.base k p) (hq : OnGrid f.base k q) :
    OnGrid f.base k (p + q) := by
  obtain ⟨m, rfl⟩ := hp
  obtain ⟨n, rfl⟩ := hq
  exact ⟨m + n, by push_cast; ring⟩

theorem onGrid_sum (h : ∀ v ∈ vs, OnGrid f.base k v) : OnGrid f.base k vs.sum := by
  induction vs with
  | nil => exact onGrid_zero
  | cons v vs ih =>
    rw [List.sum_cons]
    exact onGrid_add (h v List.mem_cons_self) (ih fun u hu => h u (List.mem_cons_of_mem _ hu))

theorem abs_sum_le (vs : List ℚ) : |vs.sum| ≤ (vs.map fun v => |v|).sum := by
  induction vs with
  | nil => simp
  | cons v vs ih =>
    rw [List.sum_cons, List.map_cons, List.sum_cons]
    exact (abs_add_le v vs.sum).trans (by gcongr)

theorem sum_abs_nonneg (vs : List ℚ) : 0 ≤ (vs.map fun v => |v|).sum := by
  induction vs with
  | nil => simp
  | cons v vs ih =>
    rw [List.map_cons, List.sum_cons]
    positivity

/-- What is on the grid and below its room is not rounded. -/
theorem round_of_onGrid (hq : OnGrid f.base k q) (htiny : f.tiny ≤ k)
    (htop : k + f.precision ≤ f.top + 1) (hlt : |q| < (f.base : ℚ) ^ (k + f.precision)) :
    f.round q = some q := by
  by_cases hzero : q = 0
  · rw [hzero]
    exact Format.round_zero
  · have hpos : 0 < |q| := abs_pos.mpr hzero
    have hlog : Int.log f.base |q| < k + f.precision :=
      (Int.lt_zpow_iff_log_lt f.one_lt_base hpos).mp hlt
    have hquantum : f.quantum q ≤ k := by
      unfold Format.quantum
      omega
    have hgrid : OnGrid f.base (f.quantum q) q := OnGrid.mono f.one_lt_base hquantum hq
    rw [Format.round_eq_some]
    exact ⟨by omega, (quantize_of_onGrid f.one_lt_base halfEven_intCast hgrid).symm⟩

/-- **Sums that have room are exact.** -/
theorem Fits.round_sum (h : Fits f vs) : f.round vs.sum = some vs.sum := by
  obtain ⟨k, htiny, htop, hgrid, hlt⟩ := h
  exact round_of_onGrid (onGrid_sum hgrid) htiny htop ((abs_sum_le vs).trans_lt hlt)

theorem Fits.left (h : Fits f (xs ++ ys)) : Fits f xs := by
  obtain ⟨k, htiny, htop, hgrid, hlt⟩ := h
  refine ⟨k, htiny, htop, fun v hv => hgrid v (List.mem_append_left _ hv), ?_⟩
  rw [List.map_append, List.sum_append] at hlt
  have hnonneg := sum_abs_nonneg ys
  linarith

theorem Fits.perm (h : Fits f xs) (hp : xs.Perm ys) : Fits f ys := by
  obtain ⟨k, htiny, htop, hgrid, hlt⟩ := h
  refine ⟨k, htiny, htop, fun v hv => hgrid v (hp.mem_iff.mpr hv), ?_⟩
  rw [← (hp.map _).sum_eq]
  exact hlt

theorem Fits.right (h : Fits f (xs ++ ys)) : Fits f ys := (h.perm List.perm_append_comm).left

/-- Adding two sums that have room together. -/
theorem Fits.add_sum (h : Fits f (xs ++ ys)) :
    Number.add f (.finite xs.sum) (.finite ys.sum) = some (.finite (xs ++ ys).sum) := by
  have hround := h.round_sum
  rw [List.sum_append] at hround ⊢
  simp [Number.add, hround]

end Fits

/-! ## §2. What a row brings. -/

/-- What a row brings to a measure. -/
inductive Seen where
  | nothing
  | tick
  | number (value : ℚ)
  | key (text : String)
  deriving DecidableEq

variable (w : PythonTexts)

/-- The number a measure with a field takes of a row; `none` where it raises or is not finite. -/
def seenNumber (m : Measure) (row : FactRow) (field : FieldName) : Option Seen :=
  match numericOrNone w (row.resolveField field) with
  | none => some .nothing
  | some value =>
    match m.minus with
    | none =>
      match value with
      | .finite q => some (.number q)
      | _ => none
    | some minus =>
      match numericOrNone w (row.resolveField minus) with
      | none => some .nothing
      | some other =>
        match Number.sub decimalContext value other with
        | some (.finite q) => some (.number q)
        | _ => none

/-- What a row brings to a measure; `none` where the fold raises or meets a number that is not finite. -/
def seen (d : MetricDefinition) (m : Measure) (row : FactRow) : Option Seen :=
  if contributes row d m then
    match m.field with
    | none => if m.minus = none ∧ m.aggregation = .count then some .tick else none
    | some field =>
      if m.aggregation = .distinct then
        (distinctKey w (row.resolveField field)).map fun
          | none => .nothing
          | some key => .key key
      else seenNumber w m row field
  else some .nothing

/-- The numbers among what was seen. -/
def numbers (ss : List Seen) : List ℚ := ss.filterMap fun
  | .number q => some q
  | _ => none

/-- Their squares. -/
def squares (ss : List Seen) : List ℚ := (numbers ss).map fun q => q * q

/-- The keys among what was seen. -/
def keys (ss : List Seen) : List String := ss.filterMap fun
  | .key k => some k
  | _ => none

/-- How much was seen. -/
def counted (ss : List Seen) : ℕ := ss.countP fun s => decide (s ≠ .nothing)

/-- The band counts of some numbers. -/
def bandCounts (vs : List ℚ) : List ℕ :=
  (List.range bands).map fun i => vs.countP fun q => decide (bandOf (.finite q) = some i)

/-- The sketch of some keys. -/
def sketchOf (ks : List String) : Sketch := ks.foldl (Sketch.add w) Sketch.empty

/-- The bucket with the roles of `shape` that saw `ss`. -/
def tally (shape : Roles) (ss : List Seen) : Roles where
  sumValue := shape.sumValue.map fun _ => .finite (numbers ss).sum
  countValue := shape.countValue.map fun _ => counted ss
  sumSq := shape.sumSq.map fun _ => .finite (squares ss).sum
  minValue := shape.minValue.map fun _ => (numbers ss).min?.map .finite
  maxValue := shape.maxValue.map fun _ => (numbers ss).max?.map .finite
  histogram := shape.histogram.map fun _ => bandCounts (numbers ss)
  distinctSketch := shape.distinctSketch.map fun _ => sketchOf w (keys ss)

/-- The sums of the roles of `shape` have room. -/
structure HasRoom (shape : Roles) (ss : List Seen) : Prop where
  sum : shape.sumValue.isSome → Fits decimalContext (numbers ss)
  sumSq : shape.sumSq.isSome → Fits decimalContext (squares ss)

/-- Ticks are for counts, keys for sketches. -/
def Seen.Suits (a : Aggregation) : Seen → Prop
  | .tick => a = .count
  | .key _ => a = .distinct
  | _ => True

@[simp] theorem numbers_append (xs ys : List Seen) : numbers (xs ++ ys) = numbers xs ++ numbers ys :=
  List.filterMap_append ..

@[simp] theorem squares_append (xs ys : List Seen) : squares (xs ++ ys) = squares xs ++ squares ys := by
  simp [squares]

@[simp] theorem keys_append (xs ys : List Seen) : keys (xs ++ ys) = keys xs ++ keys ys :=
  List.filterMap_append ..

@[simp] theorem counted_append (xs ys : List Seen) : counted (xs ++ ys) = counted xs + counted ys :=
  List.countP_append ..

theorem HasRoom.left {shape : Roles} {xs ys : List Seen} (h : HasRoom shape (xs ++ ys)) :
    HasRoom shape xs :=
  ⟨fun hs => (numbers_append xs ys ▸ h.sum hs).left, fun hs => (squares_append xs ys ▸ h.sumSq hs).left⟩

theorem HasRoom.perm {shape : Roles} {xs ys : List Seen} (h : HasRoom shape xs) (hp : xs.Perm ys) :
    HasRoom shape ys :=
  ⟨fun hs => (h.sum hs).perm (hp.filterMap _),
    fun hs => (h.sumSq hs).perm ((hp.filterMap _).map _)⟩

/-- A part of what has room has room. -/
theorem HasRoom.sublist {shape : Roles} {xs ys : List Seen} (h : HasRoom shape ys) (hsub : xs.Sublist ys) :
    HasRoom shape xs := by
  obtain ⟨rest, hperm⟩ := hsub.exists_perm_append
  exact (h.perm hperm).left

/-! ## §3. The order does not matter. -/

/-- The sketch of one key. -/
def Sketch.single (key : String) : Sketch := Sketch.add w Sketch.empty key

theorem Sketch.add_eq (sketch : Sketch) (key : String) :
    sketch.add w key = fun i => max (sketch i) (Sketch.single w key i) := by
  funext i
  have hstep : ∀ (s : Sketch) (j : Fin registers) (rho : ℕ),
      (if rho ≤ s j then s else Function.update s j rho) i = max (s i) (if i = j then rho else 0) := by
    intro s j rho
    by_cases hij : i = j
    · subst hij
      split
      · simp only [if_true]
        omega
      · simp only [Function.update_self, if_true]
        omega
    · rw [if_neg hij, Nat.max_zero]
      split
      · rfl
      · exact Function.update_of_ne hij _ _
  unfold Sketch.single Sketch.add
  rw [hstep, hstep]
  simp [Sketch.empty]

theorem Sketch.union_eq (a b : Sketch) : a.union b = fun i => max (a i) (b i) := by
  unfold Sketch.union
  split
  · next h => subst h; funext i; simp [Sketch.empty]
  · split
    · next h => subst h; funext i; simp [Sketch.empty]
    · rfl

/-- A register holds the largest value a key gives it. -/
theorem foldl_add_eq (ks : List String) (sketch : Sketch) (i : Fin registers) :
    ks.foldl (Sketch.add w) sketch i = max (sketch i) (sketchOf w ks i) := by
  induction ks generalizing sketch with
  | nil => simp [sketchOf, Sketch.empty]
  | cons k ks ih =>
    have hfirst : sketchOf w (k :: ks) i =
        max (Sketch.single w k i) (sketchOf w ks i) := by
      show ks.foldl (Sketch.add w) (Sketch.add w Sketch.empty k) i = _
      rw [ih]
      rfl
    rw [List.foldl_cons, ih, hfirst, Sketch.add_eq, max_assoc]

theorem sketchOf_append (xs ys : List String) :
    sketchOf w (xs ++ ys) = (sketchOf w xs).union (sketchOf w ys) := by
  rw [Sketch.union_eq]
  funext i
  show (xs ++ ys).foldl (Sketch.add w) Sketch.empty i = _
  rw [List.foldl_append, foldl_add_eq]
  rfl

theorem sketchOf_perm {xs ys : List String} (h : xs.Perm ys) : sketchOf w xs = sketchOf w ys := by
  induction h with
  | nil => rfl
  | @cons k zs zs' _ ih =>
    have happ : ∀ zs, sketchOf w (k :: zs) = (sketchOf w [k]).union (sketchOf w zs) :=
      fun zs => sketchOf_append w [k] zs
    rw [happ zs, happ zs', ih]
  | swap k l zs =>
    have happ : ∀ a b, sketchOf w (a :: b :: zs) =
        ((sketchOf w [a]).union (sketchOf w [b])).union (sketchOf w zs) := by
      intro a b
      rw [← sketchOf_append, ← sketchOf_append]
      rfl
    rw [happ, happ]
    simp only [Sketch.union_eq]
    funext i
    rw [max_comm (sketchOf w [l] i)]
  | trans _ _ ih₁ ih₂ => exact ih₁.trans ih₂

theorem bandCounts_append (xs ys : List ℚ) :
    bandCounts (xs ++ ys) = (List.range bands).map fun i =>
      (bandCounts xs).getD i 0 + (bandCounts ys).getD i 0 := by
  unfold bandCounts
  apply List.map_congr_left
  intro i hi
  have hlt : i < bands := List.mem_range.mp hi
  simp [List.getD_eq_getElem?_getD, hlt]

theorem bandCounts_perm {xs ys : List ℚ} (h : xs.Perm ys) : bandCounts xs = bandCounts ys := by
  unfold bandCounts
  apply List.map_congr_left
  intro i _
  exact h.countP_eq _

theorem min?_perm {xs ys : List ℚ} (h : xs.Perm ys) : xs.min? = ys.min? := by
  cases hx : xs.min? with
  | none =>
    obtain rfl := List.min?_eq_none_iff.mp hx
    rw [h.symm.eq_nil]
    rfl
  | some a =>
    obtain ⟨ha, hle⟩ := List.min?_eq_some_iff.mp hx
    exact (List.min?_eq_some_iff.mpr ⟨h.mem_iff.mp ha, fun b hb => hle b (h.mem_iff.mpr hb)⟩).symm

theorem max?_perm {xs ys : List ℚ} (h : xs.Perm ys) : xs.max? = ys.max? := by
  cases hx : xs.max? with
  | none =>
    obtain rfl := List.max?_eq_none_iff.mp hx
    rw [h.symm.eq_nil]
    rfl
  | some a =>
    obtain ⟨ha, hle⟩ := List.max?_eq_some_iff.mp hx
    exact (List.max?_eq_some_iff.mpr ⟨h.mem_iff.mp ha, fun b hb => hle b (h.mem_iff.mpr hb)⟩).symm

/-- **What is seen in another order makes the same bucket.** -/
theorem tally_perm {shape : Roles} {xs ys : List Seen} (h : xs.Perm ys) :
    tally w shape xs = tally w shape ys := by
  have hn : (numbers xs).Perm (numbers ys) := h.filterMap _
  have hs : (squares xs).Perm (squares ys) := hn.map _
  have hk : (keys xs).Perm (keys ys) := h.filterMap _
  have hc : counted xs = counted ys := h.countP_eq _
  unfold tally
  rw [hn.sum_eq, hs.sum_eq, hc, min?_perm hn, max?_perm hn, bandCounts_perm hn, sketchOf_perm w hk]

/-! ## §4. Merging. -/

theorem min?_append (xs ys : List ℚ) :
    (xs ++ ys).min? = match xs.min?, ys.min? with
      | none, b => b
      | a, none => a
      | some a, some b => some (min a b) := by
  induction xs with
  | nil => cases h : ([] ++ ys).min? <;> simp_all
  | cons x xs ih =>
    rw [List.cons_append, List.min?_cons, List.min?_cons, ih]
    cases xs.min? <;> cases ys.min? <;> simp [min_assoc]

theorem max?_append (xs ys : List ℚ) :
    (xs ++ ys).max? = match xs.max?, ys.max? with
      | none, b => b
      | a, none => a
      | some a, some b => some (max a b) := by
  induction xs with
  | nil => cases h : ([] ++ ys).max? <;> simp_all
  | cons x xs ih =>
    rw [List.cons_append, List.max?_cons, List.max?_cons, ih]
    cases xs.max? <;> cases ys.max? <;> simp [max_assoc]

/-- The least of two lots of numbers. -/
theorem addExtremes_min (xs ys : List ℚ) :
    addExtremes takesMin (some (xs.min?.map .finite)) (some (ys.min?.map .finite)) =
      some (some ((xs ++ ys).min?.map .finite)) := by
  rw [min?_append]
  cases xs.min? with
  | none => cases ys.min? <;> simp [addExtremes]
  | some a =>
    cases ys.min? with
    | none => simp [addExtremes]
    | some b =>
      simp only [addExtremes, Option.map_some, Option.join_some, takesMin, Number.lt]
      by_cases h : b < a
      · simp [h, min_eq_right h.le]
      · simp [h, min_eq_left (not_lt.mp h)]

/-- The greatest of two lots of numbers. -/
theorem addExtremes_max (xs ys : List ℚ) :
    addExtremes takesMax (some (xs.max?.map .finite)) (some (ys.max?.map .finite)) =
      some (some ((xs ++ ys).max?.map .finite)) := by
  rw [max?_append]
  cases xs.max? with
  | none => cases ys.max? <;> simp [addExtremes]
  | some a =>
    cases ys.max? with
    | none => simp [addExtremes]
    | some b =>
      simp only [addExtremes, Option.map_some, Option.join_some, takesMax, Number.lt]
      by_cases h : a < b
      · simp [h, max_eq_right h.le]
      · simp [h, max_eq_left (not_lt.mp h)]

@[simp] theorem length_bandCounts (vs : List ℚ) : (bandCounts vs).length = bands := by
  simp [bandCounts]

/-- **Merging two tallies is the tally of both**, where the sums of both have room. -/
theorem addRoles_tally {shape : Roles} {xs ys : List Seen} (h : HasRoom shape (xs ++ ys)) :
    addRoles (tally w shape xs) (tally w shape ys) = some (tally w shape (xs ++ ys)) := by
  -- role by role, where the shape has it
  have hsum : addSums (tally w shape xs).sumValue (tally w shape ys).sumValue =
      some (tally w shape (xs ++ ys)).sumValue := by
    cases hs : shape.sumValue with
    | none => simp [tally, hs, addSums]
    | some x =>
      have hfits : Fits decimalContext (numbers xs ++ numbers ys) :=
        numbers_append xs ys ▸ h.sum (by simp [hs])
      simp [tally, hs, addSums, hfits.add_sum]
  have hsq : addSums (tally w shape xs).sumSq (tally w shape ys).sumSq =
      some (tally w shape (xs ++ ys)).sumSq := by
    cases hs : shape.sumSq with
    | none => simp [tally, hs, addSums]
    | some x =>
      have hfits : Fits decimalContext (squares xs ++ squares ys) :=
        squares_append xs ys ▸ h.sumSq (by simp [hs])
      simp [tally, hs, addSums, hfits.add_sum]
  have hmin : addExtremes takesMin (tally w shape xs).minValue (tally w shape ys).minValue =
      some (tally w shape (xs ++ ys)).minValue := by
    cases hs : shape.minValue with
    | none => simp [tally, hs, addExtremes]
    | some x => simp [tally, hs, addExtremes_min]
  have hmax : addExtremes takesMax (tally w shape xs).maxValue (tally w shape ys).maxValue =
      some (tally w shape (xs ++ ys)).maxValue := by
    cases hs : shape.maxValue with
    | none => simp [tally, hs, addExtremes]
    | some x => simp [tally, hs, addExtremes_max]
  have hcount : addCounts (tally w shape xs).countValue (tally w shape ys).countValue =
      (tally w shape (xs ++ ys)).countValue := by
    cases hs : shape.countValue <;> simp [tally, hs, addCounts]
  have hbands : addBands (tally w shape xs).histogram (tally w shape ys).histogram =
      (tally w shape (xs ++ ys)).histogram := by
    cases hs : shape.histogram <;> simp [tally, hs, addBands, bandCounts_append]
  have hsketch : addSketches (tally w shape xs).distinctSketch (tally w shape ys).distinctSketch =
      (tally w shape (xs ++ ys)).distinctSketch := by
    cases hs : shape.distinctSketch <;> simp [tally, hs, addSketches, sketchOf_append]
  unfold addRoles
  rw [hsum, hsq, hmin, hmax, hcount, hbands, hsketch]
  rfl

/-! ## §5. The fold. -/

/-- What was seen, into the bucket. -/
def absorb (bucket : Roles) : Seen → Option Roles
  | .nothing => some bucket
  | .tick => record {} bucket none
  | .number q => record {} bucket (some (.finite q))
  | .key k => some { bucket with
      distinctSketch := bucket.distinctSketch.map fun sketch => sketch.add w k
      countValue := bucket.countValue.map (· + 1) }

/-- What one row does to the bucket of one measure. -/
def step (d : MetricDefinition) (m : Measure) (bucket : Roles) (row : FactRow) : Option Roles :=
  if contributes row d m then observe w row m bucket else some bucket

/-- Without a reading to keep, only the value counts. -/
theorem record_eq {row : FactRow} {bucket : Roles} (value : Option Number) (h : bucket.latest = none) :
    record row bucket value = record {} bucket value := by
  unfold record
  simp only [h, Option.map_none]

/-- A measure of numbers sees a number or nothing. -/
theorem seenNumber_cases {m : Measure} {row : FactRow} {field : FieldName} {s : Seen}
    (h : seenNumber w m row field = some s) : s = .nothing ∨ ∃ q, s = .number q := by
  unfold seenNumber at h
  split at h
  · exact Or.inl (Option.some.inj h).symm
  · split at h
    · split at h
      · exact Or.inr ⟨_, (Option.some.inj h).symm⟩
      · simp at h
    · split at h
      · exact Or.inl (Option.some.inj h).symm
      · split at h
        · exact Or.inr ⟨_, (Option.some.inj h).symm⟩
        · simp at h

/-- What a row brings suits the measure. -/
theorem seen_suits {d : MetricDefinition} {m : Measure} {row : FactRow} {s : Seen}
    (h : seen w d m row = some s) : s.Suits m.aggregation := by
  unfold seen at h
  split at h
  · split at h
    · split at h
      · next hcount =>
        obtain rfl := Option.some.inj h
        exact hcount.2
      · simp at h
    · split at h
      · next hdistinct =>
        obtain ⟨key, -, rfl⟩ := Option.map_eq_some_iff.mp h
        cases key with
        | none => trivial
        | some k => exact hdistinct
      · rcases seenNumber_cases w h with rfl | ⟨q, rfl⟩
        · trivial
        · trivial
  · obtain rfl := Option.some.inj h
    trivial

/-- The path of a number, in terms of what was seen. -/
theorem recordNumber_eq {m : Measure} {row : FactRow} {field : FieldName} {bucket : Roles} {s : Seen}
    (hf : m.field = some field) (hl : bucket.latest = none)
    (h : seenNumber w m row field = some s) : recordNumber w row m bucket = absorb w bucket s := by
  unfold seenNumber at h
  unfold recordNumber
  simp only [hf, Option.bind_some, Option.isSome_some, true_and]
  split at h
  · next hvalue =>
    obtain rfl := Option.some.inj h
    rw [hvalue]
    rfl
  · next value hvalue =>
    -- a number was read, and a subtracted field may take from it
    rw [hvalue, if_neg (by simp)]
    cases hm : m.minus with
    | none =>
      rw [hm] at h
      cases value with
      | finite q =>
        obtain rfl := Option.some.inj h
        exact record_eq _ hl
      | _ => simp at h
    | some minus =>
      rw [hm] at h
      simp only at h ⊢
      cases hother : numericOrNone w (row.resolveField minus) with
      | none =>
        rw [hother] at h
        obtain rfl := Option.some.inj h
        rfl
      | some other =>
        rw [hother] at h
        simp only at h ⊢
        cases hsub : Number.sub decimalContext value other with
        | none => simp [hsub] at h
        | some difference =>
          rw [hsub] at h
          cases difference with
          | finite q =>
            obtain rfl := Option.some.inj h
            rw [Option.bind_some, hsub, Option.bind_some]
            exact record_eq _ hl
          | _ => simp at h

/-- One row, in terms of what was seen. -/
theorem step_eq {d : MetricDefinition} {m : Measure} {row : FactRow} {bucket : Roles} {s : Seen}
    (hl : bucket.latest = none) (hd : bucket.distinctSketch.isSome ↔ m.aggregation = .distinct)
    (h : seen w d m row = some s) : step w d m bucket row = absorb w bucket s := by
  unfold seen at h
  unfold step
  split at h
  · next hcontributes =>
    rw [if_pos hcontributes]
    unfold observe
    cases hsketch : bucket.distinctSketch with
    | none =>
      -- without a sketch the measure is no distinct count
      have hnot : m.aggregation ≠ .distinct := by
        intro heq
        have hsome := hd.mpr heq
        simp [hsketch] at hsome
      simp only [hnot, if_false] at h
      cases hf : m.field with
      | none =>
        simp only [hf] at h
        split at h
        · next hcount =>
          obtain rfl := Option.some.inj h
          simp only [recordNumber, hf, hcount.1, Option.bind_none, Option.isSome_none,
            Bool.false_eq_true, false_and, if_false]
          exact record_eq _ hl
        · simp at h
      | some field =>
        simp only [hf] at h
        exact recordNumber_eq w hf hl h
    | some sketch =>
      have hdistinct : m.aggregation = .distinct := hd.mp (by simp [hsketch])
      cases hf : m.field with
      | none => simp [hf, hdistinct] at h
      | some field =>
        simp only [hf, hdistinct, if_true] at h
        obtain ⟨key, hkey, rfl⟩ := Option.map_eq_some_iff.mp h
        simp only [recordDistinct, hf, hkey, Option.map_some]
        cases key with
        | none => rfl
        | some k => simp [absorb, hsketch]
  · next hcontributes =>
    rw [if_neg hcontributes]
    obtain rfl := Option.some.inj h
    rfl

theorem extreme_min (vs : List ℚ) (q : ℚ) :
    extreme takesMin (vs.min?.map .finite) (some (.finite q)) =
      some ((vs ++ [q]).min?.map .finite) := by
  rw [min?_append]
  cases vs.min? with
  | none => simp [extreme]
  | some a =>
    simp only [extreme, takesMin, Number.lt, Option.map_some, Option.bind_some, List.min?_singleton]
    by_cases h : q < a
    · simp [h, min_eq_right h.le]
    · simp [h, min_eq_left (not_lt.mp h)]

theorem extreme_max (vs : List ℚ) (q : ℚ) :
    extreme takesMax (vs.max?.map .finite) (some (.finite q)) =
      some ((vs ++ [q]).max?.map .finite) := by
  rw [max?_append]
  cases vs.max? with
  | none => simp [extreme]
  | some a =>
    simp only [extreme, takesMax, Number.lt, Option.map_some, Option.bind_some, List.max?_singleton]
    by_cases h : a < q
    · simp [h, max_eq_right h.le]
    · simp [h, max_eq_left (not_lt.mp h)]

theorem addBand_bandCounts (vs : List ℚ) (q : ℚ) :
    addBand (bandCounts vs) (.finite q) = some (bandCounts (vs ++ [q])) := by
  have hfloat : ∃ x, float (.finite q) = some x := by
    unfold float
    dsimp only
    generalize doubleFormat.round q = r
    cases r with
    | none => exact ⟨_, rfl⟩
    | some r => exact ⟨_, rfl⟩
  obtain ⟨x, hx⟩ := hfloat
  obtain ⟨band, hband⟩ : ∃ band, bandOf (.finite q) = some band := by
    rw [bandOf, hx]
    exact ⟨_, rfl⟩
  have hne : bandCounts vs ≠ [] := by
    intro hnil
    have hlen := length_bandCounts vs
    simp [hnil] at hlen
  unfold addBand
  simp only [hband, Option.map_some, if_neg hne]
  rw [length_bandCounts, Nat.sub_self, List.replicate_zero,
    List.append_nil]
  congr 1
  apply List.ext_getElem
  · simp
  · intro i h₁ h₂
    have hi : i < bands := by simpa using h₂
    rw [List.getElem_modify]
    simp only [bandCounts, List.getElem_map, List.getElem_range, List.countP_append,
      List.countP_singleton, hband, Option.some.injEq, decide_eq_true_eq]
    by_cases hb : band = i
    · simp [hb]
    · simp [hb]

/-- **One more thing seen.** -/
theorem absorb_tally {a : Aggregation} {ss : List Seen} {s : Seen} (hs : s.Suits a)
    (h : HasRoom a.emptyRoles (ss ++ [s])) :
    absorb w (tally w a.emptyRoles ss) s = some (tally w a.emptyRoles (ss ++ [s])) := by
  cases s with
  | nothing => simp [absorb, tally, numbers, squares, keys, counted]
  | key k =>
    -- a key is counted and goes to the sketch
    have hk : keys (ss ++ [.key k]) = keys ss ++ [k] := by simp [keys]
    have hn : numbers (ss ++ [.key k]) = numbers ss := by simp [numbers]
    have hsketch : sketchOf w (keys ss ++ [k]) = (sketchOf w (keys ss)).add w k := by
      simp [sketchOf]
    cases hs
    simp [absorb, tally, squares, hk, hn, hsketch, counted, Aggregation.emptyRoles]
  | tick =>
    -- a tick is only counted
    have hn : numbers (ss ++ [.tick]) = numbers ss := by simp [numbers]
    have hk : keys (ss ++ [.tick]) = keys ss := by simp [keys]
    cases hs
    simp [absorb, tally, record, onRole, counted, Aggregation.emptyRoles]
  | number q =>
    have hn : numbers (ss ++ [.number q]) = numbers ss ++ [q] := by simp [numbers]
    have hk : keys (ss ++ [.number q]) = keys ss := by simp [keys]
    have hq : squares (ss ++ [.number q]) = squares ss ++ [q * q] := by simp [squares, hn]
    have hc : counted (ss ++ [.number q]) = counted ss + 1 := by simp [counted]
    -- role by role: each is absent, or takes the number without rounding because there is room
    have hsum : onRole (tally w a.emptyRoles ss).sumValue
        (fun x => Number.add decimalContext x (.finite q)) =
          some (tally w a.emptyRoles (ss ++ [.number q])).sumValue := by
      cases hr : a.emptyRoles.sumValue with
      | none => simp [tally, hr, onRole]
      | some x =>
        have hadd := (hn ▸ h.sum (by simp [hr])).add_sum
        simp only [List.sum_singleton] at hadd
        simp [tally, hr, onRole, hn, hadd]
    have hsq : onRole (tally w a.emptyRoles ss).sumSq (fun x =>
        (Number.mul decimalContext (.finite q) (.finite q)).bind (Number.add decimalContext x)) =
          some (tally w a.emptyRoles (ss ++ [.number q])).sumSq := by
      cases hr : a.emptyRoles.sumSq with
      | none => simp [tally, hr, onRole]
      | some x =>
        have hfits := hq ▸ h.sumSq (by simp [hr])
        have hadd := hfits.add_sum
        have hmul : decimalContext.round (q * q) = some (q * q) := by
          simpa using hfits.right.round_sum
        simp only [List.sum_singleton] at hadd
        simp [tally, hr, onRole, hq, hadd, Number.mul, hmul]
    have hmin : onRole (tally w a.emptyRoles ss).minValue
        (fun cur => extreme takesMin cur (some (.finite q))) =
          some (tally w a.emptyRoles (ss ++ [.number q])).minValue := by
      cases hr : a.emptyRoles.minValue with
      | none => simp [tally, hr, onRole]
      | some x => simp [tally, hr, onRole, hn, extreme_min]
    have hmax : onRole (tally w a.emptyRoles ss).maxValue
        (fun cur => extreme takesMax cur (some (.finite q))) =
          some (tally w a.emptyRoles (ss ++ [.number q])).maxValue := by
      cases hr : a.emptyRoles.maxValue with
      | none => simp [tally, hr, onRole]
      | some x => simp [tally, hr, onRole, hn, extreme_max]
    have hhist : onRole (tally w a.emptyRoles ss).histogram
        (fun counts => addBand counts (.finite q)) =
          some (tally w a.emptyRoles (ss ++ [.number q])).histogram := by
      cases hr : a.emptyRoles.histogram with
      | none => simp [tally, hr, onRole]
      | some x => simp [tally, hr, onRole, hn, addBand_bandCounts]
    unfold absorb record
    simp only [Option.bind_some]
    rw [hsum, hsq, hmin, hmax, hhist]
    simp only [Option.bind_eq_bind, Option.bind_some, Option.pure_def]
    simp [tally, hk, hc, Option.map_map, Function.comp_def]

theorem tally_nil {a : Aggregation} (ha : a ≠ .latest) : tally w a.emptyRoles [] = a.emptyRoles := by
  cases a with
  | latest => exact absurd rfl ha
  | _ => rfl

/-- What the rows of a list bring. -/
def seenAll (d : MetricDefinition) (m : Measure) (rows : List FactRow) : List Seen :=
  rows.map fun row => (seen w d m row).getD .nothing

/-- Every row brings something that can be told. -/
def Told (d : MetricDefinition) (m : Measure) (rows : List FactRow) : Prop :=
  ∀ row ∈ rows, (seen w d m row).isSome

/-- **The bucket of a fold is the tally of what its rows bring.** -/
theorem foldMeasure_tally {d : MetricDefinition} {m : Measure} {rows : List FactRow}
    (ha : m.aggregation ≠ .latest) (ht : Told w d m rows)
    (h : HasRoom m.aggregation.emptyRoles (seenAll w d m rows)) :
    rows.foldlM (step w d m) m.aggregation.emptyRoles =
      some (tally w m.aggregation.emptyRoles (seenAll w d m rows)) := by
  induction rows using List.reverseRecOn with
  | nil =>
    show some _ = some (tally w m.aggregation.emptyRoles [])
    rw [tally_nil w ha]
  | append_singleton rows row ih =>
    have hall : seenAll w d m (rows ++ [row]) =
        seenAll w d m rows ++ [(seen w d m row).getD .nothing] := by simp [seenAll]
    obtain ⟨s, hs⟩ := Option.isSome_iff_exists.mp (ht row (by simp))
    rw [hall, hs, Option.getD_some] at h
    have hbucket := ih (fun row' hrow' => ht row' (by simp [hrow'])) h.left
    have hl : (tally w m.aggregation.emptyRoles (seenAll w d m rows)).latest = none := rfl
    have hd : (tally w m.aggregation.emptyRoles (seenAll w d m rows)).distinctSketch.isSome ↔
        m.aggregation = .distinct := by
      cases m.aggregation <;> simp [tally, Aggregation.emptyRoles]
    rw [List.foldlM_append, hbucket, hall, hs, Option.getD_some]
    simp only [List.foldlM_cons, List.foldlM_nil, Option.bind_eq_bind, Option.bind_some, bind_pure]
    rw [step_eq w hl hd hs]
    exact absorb_tally w (seen_suits w hs) h

/-- One row and one measure change one bucket. -/
theorem foldMeasure_cases {d : MetricDefinition} {row : FactRow} {out out' : Buckets} {m : Measure}
    (h : foldMeasure w d row out m = some out') :
    (∀ name, name ≠ m.name → out' name = out name) ∧
      ∀ b, out m.name = some b → ∃ b', step w d m b row = some b' ∧ out' m.name = some b' := by
  unfold foldMeasure at h
  unfold step
  split at h
  · next hcontributes =>
    obtain ⟨b, hb, h⟩ := Option.bind_eq_some_iff.mp h
    obtain ⟨b', hb', rfl⟩ := Option.map_eq_some_iff.mp h
    constructor
    · intro name hname
      exact Function.update_of_ne hname _ _
    · intro c hc
      obtain rfl : b = c := Option.some.inj (hb.symm.trans hc)
      exact ⟨b', by rw [if_pos hcontributes, hb'], by simp⟩
  · next hcontributes =>
    obtain rfl := Option.some.inj h
    exact ⟨fun _ _ => rfl, fun b hb => ⟨b, by rw [if_neg hcontributes], hb⟩⟩

/-- One row changes the bucket of each measure, when the measures have names of their own. -/
theorem foldMeasures_cases {d : MetricDefinition} {row : FactRow} (ms : List Measure)
    (hn : (ms.map Measure.name).Nodup) {out out' : Buckets}
    (h : ms.foldlM (foldMeasure w d row) out = some out') :
    (∀ name, name ∉ ms.map Measure.name → out' name = out name) ∧
      ∀ m ∈ ms, ∀ b, out m.name = some b →
        ∃ b', step w d m b row = some b' ∧ out' m.name = some b' := by
  induction ms generalizing out with
  | nil =>
    obtain rfl := Option.some.inj h
    exact ⟨fun _ _ => rfl, fun m hm => absurd hm List.not_mem_nil⟩
  | cons k ms ih =>
    obtain ⟨hk, hn⟩ := List.nodup_cons.mp hn
    rw [List.foldlM_cons] at h
    obtain ⟨mid, hmid, hrest⟩ := Option.bind_eq_some_iff.mp h
    obtain ⟨hother, hone⟩ := foldMeasure_cases w hmid
    obtain ⟨hothers, hall⟩ := ih hn hrest
    constructor
    · intro name hname
      rw [List.map_cons, List.mem_cons, not_or] at hname
      rw [hothers name hname.2, hother name hname.1]
    · intro m hm b hb
      rcases List.mem_cons.mp hm with rfl | hm
      -- this measure: the later ones have other names
      · obtain ⟨b', hstep, hb'⟩ := hone b hb
        exact ⟨b', hstep, by rw [hothers _ hk, hb']⟩
      · have hne : m.name ≠ k.name := fun heq => hk (heq ▸ List.mem_map_of_mem hm)
        exact hall m hm b (by rw [hother _ hne, hb])

/-- The fold of one measure among the others. -/
theorem foldRows_step {d : MetricDefinition} (hn : (d.measures.map Measure.name).Nodup) {m : Measure}
    (hm : m ∈ d.measures) (rows : List FactRow) {out out' : Buckets} {b : Roles}
    (hb : out m.name = some b)
    (h : rows.foldlM (fun out row => d.measures.foldlM (foldMeasure w d row) out) out = some out') :
    rows.foldlM (step w d m) b = out' m.name := by
  induction rows generalizing out b with
  | nil =>
    obtain rfl := Option.some.inj h
    exact hb.symm
  | cons row rows ih =>
    rw [List.foldlM_cons] at h
    obtain ⟨mid, hmid, hrest⟩ := Option.bind_eq_some_iff.mp h
    obtain ⟨b', hstep, hb'⟩ := (foldMeasures_cases w d.measures hn hmid).2 m hm b hb
    rw [List.foldlM_cons, hstep]
    exact ih hb' hrest

/-- Where the keys are distinct, one element has the key of an element. -/
theorem filter_key {α β : Type} [DecidableEq β] (key : α → β) (l : List α)
    (hn : (l.map key).Nodup) {x : α} (hx : x ∈ l) :
    (l.filter fun y => decide (key y = key x)) = [x] := by
  induction l with
  | nil => exact absurd hx List.not_mem_nil
  | cons k l ih =>
    obtain ⟨hk, hn⟩ := List.nodup_cons.mp hn
    rcases List.mem_cons.mp hx with rfl | hx
    · have hrest : l.filter (fun y => decide (key y = key x)) = [] := by
        rw [List.filter_eq_nil_iff]
        intro k' hk' heq
        exact hk (of_decide_eq_true heq ▸ List.mem_map_of_mem hk')
      rw [List.filter_cons_of_pos (by simp), hrest]
    · have hne : key k ≠ key x := fun heq => hk (heq ▸ List.mem_map_of_mem hx)
      rw [List.filter_cons_of_neg (by simpa using hne)]
      exact ih hn hx

theorem empty_at {d : MetricDefinition} (hn : (d.measures.map Measure.name).Nodup) {m : Measure}
    (hm : m ∈ d.measures) : d.empty m.name = some m.aggregation.emptyRoles := by
  unfold MetricDefinition.empty
  rw [filter_key Measure.name d.measures hn hm]
  rfl

/-- **The bucket of a measure after `fold`.** -/
theorem foldRows_tally {d : MetricDefinition} (hn : (d.measures.map Measure.name).Nodup) {m : Measure}
    (hm : m ∈ d.measures) (ha : m.aggregation ≠ .latest) {rows : List FactRow} {out : Buckets}
    (hout : foldRows w d rows = some out) (ht : Told w d m rows)
    (h : HasRoom m.aggregation.emptyRoles (seenAll w d m rows)) :
    out m.name = some (tally w m.aggregation.emptyRoles (seenAll w d m rows)) := by
  rw [← foldRows_step w hn hm rows (empty_at hn hm) hout]
  exact foldMeasure_tally w ha ht h

/-! ## §6. Buckets that saw nothing. -/

/-- Where nothing counted, nothing was seen. -/
theorem nothing_of_counted {ss : List Seen} (h : counted ss = 0) : numbers ss = [] ∧ keys ss = [] := by
  have hall : ∀ s ∈ ss, s = .nothing := by
    intro s hs
    simpa using List.countP_eq_zero.mp h s hs
  constructor
  · rw [numbers, List.filterMap_eq_nil_iff]
    intro s hs
    rw [hall s hs]
  · rw [keys, List.filterMap_eq_nil_iff]
    intro s hs
    rw [hall s hs]

/-- Only a sketch sees keys. -/
theorem keys_eq_nil {a : Aggregation} {ss : List Seen} (hs : ∀ s ∈ ss, s.Suits a) (ha : a ≠ .distinct) :
    keys ss = [] := by
  rw [keys, List.filterMap_eq_nil_iff]
  intro s hmem
  cases s with
  | key k => exact absurd (hs _ hmem) ha
  | _ => rfl

/-- A bucket that is empty saw nothing. -/
theorem nothing_of_isEmpty {a : Aggregation} {ss : List Seen} (hs : ∀ s ∈ ss, s.Suits a)
    (h : (tally w a.emptyRoles ss).isEmpty = true) :
    numbers ss = [] ∧ keys ss = [] ∧ (a ≠ .extent → counted ss = 0) := by
  by_cases ha : a = .extent
  · subst ha
    have hmin : (numbers ss).min? = none := by
      cases hmin : (numbers ss).min? with
      | none => rfl
      | some q => simp [tally, Roles.isEmpty, Aggregation.emptyRoles, hmin] at h
    exact ⟨List.min?_eq_none_iff.mp hmin, keys_eq_nil hs (by simp), fun hne => absurd rfl hne⟩
  · have hc : counted ss = 0 := by
      cases a with
      | extent => exact absurd rfl ha
      | _ =>
        simp [tally, Roles.isEmpty, Aggregation.emptyRoles] at h
        exact of_decide_eq_true h
    obtain ⟨hn, hk⟩ := nothing_of_counted hc
    exact ⟨hn, hk, fun _ => hc⟩

/-- Leaving out what saw nothing changes no tally. -/
theorem tally_append_empty {a : Aggregation} {xs ys : List Seen} (hs : ∀ s ∈ ys, s.Suits a)
    (h : (tally w a.emptyRoles ys).isEmpty = true) :
    tally w a.emptyRoles (xs ++ ys) = tally w a.emptyRoles xs := by
  obtain ⟨hn, hk, hc⟩ := nothing_of_isEmpty w hs h
  have hq : squares ys = [] := by simp [squares, hn]
  have hcount : a.emptyRoles.countValue.map (fun _ => counted xs + counted ys) =
      a.emptyRoles.countValue.map fun _ => counted xs := by
    by_cases ha : a = .extent
    · subst ha
      rfl
    · rw [hc ha, Nat.add_zero]
  unfold tally
  rw [numbers_append, squares_append, keys_append, counted_append, hn, hk, hq, hcount]
  simp only [List.append_nil]

/-- Several buckets, merged into one that has no role yet. -/
def mergeAll (bs : List Roles) : Option Roles := bs.foldlM addRoles {}

/-- A tally, added to nothing. -/
theorem addRoles_nothing {a : Aggregation} {ss : List Seen} (h : HasRoom a.emptyRoles ss) :
    addRoles {} (tally w a.emptyRoles ss) = some (tally w a.emptyRoles ss) := by
  have hzero : ∀ {vs : List ℚ}, Fits decimalContext vs →
      Number.add decimalContext .zero (.finite vs.sum) = some (.finite vs.sum) := by
    intro vs hvs
    simp [Number.add, Number.zero, hvs.round_sum]
  have hsum : addSums none (tally w a.emptyRoles ss).sumValue =
      some (tally w a.emptyRoles ss).sumValue := by
    rw [addSums_none]
    cases hr : a.emptyRoles.sumValue with
    | none => simp [tally, hr, onRole]
    | some x => simp [tally, hr, onRole, hzero (h.sum (by simp [hr]))]
  have hsq : addSums none (tally w a.emptyRoles ss).sumSq =
      some (tally w a.emptyRoles ss).sumSq := by
    rw [addSums_none]
    cases hr : a.emptyRoles.sumSq with
    | none => simp [tally, hr, onRole]
    | some x => simp [tally, hr, onRole, hzero (h.sumSq (by simp [hr]))]
  have hextreme : ∀ (takes : Number → Number → Option Bool) (y : Option (Option Number)),
      addExtremes takes none y = some y := by
    intro takes y
    cases y with
    | none => rfl
    | some z => cases z <;> rfl
  unfold addRoles
  simp only [hsum, hsq, hextreme, addCounts_none, addBands_none, addSketches_none,
    Option.bind_eq_bind, Option.bind_some, Option.pure_def]
  rfl

/-- **Merging tallies is the tally of everything they saw.** -/
theorem mergeAll_tally {a : Aggregation} (ss : List Seen) (sss : List (List Seen))
    (h : HasRoom a.emptyRoles (ss ++ sss.flatten)) :
    mergeAll ((ss :: sss).map (tally w a.emptyRoles)) =
      some (tally w a.emptyRoles (ss ++ sss.flatten)) := by
  have hfold : ∀ (sss : List (List Seen)) (ss : List Seen), HasRoom a.emptyRoles (ss ++ sss.flatten) →
      (sss.map (tally w a.emptyRoles)).foldlM addRoles (tally w a.emptyRoles ss) =
        some (tally w a.emptyRoles (ss ++ sss.flatten)) := by
    intro sss
    induction sss with
    | nil =>
      intro ss _
      simp
    | cons zs sss ih =>
      intro ss h
      rw [List.flatten_cons, ← List.append_assoc] at h ⊢
      rw [List.map_cons, List.foldlM_cons, addRoles_tally w h.left]
      exact ih (ss ++ zs) h
  rw [mergeAll, List.map_cons, List.foldlM_cons, addRoles_nothing w h.left]
  exact hfold sss ss h

end RagPipeline.Analytics
