/-
  RagPipeline.Analytics.Percentile — `histogram.percentile`, on exact rationals.

  The walk over the cumulative counts stops in the first band that reaches over the rank
  (`crossing_spec`), so of two ranks the smaller one stops in no later band, and in the same band the
  interpolation is monotone.

    * `LiesIn`          — a value inside the edges of a band that counts something and in which the
                          cumulative count reaches the rank;
    * `percentile_mono` — a higher share has no lower percentile, and both lie within their bands.
-/
import RagPipeline.Analytics.Roles
import RagPipeline.Lib.Rounding

namespace RagPipeline.Analytics

open RagPipeline.Lib

/-! ## §1. The walk. -/

def lowerEdge (band : ℕ) : ℕ := if band = 0 then 0 else 2 ^ (band - 1)

def upperEdge (band : ℕ) : ℕ := 2 ^ band

/-- `lo + fraction * (hi - lo)`. -/
def interpolate (band cumulative count : ℕ) (target : ℚ) : ℚ :=
  lowerEdge band + (target - cumulative) / count * (upperEdge band - lowerEdge band)

/-- The loop of `percentile`, from a band on. -/
def crossing (target : ℚ) : ℕ → ℕ → List ℕ → Option ℚ
  | _, _, [] => none
  | band, cumulative, count :: rest =>
    if 0 < count ∧ target < cumulative + count then some (interpolate band cumulative count target)
    else crossing target (band + 1) (cumulative + count) rest

/-- `max(i for i, c in enumerate(histogram) if c)`. -/
def lastCounted (histogram : List ℕ) : Option ℕ :=
  ((histogram.zipIdx.filter fun c => decide (c.1 ≠ 0)).map Prod.snd).max?

/-- `round(x, 3)`. -/
def round3 (x : ℚ) : ℚ := quantize halfEven 10 (-3) x

/-- `percentile`. -/
def percentile (histogram : Option (List ℕ)) (q : ℚ) : Option ℚ :=
  match histogram with
  | none => none
  | some histogram =>
    if histogram.sum = 0 then none
    else
      match crossing (q * histogram.sum) 0 0 histogram with
      | some x => some (round3 x)
      -- `q` at 1: nothing reaches over the whole count
      | none => (lastCounted histogram).map fun last => (upperEdge last : ℚ)

/-! ## §2. Edges. -/

theorem lowerEdge_le_upperEdge (band : ℕ) : lowerEdge band ≤ upperEdge band := by
  unfold lowerEdge upperEdge
  split
  · exact Nat.zero_le _
  · exact Nat.pow_le_pow_right (by omega) (by omega)

theorem upperEdge_le_lowerEdge {band band' : ℕ} (h : band < band') : upperEdge band ≤ lowerEdge band' := by
  unfold lowerEdge upperEdge
  rw [if_neg (by omega)]
  exact Nat.pow_le_pow_right (by omega) (by omega)

theorem upperEdge_mono {band band' : ℕ} (h : band ≤ band') : upperEdge band ≤ upperEdge band' :=
  Nat.pow_le_pow_right (by omega) h

/-- Inside a band the interpolation stays inside its edges, -/
theorem interpolate_within (band : ℕ) {cumulative count : ℕ} {target : ℚ} (hcount : 0 < count)
    (hlow : (cumulative : ℚ) ≤ target) (hhigh : target ≤ cumulative + count) :
    (lowerEdge band : ℚ) ≤ interpolate band cumulative count target ∧
      interpolate band cumulative count target ≤ upperEdge band := by
  have hpos : (0 : ℚ) < count := by exact_mod_cast hcount
  have hwidth : (0 : ℚ) ≤ upperEdge band - lowerEdge band := by
    have : (lowerEdge band : ℚ) ≤ upperEdge band := by exact_mod_cast lowerEdge_le_upperEdge band
    linarith
  have hzero : 0 ≤ (target - cumulative) / count := div_nonneg (by linarith) hpos.le
  have hone : (target - cumulative) / count ≤ 1 := by
    rw [div_le_one hpos]
    linarith
  unfold interpolate
  constructor
  · have := mul_nonneg hzero hwidth
    linarith
  · have := mul_le_mul_of_nonneg_right hone hwidth
    linarith

/-- and does not fall. -/
theorem interpolate_mono {band cumulative count : ℕ} {target target' : ℚ} (h : target ≤ target') :
    interpolate band cumulative count target ≤ interpolate band cumulative count target' := by
  have hwidth : (0 : ℚ) ≤ upperEdge band - lowerEdge band := by
    have : (lowerEdge band : ℚ) ≤ upperEdge band := by exact_mod_cast lowerEdge_le_upperEdge band
    linarith
  have hdiv : (target - cumulative) / count ≤ (target' - cumulative) / count := by
    apply div_le_div_of_nonneg_right _ (Nat.cast_nonneg count)
    linarith
  have := mul_le_mul_of_nonneg_right hdiv hwidth
  unfold interpolate
  linarith

/-! ## §3. Where the walk stops. -/

/-- The rank falls into this band: it counts something, and the count before it does not reach over the
rank while the count with it does. -/
structure Crosses (target : ℚ) (histogram : List ℕ) (band : ℕ) (count : ℕ) : Prop where
  counts : histogram[band]? = some count
  positive : 0 < count
  below : ((histogram.take band).sum : ℚ) ≤ target
  above : target < (histogram.take band).sum + count

theorem sum_take_succ {l : List ℕ} {i n : ℕ} (h : l[i]? = some n) : (l.take (i + 1)).sum = (l.take i).sum + n := by
  rw [List.take_add_one, h]
  simp

theorem sum_take_le (l : List ℕ) (i : ℕ) : (l.take i).sum ≤ l.sum := by
  conv_rhs => rw [← List.take_append_drop i l, List.sum_append]
  exact Nat.le_add_right _ _

theorem sum_take_mono (l : List ℕ) {i j : ℕ} (h : i ≤ j) : (l.take i).sum ≤ (l.take j).sum := by
  have := sum_take_le (l.take j) i
  rwa [List.take_take, min_eq_left h] at this

/-- The loop, over what is left of the histogram. -/
theorem crossing_spec (target : ℚ) (band cumulative : ℕ) (rest : List ℕ) (hlow : (cumulative : ℚ) ≤ target) :
    (crossing target band cumulative rest = none ∧ ((cumulative + rest.sum : ℕ) : ℚ) ≤ target) ∨
    ∃ i count : ℕ, rest[i]? = some count ∧ 0 < count ∧ ((cumulative + (rest.take i).sum : ℕ) : ℚ) ≤ target ∧
      target < ((cumulative + (rest.take i).sum : ℕ) : ℚ) + count ∧
      crossing target band cumulative rest =
        some (interpolate (band + i) (cumulative + (rest.take i).sum) count target) := by
  induction rest generalizing band cumulative with
  | nil => exact .inl ⟨rfl, by simpa using hlow⟩
  | cons count rest ih =>
    by_cases hc : 0 < count ∧ target < cumulative + count
    · refine .inr ⟨0, count, rfl, hc.1, by simpa using hlow, by simpa using hc.2, ?_⟩
      rw [crossing, if_pos hc]
      rfl
    · have hnext : ((cumulative + count : ℕ) : ℚ) ≤ target := by
        rcases Nat.eq_zero_or_pos count with rfl | hpos
        · simpa using hlow
        · have := not_lt.mp fun h => hc ⟨hpos, h⟩
          push_cast
          exact this
      rw [crossing, if_neg hc]
      rcases ih (band + 1) (cumulative + count) hnext with ⟨hnone, hsum⟩ | ⟨i, n, hi, hn, hbelow, habove, hsome⟩
      · exact .inl ⟨hnone, by simpa [Nat.add_assoc] using hsum⟩
      · refine .inr ⟨i + 1, n, hi, hn, ?_, ?_, ?_⟩
        · simpa [Nat.add_assoc] using hbelow
        · simpa [Nat.add_assoc] using habove
        · rw [hsome]
          simp only [List.take_succ_cons, List.sum_cons, Nat.add_assoc, Nat.add_comm 1 i]

/-- The whole loop. -/
theorem crossing_cases (histogram : List ℕ) {target : ℚ} (hzero : 0 ≤ target) :
    (crossing target 0 0 histogram = none ∧ (histogram.sum : ℚ) ≤ target) ∨
    ∃ band count, Crosses target histogram band count ∧
      crossing target 0 0 histogram = some (interpolate band (histogram.take band).sum count target) := by
  rcases crossing_spec target 0 0 histogram (by simpa using hzero) with
    ⟨hnone, hsum⟩ | ⟨i, count, hi, hcount, hbelow, habove, hsome⟩
  · exact .inl ⟨hnone, by simpa using hsum⟩
  · exact .inr ⟨i, count, ⟨hi, hcount, by simpa using hbelow, by simpa using habove⟩, by simpa using hsome⟩

/-- A smaller rank does not fall into a later band. -/
theorem Crosses.band_le {target target' : ℚ} {histogram : List ℕ} {band band' count count' : ℕ}
    (h : Crosses target histogram band count) (h' : Crosses target' histogram band' count') (hle : target ≤ target') :
    band ≤ band' := by
  by_contra hlt
  have hsum : ((histogram.take (band' + 1)).sum : ℚ) ≤ (histogram.take band).sum := by
    exact_mod_cast sum_take_mono histogram (by omega : band' + 1 ≤ band)
  rw [sum_take_succ h'.counts] at hsum
  have hbelow := h.below
  have habove := h'.above
  rw [Nat.cast_add] at hsum
  linarith

theorem lastCounted_spec {histogram : List ℕ} (h : histogram.sum ≠ 0) :
    ∃ last count, lastCounted histogram = some last ∧ histogram[last]? = some count ∧ 0 < count ∧
      ∀ band count, histogram[band]? = some count → 0 < count → band ≤ last := by
  have hmem : ∀ i, i ∈ (histogram.zipIdx.filter fun c => decide (c.1 ≠ 0)).map Prod.snd ↔
      ∃ count, histogram[i]? = some count ∧ 0 < count := by
    intro i
    simp only [List.mem_map, List.mem_filter, decide_eq_true_eq, Prod.exists, exists_eq_right]
    constructor
    · rintro ⟨count, hi, hne⟩
      exact ⟨count, List.mem_zipIdx_iff_getElem?.mp hi, Nat.pos_of_ne_zero hne⟩
    · rintro ⟨count, hi, hpos⟩
      exact ⟨count, List.mem_zipIdx_iff_getElem?.mpr hi, hpos.ne'⟩
  have hsome : ∃ n ∈ histogram, n ≠ 0 := by
    by_contra hall
    exact h (List.sum_eq_zero fun n hn => by_contra fun hne => hall ⟨n, hn, hne⟩)
  obtain ⟨n, hn, hne⟩ := hsome
  obtain ⟨i, hi⟩ := List.mem_iff_getElem?.mp hn
  have hne' : (histogram.zipIdx.filter fun c => decide (c.1 ≠ 0)).map Prod.snd ≠ [] :=
    List.ne_nil_of_mem ((hmem i).mpr ⟨n, hi, Nat.pos_of_ne_zero hne⟩)
  obtain ⟨last, hlast⟩ := Option.ne_none_iff_exists'.mp (fun hnone => hne' (List.max?_eq_none_iff.mp hnone))
  obtain ⟨hin, hmax⟩ := List.max?_eq_some_iff.mp hlast
  obtain ⟨count, hcount, hpos⟩ := (hmem last).mp hin
  exact ⟨last, count, hlast, hcount, hpos, fun band c hc hcp => hmax band ((hmem band).mpr ⟨c, hc, hcp⟩)⟩

/-! ## §4. The percentile. -/

theorem round3_mono {x y : ℚ} (h : x ≤ y) : round3 x ≤ round3 y := quantize_mono (by norm_num) halfEven_mono h

theorem round3_natCast (n : ℕ) : round3 n = n := by
  refine quantize_of_onGrid (by norm_num) halfEven_intCast ?_
  refine OnGrid.mono (by norm_num) (by norm_num : (-3 : ℤ) ≤ 0) ⟨n, ?_⟩
  simp

/-- A value inside the edges of a band that counts something, in which the cumulative count reaches the
rank. -/
def LiesIn (histogram : List ℕ) (share x : ℚ) : Prop :=
  ∃ band count, histogram[band]? = some count ∧ 0 < count ∧
    ((histogram.take band).sum : ℚ) ≤ share * histogram.sum ∧
    share * histogram.sum ≤ (histogram.take (band + 1)).sum ∧
    (lowerEdge band : ℚ) ≤ x ∧ x ≤ upperEdge band

/-- What is computed for a share. -/
inductive Answer (histogram : List ℕ) (share : ℚ) : ℚ → Prop
  | inside {band count} (crosses : Crosses (share * histogram.sum) histogram band count) :
      Answer histogram share
        (round3 (interpolate band (histogram.take band).sum count (share * histogram.sum)))
  | top {last count} (reached : (histogram.sum : ℚ) ≤ share * histogram.sum) (counts : histogram[last]? = some count)
      (positive : 0 < count) (greatest : ∀ band count, histogram[band]? = some count → 0 < count → band ≤ last) :
      Answer histogram share (upperEdge last)

theorem percentile_answer {histogram : List ℕ} (hsum : histogram.sum ≠ 0) {share : ℚ} (hzero : 0 ≤ share) :
    ∃ x, percentile (some histogram) share = some x ∧ Answer histogram share x := by
  have htarget : 0 ≤ share * histogram.sum := mul_nonneg hzero (Nat.cast_nonneg _)
  unfold percentile
  simp only [if_neg hsum]
  rcases crossing_cases histogram htarget with ⟨hnone, hreached⟩ | ⟨band, count, hcrosses, hsome⟩
  · obtain ⟨last, count, hlast, hcount, hpos, hmax⟩ := lastCounted_spec hsum
    rw [hnone, hlast]
    exact ⟨_, rfl, .top hreached hcount hpos hmax⟩
  · rw [hsome]
    exact ⟨_, rfl, .inside hcrosses⟩

theorem Answer.liesIn {histogram : List ℕ} {share x : ℚ} (hone : share ≤ 1) (h : Answer histogram share x) :
    LiesIn histogram share x := by
  cases h with
  | @inside band count hcrosses =>
    obtain ⟨hlow, hhigh⟩ := interpolate_within band hcrosses.positive hcrosses.below hcrosses.above.le
    refine ⟨band, count, hcrosses.counts, hcrosses.positive, hcrosses.below, ?_, ?_, ?_⟩
    · rw [sum_take_succ hcrosses.counts]
      rw [Nat.cast_add]
      exact hcrosses.above.le
    · have := round3_mono hlow
      rwa [round3_natCast] at this
    · have := round3_mono hhigh
      rwa [round3_natCast] at this
  | @top last count hreached hcounts hpos hmax =>
    have htotal : share * histogram.sum ≤ histogram.sum := by
      have := mul_le_mul_of_nonneg_right hone (Nat.cast_nonneg (α := ℚ) histogram.sum)
      simpa using this
    -- after the last band that counts something, everything is counted
    have hall : (histogram.take (last + 1)).sum = histogram.sum := by
      have hrest : (histogram.drop (last + 1)).sum = 0 := by
        refine List.sum_eq_zero fun n hn => ?_
        obtain ⟨i, hi⟩ := List.mem_iff_getElem?.mp hn
        rw [List.getElem?_drop] at hi
        by_contra hne
        have := hmax _ n hi (Nat.pos_of_ne_zero hne)
        omega
      conv_rhs => rw [← List.take_append_drop (last + 1) histogram, List.sum_append, hrest]
      rfl
    refine ⟨last, count, hcounts, hpos, ?_, ?_, ?_, le_refl _⟩
    · have : ((histogram.take last).sum : ℚ) ≤ histogram.sum := by exact_mod_cast sum_take_le histogram last
      linarith
    · rw [hall]
      exact htotal
    · exact_mod_cast lowerEdge_le_upperEdge last

theorem Answer.mono {histogram : List ℕ} {p q x y : ℚ} (hpq : p ≤ q) (hx : Answer histogram p x)
    (hy : Answer histogram q y) : x ≤ y := by
  have htarget : p * histogram.sum ≤ q * histogram.sum :=
    mul_le_mul_of_nonneg_right hpq (Nat.cast_nonneg _)
  cases hx with
  | @inside band count hcrosses =>
    have hhigh := (interpolate_within band hcrosses.positive hcrosses.below hcrosses.above.le).2
    have hround := round3_mono hhigh
    rw [round3_natCast] at hround
    cases hy with
    | @inside band' count' hcrosses' =>
      rcases Nat.lt_or_ge band band' with hlt | hge
      · -- a later band begins where this one ends
        have hlow := round3_mono
          (interpolate_within band' hcrosses'.positive hcrosses'.below hcrosses'.above.le).1
        rw [round3_natCast] at hlow
        have hedge : (upperEdge band : ℚ) ≤ lowerEdge band' := by exact_mod_cast upperEdge_le_lowerEdge hlt
        linarith
      · obtain rfl : band = band' := le_antisymm (hcrosses.band_le hcrosses' htarget) hge
        obtain rfl : count = count' := Option.some.inj (hcrosses.counts.symm.trans hcrosses'.counts)
        exact round3_mono (interpolate_mono htarget)
    | @top last _ _ _ _ hmax =>
      have hedge : (upperEdge band : ℚ) ≤ upperEdge last := by
        exact_mod_cast upperEdge_mono (hmax band count hcrosses.counts hcrosses.positive)
      linarith
  | top hreached hcounts hpos hmax =>
    cases hy with
    | @inside band' count' hcrosses' =>
      -- a rank above the whole count falls into no band
      have hsum := sum_take_le histogram (band' + 1)
      rw [sum_take_succ hcrosses'.counts] at hsum
      have hsum' : ((histogram.take band').sum : ℚ) + count' ≤ histogram.sum := by exact_mod_cast hsum
      have := hcrosses'.above
      linarith
    | top _ hcounts' hpos' hmax' =>
      have hedge := upperEdge_mono (hmax' _ _ hcounts hpos)
      exact_mod_cast hedge

/-- **A higher share has no lower percentile**, and the percentile of a share lies within a band that
counts something and in which the cumulative count reaches the rank; it is defined if anything is counted. -/
theorem percentile_mono (histogram : List ℕ) {p q : ℚ} (hp : 0 ≤ p) (hpq : p ≤ q) (hq : q ≤ 1) :
    (histogram.sum = 0 ∧ percentile (some histogram) p = none ∧ percentile (some histogram) q = none) ∨
    ∃ x y, percentile (some histogram) p = some x ∧ percentile (some histogram) q = some y ∧ x ≤ y ∧
      LiesIn histogram p x ∧ LiesIn histogram q y := by
  by_cases hsum : histogram.sum = 0
  · left
    unfold percentile
    simp [hsum]
  · right
    obtain ⟨x, hx, hxa⟩ := percentile_answer hsum hp
    obtain ⟨y, hy, hya⟩ := percentile_answer hsum (hp.trans hpq)
    exact ⟨x, y, hx, hy, hxa.mono hpq hya, hxa.liesIn (hpq.trans hq), hya.liesIn hq⟩

theorem percentile_mono_median :
    (([0, 3, 1] : List ℕ).sum = 0 ∧ percentile (some [0, 3, 1]) (1 / 2) = none ∧ percentile (some [0, 3, 1]) 1 = none) ∨
    ∃ x y, percentile (some [0, 3, 1]) (1 / 2) = some x ∧ percentile (some [0, 3, 1]) 1 = some y ∧ x ≤ y ∧
      LiesIn [0, 3, 1] (1 / 2) x ∧ LiesIn [0, 3, 1] 1 y :=
  percentile_mono [0, 3, 1] (by norm_num) (by norm_num) (by norm_num)

end RagPipeline.Analytics
