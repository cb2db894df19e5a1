/-
  RagPipeline.Lib.Decimals — decimal numbers with their special values, the arithmetic of a context
  that traps invalid operations, and the numeric columns they are stored in.

    * `Number`        — a finite value, an infinity, a quiet or a signalling NaN;
    * `add`, `mul`    — the context's arithmetic; `none` is a trapped signal;
    * `lt`            — the order; a NaN of either kind is trapped;
    * `Summable`      — the lists a context adds up without a signal (`sum_isSome_iff`);
    * `NumericColumn` — `NUMERIC(precision, scale)`: rounds half away from zero to the scale, refuses
                        what has too many digits and every infinity.

  `NumericColumn.holds_of_store`: what a column gives back, added to zero, is the number that was
  written only if the column `Holds` it.
-/
import RagPipeline.Lib.Rounding

namespace RagPipeline.Lib

/-- A decimal number, as a value. -/
inductive Number where
  | finite (value : ℚ)
  | infinity (negative : Bool)
  | nan
  | snan
  deriving DecidableEq

namespace Number

/-- The sum in a context. -/
def add (f : Format) : Number → Number → Option Number
  | .snan, _ => none
  | _, .snan => none
  | .nan, _ => some .nan
  | _, .nan => some .nan
  | .infinity s, .infinity t => if s = t then some (.infinity s) else none
  | .infinity s, .finite _ => some (.infinity s)
  | .finite _, .infinity t => some (.infinity t)
  | .finite p, .finite q => (f.round (p + q)).map .finite

/-- The number with the other sign. -/
def negate : Number → Number
  | .finite q => .finite (-q)
  | .infinity s => .infinity !s
  | .nan => .nan
  | .snan => .snan

/-- The difference in a context. -/
def sub (f : Format) (x y : Number) : Option Number := add f x y.negate

/-- Whether the number is below zero. -/
def isNegative : Number → Bool
  | .finite q => decide (q < 0)
  | .infinity s => s
  | .nan => false
  | .snan => false

/-- The product in a context; zero times an infinity is invalid. -/
def mul (f : Format) : Number → Number → Option Number
  | .snan, _ => none
  | _, .snan => none
  | .nan, _ => some .nan
  | _, .nan => some .nan
  | .finite p, .finite q => (f.round (p * q)).map .finite
  | x, y => if x = .finite 0 ∨ y = .finite 0 then none
      else some (.infinity (x.isNegative != y.isNegative))

/-- `x < y`; comparing a NaN is invalid. -/
def lt : Number → Number → Option Bool
  | .finite p, .finite q => some (decide (p < q))
  | .infinity s, .finite _ => some s
  | .finite _, .infinity t => some !t
  | .infinity s, .infinity t => some (s && !t)
  | _, _ => none

/-- The number zero. -/
def zero : Number := .finite 0

@[simp] theorem add_zero_zero (f : Format) : add f zero zero = some zero := by
  simp [add, zero]

/-- A sum is a number of the context: adding zero to it changes nothing. -/
theorem zero_add_of_add {f : Format} {x y z : Number} (h : add f x y = some z) :
    add f zero z = some z := by
  have hround : ∀ p q : ℚ, (f.round (p + q)).map Number.finite = some z → add f zero z = some z := by
    intro p q hpq
    obtain ⟨r, hr, rfl⟩ := Option.map_eq_some_iff.mp hpq
    simp [add, zero, Format.round_round hr]
  cases x <;> cases y <;> simp only [add] at h
  case finite.finite p q => exact hround p q h
  case infinity.infinity s t =>
    split at h
    · obtain rfl := Option.some.inj h
      rfl
    · simp at h
  all_goals first
    | (obtain rfl := Option.some.inj h; rfl)
    | simp at h

/-- The place of a number among the others; a NaN has none. -/
def rank : Number → Option (WithBot (WithTop ℚ))
  | .finite q => some ((q : WithTop ℚ) : WithBot (WithTop ℚ))
  | .infinity negative => some (if negative then ⊥ else ((⊤ : WithTop ℚ) : WithBot (WithTop ℚ)))
  | .nan | .snan => none

/-- Numbers compare by their places. -/
theorem lt_eq_rank (x y : Number) :
    lt x y = (rank x).bind fun a => (rank y).map fun b => decide (a < b) := by
  cases x <;> cases y
  all_goals try rfl
  case finite.finite p q => simp [lt, rank]
  case finite.infinity p t =>
    have htop : ((p : WithTop ℚ) : WithBot (WithTop ℚ)) < ((⊤ : WithTop ℚ) : WithBot (WithTop ℚ)) :=
      WithBot.coe_lt_coe.mpr (WithTop.coe_lt_top p)
    cases t with
    | false => exact congrArg some (decide_eq_true htop).symm
    | true => simp [lt, rank]
  case infinity.finite s q => cases s <;> simp [lt, rank]
  case infinity.infinity s t => cases s <;> cases t <;> simp [lt, rank]

/-- No two numbers share a place. -/
theorem rank_inj (x y : Number) (a : WithBot (WithTop ℚ)) (hx : rank x = some a) (hy : rank y = some a) :
    x = y := by
  have h : rank x = rank y := hx.trans hy.symm
  cases x <;> cases y
  case finite.finite p q => simpa [rank] using h
  case finite.infinity p t => cases t <;> simp [rank] at h
  case infinity.finite s q => cases s <;> simp [rank] at h
  case infinity.infinity s t => cases s <;> cases t <;> simp [rank] at h <;> rfl
  all_goals simp [rank] at hx hy

theorem add_comm (f : Format) (x y : Number) : add f x y = add f y x := by
  cases x with
  | finite p =>
    cases y with
    | finite q =>
      have hsum : p + q = q + p := by ring
      show (f.round (p + q)).map finite = (f.round (q + p)).map finite
      rw [hsum]
    | infinity t => rfl
    | nan => rfl
    | snan => rfl
  | infinity s =>
    cases y with
    | infinity t =>
      cases s <;> cases t
      all_goals simp [add]
    | finite q => rfl
    | nan => rfl
    | snan => rfl
  | nan => cases y <;> simp [add]
  | snan => cases y <;> simp [add]

/-! ## Sums of lists. -/

/-- The numbers before the first NaN. -/
def untilNan : List Number → List Number
  | .nan :: _ | [] => []
  | v :: vs => v :: untilNan vs

/-- The values before the first number that is not finite. -/
def untilSpecial : List Number → List ℚ
  | .finite q :: vs => q :: untilSpecial vs
  | _ => []

/-- What a context can add up from `s` on: nothing signals, the infinities before a NaN have one sign, and
    no total before them leaves the context. -/
structure Summable (f : Format) (s : ℚ) (vs : List Number) : Prop where
  quiet : .snan ∉ vs
  oneSign : ∀ a b, .infinity a ∈ untilNan vs → .infinity b ∈ untilNan vs → a = b
  inRange : ((untilSpecial vs).foldlM (fun s q => f.round (s + q)) s).isSome

theorem sum_from_nan (f : Format) (vs : List Number) : (vs.foldlM (add f) .nan).isSome ↔ .snan ∉ vs := by
  induction vs with
  | nil => simp
  | cons v vs ih =>
    rw [List.foldlM_cons, List.mem_cons, not_or]
    cases v with
    | snan => simp [add]
    | finite q => simpa [add] using ih
    | infinity t => simpa [add] using ih
    | nan => simpa [add] using ih

theorem sum_from_infinity (f : Format) (s : Bool) (vs : List Number) :
    (vs.foldlM (add f) (.infinity s)).isSome ↔ .snan ∉ vs ∧ ∀ t, .infinity t ∈ untilNan vs → t = s := by
  induction vs with
  | nil => simp [untilNan]
  | cons v vs ih =>
    rw [List.foldlM_cons, List.mem_cons, not_or]
    cases v with
    | snan => simp [add]
    | finite q => simpa [add, untilNan] using ih
    | nan => simpa [add, untilNan] using sum_from_nan f vs
    | infinity t =>
      by_cases hst : s = t
      · subst hst
        simpa [add, untilNan] using ih
      · simp [add, untilNan, hst, Ne.symm hst]

/-- **When a sum returns.** -/
theorem sum_isSome_iff (f : Format) (s : ℚ) (vs : List Number) :
    (vs.foldlM (add f) (.finite s)).isSome ↔ Summable f s vs := by
  -- a NaN or an infinity ends the sum, so the induction goes along the finite numbers, from any partial sum
  induction vs generalizing s with
  | nil => exact ⟨fun _ => ⟨by simp, by simp [untilNan], rfl⟩, fun _ => rfl⟩
  | cons v vs ih =>
    rw [List.foldlM_cons]
    cases v with
    | snan => exact ⟨fun h => by simp [add] at h, fun h => absurd List.mem_cons_self h.quiet⟩
    | nan =>
      refine (sum_from_nan f vs).trans ⟨fun h => ⟨by simpa using h, by simp [untilNan], rfl⟩, fun h => ?_⟩
      exact fun hin => h.quiet (List.mem_cons_of_mem _ hin)
    | infinity t =>
      refine (sum_from_infinity f t vs).trans ⟨fun ⟨hquiet, hsign⟩ => ⟨by simpa using hquiet, ?_, rfl⟩, fun h => ?_⟩
      · intro a b ha hb
        simp only [untilNan, List.mem_cons, infinity.injEq] at ha hb
        have hone : ∀ c, (c = t ∨ .infinity c ∈ untilNan vs) → c = t := fun c hc => hc.elim id (hsign c)
        rw [hone a ha, hone b hb]
      · refine ⟨fun hin => h.quiet (List.mem_cons_of_mem _ hin), fun c hc => ?_⟩
        exact h.oneSign c t (List.mem_cons_of_mem _ hc) List.mem_cons_self
    | finite q =>
      have hadd : add f (.finite s) (.finite q) = (f.round (s + q)).map .finite := rfl
      rw [hadd]
      cases hround : f.round (s + q) with
      | none =>
        refine ⟨fun h => by simp at h, fun h => ?_⟩
        have hin := h.inRange
        simp [untilSpecial, hround] at hin
      | some r =>
        show (vs.foldlM (add f) (.finite r)).isSome ↔ _
        rw [ih r]
        constructor
        · intro h
          refine ⟨by simpa using h.quiet, ?_, ?_⟩
          · simpa [untilNan] using h.oneSign
          · simpa [untilSpecial, hround] using h.inRange
        · intro h
          refine ⟨fun hin => h.quiet (List.mem_cons_of_mem _ hin), ?_, ?_⟩
          · simpa [untilNan] using h.oneSign
          · simpa [untilSpecial, hround] using h.inRange

end Number

/-! ## Numeric columns. -/

/-- `NUMERIC(precision, scale)`. -/
structure NumericColumn where
  precision : ℕ
  scale : ℕ

namespace NumericColumn

variable (c : NumericColumn)

/-- Writing a number: the value the column holds afterwards, or the failure of the statement. -/
def store : Number → Option Number
  | .finite q =>
    if |quantize halfAway 10 (-c.scale) q| < 10 ^ (c.precision - c.scale)
    then some (.finite (quantize halfAway 10 (-c.scale) q))
    else none
  | .infinity _ => none
  | .nan => some .nan
  | .snan => some .nan

/-- The numbers that a column holds as they are. -/
def Holds : Number → Prop
  | .finite q => OnGrid 10 (-c.scale) q ∧ |q| < 10 ^ (c.precision - c.scale)
  | .infinity _ => False
  | .nan => True
  | .snan => False

variable {c} {x y : Number}

theorem store_of_holds (h : c.Holds x) : c.store x = some x := by
  cases x with
  | finite q =>
    obtain ⟨hgrid, hlt⟩ := h
    have hq := quantize_of_onGrid (by norm_num) halfAway_intCast hgrid
    simp [store, hq, hlt]
  | infinity s => exact absurd h (by simp [Holds])
  | nan => rfl
  | snan => exact absurd h (by simp [Holds])

theorem holds_of_store_self (h : c.store x = some x) : c.Holds x := by
  cases x with
  | finite q =>
    simp only [store] at h
    split at h
    · rename_i hlt
      have hq := Number.finite.inj (Option.some.inj h)
      rw [hq] at hlt
      exact ⟨(onGrid_iff_quantize (by norm_num) halfAway_intCast).mpr hq, hlt⟩
    · simp at h
  | infinity s => simp [store] at h
  | nan => trivial
  | snan => simp [store] at h

/-- A number that comes back from its column, added to zero, is one the column holds as it is. -/
theorem holds_of_store {f : Format} (hf : f.base = 10) (hstore : c.store x = some y)
    (hback : Number.add f Number.zero y = some x) : c.Holds x := by
  cases x with
  | finite q =>
    apply holds_of_store_self
    simp only [store] at hstore ⊢
    split at hstore
    · rename_i hlt
      obtain rfl := Option.some.inj hstore
      simp only [Number.add, Number.zero, zero_add, Option.map_eq_some_iff, Number.finite.injEq,
        exists_eq_right] at hback
      -- the column's grid is kept by the context, so nothing was rounded in the column
      have hgrid : OnGrid 10 (-c.scale) q := by
        have := Format.onGrid_of_round (k := -c.scale) (by rw [hf]; exact onGrid_quantize) hback
        rwa [hf] at this
      have hq := quantize_of_onGrid (by norm_num) halfAway_intCast hgrid
      rw [hq] at hlt ⊢
      rw [if_pos hlt]
    · simp at hstore
  | infinity s => simp [store] at hstore
  | nan => trivial
  | snan =>
    obtain rfl := Option.some.inj hstore
    simp [Number.add, Number.zero] at hback

end NumericColumn

end RagPipeline.Lib
