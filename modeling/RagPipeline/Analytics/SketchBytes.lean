/-
  RagPipeline.Analytics.SketchBytes — the sketch as it is stored: one byte for each register.

    * `Hll.add`, `Hll.fromValues`, `Hll.union` — the functions of the module, on bytes;
    * `registersOf`       — what the bytes say, and that the three do on it what `Sketch` does;
    * `fromValues_le_iff` — a register is bounded exactly by the ranks of the values it has seen;
    * `sketch_laws`       — a sketch is a function of the set of its values, and a union is the union of sets.
-/
import RagPipeline.Analytics.Roles

namespace RagPipeline.Analytics

open RagPipeline.Stage2 RagPipeline.Lib

/-! ## §1. The bytes. -/

/-- `bytes` of length `REGISTERS`. -/
abbrev SketchBytes := Vector UInt8 registers

namespace Hll

/-- `_REST_BITS`. -/
def restBits : ℕ := 52

/-- The register of a hash: its top bits. -/
def index (h : Fin (2 ^ 64)) : Fin registers := ⟨h.val / 2 ^ restBits, by
  have hlt := h.isLt
  rw [Nat.div_lt_iff_lt_mul (by norm_num [restBits])]
  exact lt_of_lt_of_eq hlt (by norm_num [restBits])⟩

/-- The leading zeros of the other bits, plus one. -/
def rho (h : Fin (2 ^ 64)) : ℕ := restBits - Nat.size (h.val % 2 ^ restBits) + 1

/-- `EMPTY`. -/
def empty : SketchBytes := Vector.replicate registers 0

/-- `hll.union`. -/
def union (a b : SketchBytes) : SketchBytes :=
  if a = empty then b
  else if b = empty then a
  else Vector.zipWith max a b

variable (hash64 : String → Fin (2 ^ 64))

/-- `hll.add`. -/
def add (sketch : SketchBytes) (value : String) : SketchBytes :=
  let h := hash64 value
  if rho h ≤ (sketch.get (index h)).toNat then sketch
  else sketch.set (index h) (UInt8.ofNat (rho h)) (index h).isLt

/-- The body of the loop of `from_values`. -/
def raiseRegister (registers : SketchBytes) (value : String) : SketchBytes :=
  let h := hash64 value
  if (registers.get (index h)).toNat < rho h then
    registers.set (index h) (UInt8.ofNat (rho h)) (index h).isLt
  else registers

/-- `hll.from_values`. -/
def fromValues (values : List String) : SketchBytes := values.foldl (raiseRegister hash64) empty

end Hll

/-! ## §2. One register. -/

/-- What the bytes say. -/
def registersOf (s : SketchBytes) : Sketch := fun i => (s.get i).toNat

/-- Bytes that say the same are the same. -/
theorem registersOf_injective {s t : SketchBytes} (h : registersOf s = registersOf t) : s = t := by
  refine Vector.ext fun i hi => ?_
  have hi' := congrFun h ⟨i, hi⟩
  exact UInt8.toNat_inj.mp hi'

namespace Hll

/-- A rank fits into a byte: a rest of zeros, the longest run, has rank 53. -/
theorem rho_toNat (h : Fin (2 ^ 64)) : (UInt8.ofNat (rho h)).toNat = rho h := by
  have hle : rho h ≤ 53 := by
    unfold rho restBits
    omega
  rw [UInt8.toNat_ofNat']
  exact Nat.mod_eq_of_lt (by omega)

/-- The rank that a hash brings to a register. -/
def rankAt (h : Fin (2 ^ 64)) (i : Fin registers) : ℕ := if index h = i then rho h else 0

theorem registersOf_set (s : SketchBytes) (h : Fin (2 ^ 64)) (i : Fin registers) :
    registersOf (s.set (index h) (UInt8.ofNat (rho h)) (index h).isLt) i =
      if index h = i then rho h else registersOf s i := by
  have hget : (s.set (index h) (UInt8.ofNat (rho h)) (index h).isLt).get i =
      if (index h).val = i.val then UInt8.ofNat (rho h) else s.get i := Vector.getElem_set (index h).isLt i.isLt
  unfold registersOf
  rw [hget]
  by_cases hi : index h = i
  · rw [if_pos (congrArg Fin.val hi), if_pos hi, rho_toNat]
  · rw [if_neg fun hv => hi (Fin.ext hv), if_neg hi]

theorem registersOf_empty : registersOf empty = Sketch.empty := by
  funext i
  have hget : empty.get i = 0 := Vector.getElem_replicate i.isLt
  show (empty.get i).toNat = 0
  rw [hget]
  rfl

variable (hash64 : String → Fin (2 ^ 64))

/-- **A register keeps the greatest rank** that was brought to it. -/
theorem registersOf_raise (s : SketchBytes) (value : String) (i : Fin registers) :
    registersOf (raiseRegister hash64 s value) i = max (registersOf s i) (rankAt (hash64 value) i) := by
  unfold raiseRegister rankAt
  by_cases hlt : (s.get (index (hash64 value))).toNat < rho (hash64 value)
  · rw [if_pos hlt, registersOf_set]
    by_cases hi : index (hash64 value) = i
    · subst hi
      rw [if_pos rfl, if_pos rfl]
      exact (max_eq_right hlt.le).symm
    · rw [if_neg hi, if_neg hi]
      exact (max_eq_left (Nat.zero_le _)).symm
  · rw [if_neg hlt]
    by_cases hi : index (hash64 value) = i
    · subst hi
      rw [if_pos rfl]
      exact (max_eq_left (Nat.not_lt.mp hlt)).symm
    · rw [if_neg hi]
      exact (max_eq_left (Nat.zero_le _)).symm

/-- `add` is one turn of the loop. -/
theorem add_eq_raise (s : SketchBytes) (value : String) : add hash64 s value = raiseRegister hash64 s value := by
  unfold add raiseRegister
  by_cases hle : rho (hash64 value) ≤ (s.get (index (hash64 value))).toNat
  · rw [if_pos hle, if_neg (Nat.not_lt.mpr hle)]
  · rw [if_neg hle, if_pos (Nat.not_le.mp hle)]

/-- The union, register by register. -/
theorem registersOf_union (a b : SketchBytes) (i : Fin registers) :
    registersOf (union a b) i = max (registersOf a i) (registersOf b i) := by
  have hzero : registersOf empty i = 0 := congrFun registersOf_empty i
  unfold union
  split
  · next ha =>
    rw [ha, hzero]
    exact (max_eq_right (Nat.zero_le _)).symm
  · split
    · next hb =>
      rw [hb, hzero]
      exact (max_eq_left (Nat.zero_le _)).symm
    · have hget : (Vector.zipWith max a b).get i = max (a.get i) (b.get i) := Vector.getElem_zipWith i.isLt
      unfold registersOf
      rw [hget]
      by_cases hle : a.get i ≤ b.get i
      · have hmax : max (a.get i) (b.get i) = b.get i := if_pos hle
        rw [hmax, max_eq_right (UInt8.le_iff_toNat_le.mp hle)]
      · have hmax : max (a.get i) (b.get i) = a.get i := if_neg hle
        have hlt : ¬(a.get i).toNat ≤ (b.get i).toNat := fun h => hle (UInt8.le_iff_toNat_le.mpr h)
        rw [hmax, max_eq_left (Nat.not_le.mp hlt).le]

/-! ## §3. The sketch of the rollups. -/

/-- Adding to the bytes is adding to what they say. -/
theorem registersOf_add (w : PythonTexts) (s : SketchBytes) (value : String) :
    registersOf (add w.hash64 s value) = (registersOf s).add w value := by
  funext i
  rw [add_eq_raise, registersOf_raise]
  unfold Sketch.add rankAt
  show _ = (if rho (w.hash64 value) ≤ registersOf s (index (w.hash64 value)) then registersOf s
    else Function.update (registersOf s) (index (w.hash64 value)) (rho (w.hash64 value))) i
  by_cases hle : rho (w.hash64 value) ≤ registersOf s (index (w.hash64 value))
  · rw [if_pos hle]
    by_cases hi : index (w.hash64 value) = i
    · rw [if_pos hi, ← hi, max_eq_left hle]
    · rw [if_neg hi, max_eq_left (Nat.zero_le _)]
  · rw [if_neg hle]
    by_cases hi : index (w.hash64 value) = i
    · rw [if_pos hi, ← hi, Function.update_self, max_eq_right (Nat.not_le.mp hle).le]
    · rw [if_neg hi, Function.update_of_ne (Ne.symm hi), max_eq_left (Nat.zero_le _)]

/-- The union of the bytes is the union of what they say. -/
theorem registersOf_union_eq (a b : SketchBytes) : registersOf (union a b) = (registersOf a).union (registersOf b) := by
  have hiff : ∀ s, s = empty ↔ registersOf s = Sketch.empty := fun s =>
    ⟨fun h => h ▸ registersOf_empty, fun h => registersOf_injective (h.trans registersOf_empty.symm)⟩
  unfold Sketch.union
  by_cases ha : a = empty
  · rw [if_pos ((hiff a).mp ha)]
    unfold union
    rw [if_pos ha]
  · rw [if_neg fun h => ha ((hiff a).mpr h)]
    by_cases hb : b = empty
    · rw [if_pos ((hiff b).mp hb)]
      unfold union
      rw [if_neg ha, if_pos hb]
    · rw [if_neg fun h => hb ((hiff b).mpr h)]
      funext i
      exact registersOf_union a b i

/-! ## §4. The laws. -/

/-- The registers of a loop, bounded by what it started from and what it saw. -/
theorem foldl_raise_le_iff (values : List String) (s : SketchBytes) (i : Fin registers) (r : ℕ) :
    registersOf (values.foldl (raiseRegister hash64) s) i ≤ r ↔
      registersOf s i ≤ r ∧ ∀ v ∈ values, rankAt (hash64 v) i ≤ r := by
  induction values generalizing s with
  | nil => simp
  | cons v values ih =>
    rw [List.foldl_cons, ih, registersOf_raise, max_le_iff, List.forall_mem_cons, and_assoc]

/-- **A register is bounded exactly by the ranks of its values.** -/
theorem fromValues_le_iff (values : List String) (i : Fin registers) (r : ℕ) :
    registersOf (fromValues hash64 values) i ≤ r ↔ ∀ v ∈ values, rankAt (hash64 v) i ≤ r := by
  unfold fromValues
  rw [foldl_raise_le_iff, registersOf_empty]
  exact and_iff_right (Nat.zero_le r)

/-- Sketches are the same when their registers have the same bounds. -/
theorem ext_bounds {s t : SketchBytes} (h : ∀ i r, registersOf s i ≤ r ↔ registersOf t i ≤ r) : s = t :=
  registersOf_injective (funext fun i => eq_of_forall_ge_iff (h i))

theorem union_le_iff (a b : SketchBytes) (i : Fin registers) (r : ℕ) :
    registersOf (union a b) i ≤ r ↔ registersOf a i ≤ r ∧ registersOf b i ≤ r := by
  rw [registersOf_union, max_le_iff]

/-- The sketch of a set, however it is listed. -/
theorem fromValues_congr {xs ys : List String} (h : ∀ v, v ∈ xs ↔ v ∈ ys) :
    fromValues hash64 xs = fromValues hash64 ys := by
  refine ext_bounds fun i r => ?_
  rw [fromValues_le_iff, fromValues_le_iff]
  exact forall_congr' fun v => by rw [h v]

theorem fromValues_eq_add (values : List String) : fromValues hash64 values = values.foldl (add hash64) empty := by
  have hstep : add hash64 = raiseRegister hash64 := funext fun s => funext fun v => add_eq_raise hash64 s v
  rw [hstep]
  rfl

theorem union_assoc (a b c : SketchBytes) : union (union a b) c = union a (union b c) := by
  refine ext_bounds fun i r => ?_
  rw [union_le_iff, union_le_iff, union_le_iff, union_le_iff, and_assoc]

theorem union_comm (a b : SketchBytes) : union a b = union b a := by
  refine ext_bounds fun i r => ?_
  rw [union_le_iff, union_le_iff, and_comm]

theorem union_self (a : SketchBytes) : union a a = a := by
  refine ext_bounds fun i r => ?_
  rw [union_le_iff, and_self]

theorem fromValues_union {xs ys zs : List String} (h : ∀ v, v ∈ zs ↔ v ∈ xs ∨ v ∈ ys) :
    fromValues hash64 zs = union (fromValues hash64 xs) (fromValues hash64 ys) := by
  refine ext_bounds fun i r => ?_
  rw [union_le_iff, fromValues_le_iff, fromValues_le_iff, fromValues_le_iff]
  constructor
  · intro hall
    exact ⟨fun v hv => hall v ((h v).mpr (Or.inl hv)), fun v hv => hall v ((h v).mpr (Or.inr hv))⟩
  · intro hall v hv
    cases (h v).mp hv with
    | inl hx => exact hall.1 v hx
    | inr hy => exact hall.2 v hy

/-- **The laws of the stored sketch**: it depends on the set of its values, it is built one value at a time,
and the union of sketches is the sketch of the union. -/
theorem sketch_laws :
    (∀ xs ys : List String, (∀ v, v ∈ xs ↔ v ∈ ys) → fromValues hash64 xs = fromValues hash64 ys) ∧
      (∀ values, fromValues hash64 values = values.foldl (add hash64) empty) ∧
      (∀ a b c, union (union a b) c = union a (union b c)) ∧ (∀ a b, union a b = union b a) ∧
      (∀ a, union a a = a) ∧
      (∀ xs ys zs : List String, (∀ v, v ∈ zs ↔ v ∈ xs ∨ v ∈ ys) →
        fromValues hash64 zs = union (fromValues hash64 xs) (fromValues hash64 ys)) :=
  ⟨fun _ _ h => fromValues_congr hash64 h, fromValues_eq_add hash64, union_assoc, union_comm, union_self,
    fun _ _ _ h => fromValues_union hash64 h⟩

end Hll

end RagPipeline.Analytics
