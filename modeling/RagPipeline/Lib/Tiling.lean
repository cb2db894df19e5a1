/-
  RagPipeline.Lib.Tiling — half-open spans of positions that are laid end to end.

    * `tiles_append`   — a tiling of a concatenation is two tilings that meet;
    * `Tiles.take`     — the first spans of a tiling are a tiling of less;
    * `Tiles.covers`   — every position between the two ends is in one of the spans.
-/
import Mathlib.Data.List.Basic

namespace RagPipeline

/-- The positions from `start` on and before `stop`. -/
structure Span where
  start : ℕ
  stop : ℕ
  deriving DecidableEq, Repr

/-- The spans follow one another without a gap or an overlap, from `a` to `b`. -/
def Tiles (a : ℕ) : List Span → ℕ → Prop
  | [], b => a = b
  | r :: rs, b => r.start = a ∧ r.start ≤ r.stop ∧ Tiles r.stop rs b

theorem tiles_append {a b : ℕ} (rs rs' : List Span) :
    Tiles a (rs ++ rs') b ↔ ∃ m, Tiles a rs m ∧ Tiles m rs' b := by
  induction rs generalizing a with
  | nil => simp [Tiles]
  | cons r rs ih =>
    show r.start = a ∧ r.start ≤ r.stop ∧ Tiles r.stop (rs ++ rs') b ↔
      ∃ m, (r.start = a ∧ r.start ≤ r.stop ∧ Tiles r.stop rs m) ∧ Tiles m rs' b
    rw [ih]
    constructor
    · rintro ⟨hstart, hle, m, h, h'⟩
      exact ⟨m, ⟨hstart, hle, h⟩, h'⟩
    · rintro ⟨m, ⟨hstart, hle, h⟩, h'⟩
      exact ⟨hstart, hle, m, h, h'⟩

namespace Tiles

variable {a b : ℕ} {rs : List Span}

theorem le (h : Tiles a rs b) : a ≤ b := by
  induction rs generalizing a with
  | nil => exact Nat.le_of_eq h
  | cons r rs ih =>
    have hrest := ih h.2.2
    have hstart := h.1
    have hle := h.2.1
    omega

/-- A tiling has one end. -/
theorem unique {b' : ℕ} (h : Tiles a rs b) (h' : Tiles a rs b') : b = b' := by
  induction rs generalizing a with
  | nil => exact h.symm.trans h'
  | cons r rs ih => exact ih h.2.2 h'.2.2

theorem take (h : Tiles a rs b) (k : ℕ) : ∃ m, Tiles a (rs.take k) m ∧ m ≤ b := by
  rw [← List.take_append_drop k rs, tiles_append] at h
  obtain ⟨m, hm, hrest⟩ := h
  exact ⟨m, hm, hrest.le⟩

theorem stop_le (h : Tiles a rs b) {r : Span} (hr : r ∈ rs) : r.stop ≤ b := by
  induction rs generalizing a with
  | nil => exact absurd hr List.not_mem_nil
  | cons r' rs ih =>
    cases List.mem_cons.mp hr with
    | inl heq => exact heq ▸ h.2.2.le
    | inr hmem => exact ih h.2.2 hmem

theorem start_le_stop (h : Tiles a rs b) {r : Span} (hr : r ∈ rs) : r.start ≤ r.stop := by
  induction rs generalizing a with
  | nil => exact absurd hr List.not_mem_nil
  | cons r' rs ih =>
    cases List.mem_cons.mp hr with
    | inl heq => exact heq ▸ h.2.1
    | inr hmem => exact ih h.2.2 hmem

/-- No position is left out. -/
theorem covers (h : Tiles a rs b) {x : ℕ} (ha : a ≤ x) (hb : x < b) :
    ∃ r ∈ rs, r.start ≤ x ∧ x < r.stop := by
  induction rs generalizing a with
  | nil =>
    have hend : a = b := h
    omega
  | cons r rs ih =>
    by_cases hx : x < r.stop
    · have hstart := h.1
      exact ⟨r, List.mem_cons_self, by omega, hx⟩
    · obtain ⟨r', hr', hin⟩ := ih h.2.2 (by omega)
      exact ⟨r', List.mem_cons_of_mem _ hr', hin⟩

end Tiles

end RagPipeline
