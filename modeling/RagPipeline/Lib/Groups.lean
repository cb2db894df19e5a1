/-
  RagPipeline.Lib.Groups — a list by the keys of its elements.

    * `filter_append_filter` — two disjoint parts, put together;
    * `filter_append_sorted` — of a sorted list, one before the other;
    * `flatMap_groups`       — the groups of some keys, put together, are the part with these keys;
    * `sum_groups`           — and so are their sums.
-/
import Mathlib.Algebra.BigOperators.Group.List.Basic
import Mathlib.Algebra.GroupWithZero.Nat
import Mathlib.Data.List.Nodup

namespace RagPipeline.Lib

variable {α κ : Type} [DecidableEq κ]

/-- Two disjoint parts of a list are the part of both. -/
theorem filter_append_filter (l : List α) {p q : α → Bool}
    (h : ∀ x ∈ l, ¬(p x = true ∧ q x = true)) :
    (l.filter p ++ l.filter q).Perm (l.filter fun x => p x || q x) := by
  induction l with
  | nil => exact List.Perm.nil
  | cons x l ih =>
    have hl := ih fun y hy => h y (List.mem_cons_of_mem _ hy)
    have hx := h x List.mem_cons_self
    by_cases hp : p x = true
    · have hq : q x = false := by simpa [hp] using hx
      simpa [hp, hq] using hl
    · by_cases hq : q x = true
      · have hmid : (l.filter p ++ x :: l.filter q).Perm (x :: l.filter fun x => p x || q x) :=
          List.perm_middle.trans (hl.cons x)
        simpa [hp, hq] using hmid
      · simpa [hp, hq] using hl

omit [DecidableEq κ] in
/-- Two parts of a sorted list, one before the other, are the part of both. -/
theorem filter_append_sorted (key : α → ℕ) {l : List α} (hl : l.Pairwise fun a b => key a < key b) {p q : α → Bool}
    (h : ∀ x y, p x = true → q y = true → key x < key y) :
    l.filter p ++ l.filter q = l.filter fun x => p x || q x := by
  induction hl with
  | nil => rfl
  | @cons x l hx _ ih =>
    by_cases hp : p x = true
    · have hq : q x = false := Bool.eq_false_iff.mpr fun hq => Nat.lt_irrefl _ (h x x hp hq)
      simp [hp, hq, ih]
    · by_cases hq : q x = true
      · -- what is before `x` would have come before it
        have hnone : l.filter p = [] :=
          List.filter_eq_nil_iff.mpr fun y hy hpy => Nat.lt_asymm (hx y hy) (h y x hpy hq)
        rw [hnone, List.nil_append] at ih
        simp [hp, hq, hnone, ih]
      · simp [hp, hq, ih]

/-- **The groups of a list put together are the list.** -/
theorem flatMap_groups (key : α → κ) (l : List α) (ks : List κ) (hn : ks.Nodup) :
    (ks.flatMap fun k => l.filter fun x => decide (key x = k)).Perm
      (l.filter fun x => decide (key x ∈ ks)) := by
  induction ks with
  | nil => simp
  | cons k ks ih =>
    obtain ⟨hk, hn⟩ := List.nodup_cons.mp hn
    rw [List.flatMap_cons]
    have hdisjoint : ∀ x ∈ l, ¬(decide (key x = k) = true ∧ decide (key x ∈ ks) = true) := by
      rintro x - ⟨h₁, h₂⟩
      exact hk (of_decide_eq_true h₁ ▸ of_decide_eq_true h₂)
    have hboth := ((ih hn).append_left (l.filter fun x => decide (key x = k))).trans
      (filter_append_filter l hdisjoint)
    simpa [List.mem_cons] using hboth

/-- **The sums of the groups add up to the sum of the list.** -/
theorem sum_groups (key : α → Option κ) (c : α → ℕ) (l : List α) (ks : List κ) (hn : ks.Nodup) :
    (ks.map fun k => ((l.filter fun x => decide (key x = some k)).map c).sum).sum =
      ((l.filter fun x => (key x).any fun k => decide (k ∈ ks)).map c).sum := by
  induction ks with
  | nil =>
    have hnil : (l.filter fun x => (key x).any fun k => decide (k ∈ ([] : List κ))) = [] := by
      rw [List.filter_eq_nil_iff]
      intro x _
      cases key x <;> simp
    rw [hnil]
    rfl
  | cons k ks ih =>
    obtain ⟨hk, hn⟩ := List.nodup_cons.mp hn
    have hdisjoint : ∀ x ∈ l, ¬(decide (key x = some k) = true ∧
        ((key x).any fun k => decide (k ∈ ks)) = true) := by
      rintro x - ⟨h₁, h₂⟩
      rw [of_decide_eq_true h₁, Option.any_some] at h₂
      exact hk (of_decide_eq_true h₂)
    have hboth := ((filter_append_filter l hdisjoint).map c).sum_eq
    rw [List.map_append, List.sum_append] at hboth
    rw [List.map_cons, List.sum_cons, ih hn, hboth]
    congr 2
    apply List.filter_congr
    intro x _
    cases hx : key x with
    | none => simp
    | some k' => simp [List.mem_cons]

end RagPipeline.Lib
