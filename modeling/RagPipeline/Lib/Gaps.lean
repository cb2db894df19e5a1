/-
  RagPipeline.Lib.Gaps — sets of points with no wide gap between them.

    * `noGap_union`             — two such sets that both reach near a common upper bound make one;
    * `noGap_iff_consecutive`   — for finitely many points: two neighbours are never far apart.
-/
import Mathlib.Algebra.Order.Group.Defs
import Mathlib.Data.Set.Finite.Lemmas

namespace RagPipeline.Lib

variable {α : Type*} [AddCommGroup α] [LinearOrder α] {gap bound : α} {S S' : Set α}

/-- Every point that is not the last has another one after it, at most `gap` away. -/
def NoGap (gap : α) (S : Set α) : Prop :=
  ∀ a ∈ S, ∀ b ∈ S, a < b → ∃ c ∈ S, a < c ∧ c - a ≤ gap

/-- Nothing is after the bound, and something is at most `gap` before it, if there is anything. -/
def Near (gap bound : α) (S : Set α) : Prop :=
  (∀ a ∈ S, a ≤ bound) ∧ ∀ a ∈ S, ∃ m ∈ S, bound - gap ≤ m

theorem noGap_empty : NoGap gap (∅ : Set α) := fun _ ha => absurd ha (Set.notMem_empty _)

theorem near_empty : Near gap bound (∅ : Set α) :=
  ⟨fun _ ha => absurd ha (Set.notMem_empty _), fun _ ha => absurd ha (Set.notMem_empty _)⟩

theorem noGap_singleton (t : α) : NoGap gap {t} := by
  intro a ha b hb hlt
  rw [Set.mem_singleton_iff.mp ha, Set.mem_singleton_iff.mp hb] at hlt
  exact absurd hlt (lt_irrefl t)

theorem near_singleton {t : α} (hle : t ≤ bound) (hfresh : bound - gap ≤ t) : Near gap bound {t} := by
  constructor
  · intro a ha
    exact (Set.mem_singleton_iff.mp ha) ▸ hle
  · intro a _
    exact ⟨t, Set.mem_singleton t, hfresh⟩

theorem Near.union (h : Near gap bound S) (h' : Near gap bound S') : Near gap bound (S ∪ S') := by
  constructor
  · intro a ha
    exact ha.elim (h.1 a) (h'.1 a)
  · intro a ha
    rcases ha with ha | ha
    · obtain ⟨m, hm, hle⟩ := h.2 a ha
      exact ⟨m, Or.inl hm, hle⟩
    · obtain ⟨m, hm, hle⟩ := h'.2 a ha
      exact ⟨m, Or.inr hm, hle⟩

variable [IsOrderedAddMonoid α]

/-- The last point of a set near the bound is within `gap` of whatever the bound bounds. -/
theorem step_of_near (hgap : NoGap gap S) (h : Near gap bound S) {a b : α} (ha : a ∈ S)
    (hb : b ≤ bound) : (∃ c ∈ S, a < c ∧ c - a ≤ gap) ∨ b - a ≤ gap := by
  by_cases hlast : ∃ c ∈ S, a < c
  · obtain ⟨c, hc, hac⟩ := hlast
    exact Or.inl (hgap a ha c hc hac)
  · obtain ⟨m, hm, hle⟩ := h.2 a ha
    have hma : m ≤ a := not_lt.mp fun hma => hlast ⟨m, hm, hma⟩
    refine Or.inr ?_
    calc b - a ≤ bound - m := sub_le_sub hb hma
      _ ≤ gap := by rwa [sub_le_comm] at hle

/-- **Two sets without a wide gap that reach near the same bound have none together.** -/
theorem noGap_union (hS : NoGap gap S) (hS' : NoGap gap S') (h : Near gap bound S)
    (h' : Near gap bound S') : NoGap gap (S ∪ S') := by
  intro a ha b hb hlt
  have hbound : b ≤ bound := hb.elim (h.1 b) (h'.1 b)
  rcases ha with ha | ha
  · rcases step_of_near hS h ha hbound with ⟨c, hc, hac⟩ | hnext
    · exact ⟨c, Or.inl hc, hac⟩
    · exact ⟨b, hb, hlt, hnext⟩
  · rcases step_of_near hS' h' ha hbound with ⟨c, hc, hac⟩ | hnext
    · exact ⟨c, Or.inr hc, hac⟩
    · exact ⟨b, hb, hlt, hnext⟩

/-- **Of finitely many points, no two neighbours are far apart.** -/
theorem noGap_iff_consecutive (hfin : S.Finite) :
    NoGap gap S ↔ ∀ a ∈ S, ∀ b ∈ S, a < b → (∀ c ∈ S, c ≤ a ∨ b ≤ c) → b - a ≤ gap := by
  constructor
  · intro h a ha b hb hlt hnone
    obtain ⟨c, hc, hac, hle⟩ := h a ha b hb hlt
    have hbc : b ≤ c := (hnone c hc).resolve_left (not_le.mpr hac)
    exact (sub_le_sub_right hbc a).trans hle
  · intro h a ha b hb hlt
    obtain ⟨c, hc, hmin⟩ := Set.exists_min_image {x | x ∈ S ∧ a < x} id
      (hfin.subset fun x hx => hx.1) ⟨b, hb, hlt⟩
    refine ⟨c, hc.1, hc.2, h a ha c hc.1 hc.2 fun x hx => ?_⟩
    by_cases hax : a < x
    · exact Or.inr (hmin x ⟨hx, hax⟩)
    · exact Or.inl (not_lt.mp hax)

end RagPipeline.Lib
