/-
  RagPipeline.Lib.Accumulate — loops whose state is a merge of what their steps bring.

  A step accumulates when, from any state, it does what it does from the empty one and merges that
  into the state (`Accumulates`).  Steps that do compose (`Accumulates.bind`), so a loop of them does
  (`Accumulates.foldlM`), and a loop over two lists is the merge of the two loops (`foldlM_append_merge`).
-/
import Mathlib.Data.List.Basic

namespace RagPipeline.Lib

section Accumulate

variable {σ α : Type*} {Inv : σ → Prop} {empty : σ} {merge : σ → σ → σ}

/-- A step that may raise, and merges what it makes of the empty state into any other. -/
def Accumulates (Inv : σ → Prop) (empty : σ) (merge : σ → σ → σ) (step : σ → Option σ) : Prop :=
  ∀ s, Inv s → step s = (step empty).map (merge s) ∧ ∀ s' ∈ step s, Inv s'

namespace Accumulates

/-- Doing nothing accumulates, if the empty state is neutral. -/
theorem skip (hneutral : ∀ s, Inv s → merge s empty = s) : Accumulates Inv empty merge some := by
  intro s hs
  constructor
  · show some s = some (merge s empty)
    rw [hneutral s hs]
  · intro s' hs'
    exact Option.some.inj hs' ▸ hs

/-- One step after another. -/
theorem bind (hassoc : ∀ a b c, merge (merge a b) c = merge a (merge b c)) (hempty : Inv empty)
    {f g : σ → Option σ} (hf : Accumulates Inv empty merge f) (hg : Accumulates Inv empty merge g) :
    Accumulates Inv empty merge fun s => (f s).bind g := by
  intro s hs
  constructor
  · show (f s).bind g = ((f empty).bind g).map (merge s)
    have hfirst : f s = (f empty).map (merge s) := (hf s hs).1
    cases hu : f empty with
    | none =>
      rw [hu] at hfirst
      rw [hfirst]
      rfl
    | some u =>
      rw [hu] at hfirst
      have hu' : Inv u := (hf empty hempty).2 u hu
      have hsu : Inv (merge s u) := (hf s hs).2 _ hfirst
      rw [hfirst]
      show g (merge s u) = (g u).map (merge s)
      rw [show g (merge s u) = (g empty).map (merge (merge s u)) from (hg _ hsu).1,
        show g u = (g empty).map (merge u) from (hg u hu').1, Option.map_map]
      congr 1
      funext t
      exact hassoc s u t
  · intro s' hs'
    obtain ⟨u, hu, hs'⟩ := Option.bind_eq_some_iff.mp hs'
    exact (hg u ((hf s hs).2 u hu)).2 s' hs'

/-- **A loop of such steps.** -/
theorem foldlM (hassoc : ∀ a b c, merge (merge a b) c = merge a (merge b c)) (hempty : Inv empty)
    (hneutral : ∀ s, Inv s → merge s empty = s) {step : σ → α → Option σ} (l : List α)
    (h : ∀ a ∈ l, Accumulates Inv empty merge fun s => step s a) :
    Accumulates Inv empty merge fun s => l.foldlM step s := by
  induction l with
  | nil => exact skip hneutral
  | cons a l ih =>
    have hrest := ih fun b hb => h b (List.mem_cons_of_mem _ hb)
    exact (h a List.mem_cons_self).bind hassoc hempty hrest

end Accumulates

/-- **A loop over two lists** is the merge of the two loops. -/
theorem foldlM_append_merge (hassoc : ∀ a b c, merge (merge a b) c = merge a (merge b c)) (hempty : Inv empty)
    (hneutral : ∀ s, Inv s → merge s empty = s) {step : σ → α → Option σ} (xs ys : List α)
    (h : ∀ a ∈ xs ++ ys, Accumulates Inv empty merge fun s => step s a) :
    (xs ++ ys).foldlM step empty =
      (xs.foldlM step empty).bind fun a => (ys.foldlM step empty).map fun b => merge a b := by
  have hxs := Accumulates.foldlM hassoc hempty hneutral xs fun a ha => h a (List.mem_append_left _ ha)
  have hys := Accumulates.foldlM hassoc hempty hneutral ys fun a ha => h a (List.mem_append_right _ ha)
  rw [List.foldlM_append]
  cases ha : xs.foldlM step empty with
  | none => rfl
  | some a => exact (hys a ((hxs empty hempty).2 a ha)).1

end Accumulate

/-- Two loops whose steps correspond. -/
theorem foldlM_correspond {σ τ α : Type*} {f : σ → α → Option σ} {g : τ → α → Option τ} (φ : σ → τ)
    (h : ∀ s a, (f s a).map φ = g (φ s) a) (l : List α) (s : σ) :
    (l.foldlM f s).map φ = l.foldlM g (φ s) := by
  induction l generalizing s with
  | nil => rfl
  | cons a l ih =>
    show ((f s a).bind fun s' => l.foldlM f s').map φ = (g (φ s) a).bind fun t => l.foldlM g t
    rw [← h s a]
    cases f s a with
    | none => rfl
    | some s' => exact ih s'

end RagPipeline.Lib
