/-
  RagPipeline.Lib.OptionLoops — loops that may raise: `mapM` and `foldlM` where `none` is an exception.

    * `mapM_isSome`          — a map returns if and only if it does on every element;
    * `map_of_mapM`          — what it returns, and its members (`mem_mapM`, `mem_mapM_left`);
    * `mapM_eq_map`          — a map that never raises;
    * `mapM_pair`            — a map that keeps its arguments;
    * `foldlM_induct`        — what every step keeps holds after a fold that returns;
    * `foldlM_congr_mem`     — folds whose steps agree on the elements.
-/
import Mathlib.Data.List.Basic
import Mathlib.Data.Option.Basic

namespace RagPipeline.Lib

/-! ## §1. Maps. -/

section Maps

variable {α β : Type*}

theorem mapM_isSome {g : α → Option β} {l : List α} : (l.mapM g).isSome ↔ ∀ a ∈ l, (g a).isSome := by
  induction l with
  | nil => exact ⟨fun _ a ha => (nomatch ha), fun _ => rfl⟩
  | cons a l ih =>
    rw [List.mapM_cons, List.forall_mem_cons, ← ih]
    cases g a <;> cases l.mapM g <;> simp

theorem map_of_mapM {f : α → Option β} {l : List α} {out : List β} (h : l.mapM f = some out) :
    l.map f = out.map some := by
  induction l generalizing out with
  | nil =>
    obtain rfl : [] = out := Option.some.inj h
    rfl
  | cons a l ih =>
    rw [List.mapM_cons] at h
    obtain ⟨x, hx, hrest⟩ := Option.bind_eq_some_iff.mp h
    obtain ⟨xs, hxs, hout⟩ := Option.bind_eq_some_iff.mp hrest
    obtain rfl : x :: xs = out := Option.some.inj hout
    rw [List.map_cons, List.map_cons, ih hxs, hx]

theorem mem_mapM {f : α → Option β} {l : List α} {out : List β} (h : l.mapM f = some out) (b : β) :
    b ∈ out ↔ ∃ a ∈ l, f a = some b := by
  rw [← List.mem_map, map_of_mapM h, List.mem_map_of_injective (Option.some_injective β)]

theorem mem_mapM_left {f : α → Option β} {l : List α} {out : List β} (h : l.mapM f = some out) :
    ∀ a ∈ l, ∃ b ∈ out, f a = some b := by
  intro a ha
  have hmem : f a ∈ out.map some := map_of_mapM h ▸ List.mem_map_of_mem ha
  obtain ⟨b, hb, heq⟩ := List.mem_map.mp hmem
  exact ⟨b, hb, heq.symm⟩

/-- On these elements the function is a plain one. -/
theorem mapM_eq_map {f : α → Option β} {g : α → β} {l : List α} (h : ∀ a ∈ l, f a = some (g a)) :
    l.mapM f = some (l.map g) := by
  induction l with
  | nil => rfl
  | cons a l ih =>
    obtain ⟨ha, hl⟩ := List.forall_mem_cons.mp h
    rw [List.mapM_cons, ha, ih hl]
    rfl

/-- Mapping with a function that gives `g` where it does not raise. -/
theorem mapM_some {f : α → Option β} {g : α → β} (hg : ∀ a b, f a = some b → b = g a) (l : List α) {out : List β}
    (h : l.mapM f = some out) : out = l.map g ∧ ∀ a ∈ l, (f a).isSome := by
  have hall : ∀ a ∈ l, (f a).isSome := mapM_isSome.mp (h ▸ rfl)
  have hplain : ∀ a ∈ l, f a = some (g a) := by
    intro a ha
    obtain ⟨b, hb⟩ := Option.isSome_iff_exists.mp (hall a ha)
    rw [hb, hg a b hb]
  exact ⟨Option.some.inj (h.symm.trans (mapM_eq_map hplain)), hall⟩

/-- Mapping with a function that may raise, and keeping the argument. -/
theorem mapM_pair (g : α → Option β) (ks : List α) {out : List (α × β)} :
    ks.mapM (fun k => (g k).map (Prod.mk k)) = some out ↔
      out.map Prod.fst = ks ∧ ∀ p ∈ out, g p.1 = some p.2 := by
  induction ks generalizing out with
  | nil =>
    constructor
    · intro h
      obtain rfl := Option.some.inj h
      exact ⟨rfl, fun p hp => absurd hp List.not_mem_nil⟩
    · rintro ⟨h, -⟩
      rw [List.map_eq_nil_iff.mp h]
      rfl
  | cons k ks ih =>
    simp only [List.mapM_cons, Option.bind_eq_bind, Option.bind_eq_some_iff, Option.pure_def,
      Option.some.injEq, Option.map_eq_some_iff]
    constructor
    · rintro ⟨-, ⟨v, hv, rfl⟩, rest, hrest, rfl⟩
      obtain ⟨hkeys, hall⟩ := ih.mp hrest
      refine ⟨by rw [List.map_cons, hkeys], ?_⟩
      intro p hp
      rcases List.mem_cons.mp hp with rfl | hp
      · exact hv
      · exact hall p hp
    · rintro ⟨hkeys, hall⟩
      cases out with
      | nil => simp at hkeys
      | cons p rest =>
        obtain ⟨rfl, hrest⟩ := List.cons.inj hkeys
        refine ⟨p, ⟨p.2, hall p List.mem_cons_self, rfl⟩, rest, ?_, rfl⟩
        exact ih.mpr ⟨hrest, fun p' hp' => hall p' (List.mem_cons_of_mem _ hp')⟩

end Maps

/-! ## §2. Folds. -/

section Folds

variable {α β : Type*}

/-- A property that every step keeps holds after a fold that returns. -/
theorem foldlM_induct {P : β → Prop} {step : β → α → Option β} (hstep : ∀ s a s', P s → step s a = some s' → P s')
    (xs : List α) {s s' : β} (hs : P s) (h : xs.foldlM step s = some s') : P s' := by
  induction xs generalizing s with
  | nil =>
    obtain rfl : s = s' := by simpa using h
    exact hs
  | cons x xs ih =>
    rw [List.foldlM_cons] at h
    obtain ⟨t, ht, hrest⟩ := Option.bind_eq_some_iff.mp h
    exact ih (hstep s x t hs ht) hrest

theorem foldlM_congr_mem {f g : β → α → Option β} {l : List α} (h : ∀ a ∈ l, ∀ b, f b a = g b a) (b : β) :
    l.foldlM f b = l.foldlM g b := by
  induction l generalizing b with
  | nil => rfl
  | cons a l ih =>
    rw [List.foldlM_cons, List.foldlM_cons, h a List.mem_cons_self]
    exact congrArg _ (funext (ih fun x hx => h x (List.mem_cons_of_mem _ hx)))

end Folds

end RagPipeline.Lib
