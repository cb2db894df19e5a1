/-
  RagPipeline.Lib.Pop — taking one element out of a list.

  `popFirst? p l` takes out the FIRST element that satisfies `p`, `popLast? p l` the LAST one; both
  return it with what is left, in order.  The specification is one permutation statement for each
  (`popFirst?_perm`, `popLast?_perm`), and `popFirst?_filter` / `popLast?_filter` say that popping
  sees nothing outside a set that contains every element it could take.

  `maxBy?` is the first maximal element of a list under a strict comparison.
-/
import Mathlib.Data.List.Perm.Basic
import Mathlib.Data.List.Lemmas

namespace RagPipeline.Lib

variable {α β : Type*}

/-! ## §1. Popping. -/

/-- Take out the first element satisfying `p`. -/
def popFirst? (p : α → Bool) : List α → Option (α × List α)
  | [] => none
  | a :: l => if p a then some (a, l) else (popFirst? p l).map (fun q => (q.1, a :: q.2))

/-- Take out the last element satisfying `p`. -/
def popLast? (p : α → Bool) (l : List α) : Option (α × List α) :=
  (popFirst? p l.reverse).map (fun q => (q.1, q.2.reverse))

theorem popFirst?_perm {p : α → Bool} :
    ∀ {l : List α} {a : α} {r : List α}, popFirst? p l = some (a, r) →
      p a = true ∧ l.Perm (a :: r)
  | [], _, _, h => by simp [popFirst?] at h
  | b :: l, a, r, h => by
      unfold popFirst? at h
      split at h
      · rename_i hp
        cases h
        exact ⟨hp, List.Perm.refl _⟩
      · obtain ⟨⟨c, t⟩, hc, he⟩ := Option.map_eq_some_iff.mp h
        cases he
        obtain ⟨hpa, hperm⟩ := popFirst?_perm hc
        exact ⟨hpa, (hperm.cons b).trans (List.Perm.swap _ _ t)⟩

theorem popLast?_perm {p : α → Bool} {l : List α} {a : α} {r : List α}
    (h : popLast? p l = some (a, r)) : p a = true ∧ l.Perm (a :: r) := by
  obtain ⟨⟨c, t⟩, hc, he⟩ := Option.map_eq_some_iff.mp h
  cases he
  obtain ⟨hpa, hperm⟩ := popFirst?_perm hc
  refine ⟨hpa, (List.reverse_perm l).symm.trans (hperm.trans ?_)⟩
  exact (List.reverse_perm t).symm.cons _

theorem popFirst?_eq_none {p : α → Bool} :
    ∀ {l : List α}, popFirst? p l = none ↔ ∀ a ∈ l, p a = false
  | [] => by simp [popFirst?]
  | b :: l => by
      unfold popFirst?
      split
      · rename_i hp
        simp [hp]
      · rename_i hp
        rw [Option.map_eq_none_iff, popFirst?_eq_none]
        simp [hp]

/-- Popping does not see what it could never take. -/
theorem popFirst?_filter {p q : α → Bool} (hpq : ∀ a, p a = true → q a = true) :
    ∀ (l : List α), popFirst? p (l.filter q)
      = (popFirst? p l).map (fun t => (t.1, t.2.filter q))
  | [] => rfl
  | b :: l => by
      by_cases hp : p b = true
      · simp [popFirst?, hp, hpq b hp]
      · have hl := popFirst?_filter hpq l
        have hnot : popFirst? p (b :: l) = (popFirst? p l).map (fun t => (t.1, b :: t.2)) := by
          rw [popFirst?, if_neg hp]
        by_cases hq : q b = true
        · rw [List.filter_cons_of_pos hq, popFirst?, if_neg hp, hl, hnot, Option.map_map,
            Option.map_map]
          congr 1
          funext t
          simp [hq]
        · rw [List.filter_cons_of_neg hq, hl, hnot, Option.map_map]
          congr 1
          funext t
          simp [hq]

theorem popLast?_filter {p q : α → Bool} (hpq : ∀ a, p a = true → q a = true) (l : List α) :
    popLast? p (l.filter q) = (popLast? p l).map (fun t => (t.1, t.2.filter q)) := by
  simp only [popLast?, ← List.filter_reverse, popFirst?_filter hpq, Option.map_map]
  congr 1
  funext t
  simp

/-- Popping an element that a filter drops does not change what the filter keeps. -/
theorem popFirst?_filter_of_not {p q : α → Bool} (hpq : ∀ a, p a = true → q a = false) :
    ∀ {l : List α} {a : α} {r : List α}, popFirst? p l = some (a, r) → r.filter q = l.filter q
  | [], _, _, h => by simp [popFirst?] at h
  | b :: l, a, r, h => by
      unfold popFirst? at h
      split at h
      · rename_i hp
        cases h
        rw [List.filter_cons_of_neg]
        simp [hpq b hp]
      · obtain ⟨⟨c, t⟩, hc, he⟩ := Option.map_eq_some_iff.mp h
        cases he
        rw [List.filter_cons, List.filter_cons, popFirst?_filter_of_not hpq hc]

theorem popLast?_filter_of_not {p q : α → Bool} (hpq : ∀ a, p a = true → q a = false)
    {l : List α} {a : α} {r : List α} (h : popLast? p l = some (a, r)) :
    r.filter q = l.filter q := by
  obtain ⟨⟨c, t⟩, hc, he⟩ := Option.map_eq_some_iff.mp h
  cases he
  have hrev := popFirst?_filter_of_not hpq hc
  rw [List.filter_reverse, hrev, List.filter_reverse, List.reverse_reverse]

/-- The same for the removal of one element. -/
theorem filter_eraseP_of_not {p q : α → Bool} {l : List α}
    (hpq : ∀ a ∈ l, p a = true → q a = false) : (l.eraseP p).filter q = l.filter q := by
  induction l with
  | nil => rfl
  | cons a l ih =>
      rw [List.eraseP_cons]
      cases hp : p a with
      | true =>
          have hq := hpq a List.mem_cons_self hp
          simp [hq]
      | false =>
          have hl := ih (fun b hb => hpq b (List.mem_cons_of_mem _ hb))
          simp only [cond_false, List.filter_cons, hl]

/-- The removal of one element commutes with a filter that keeps whatever could be removed. -/
theorem filter_eraseP {p q : α → Bool} {l : List α}
    (hpq : ∀ a ∈ l, p a = true → q a = true) :
    (l.eraseP p).filter q = (l.filter q).eraseP p := by
  induction l with
  | nil => rfl
  | cons a l ih =>
      have hl := ih (fun b hb => hpq b (List.mem_cons_of_mem _ hb))
      rw [List.eraseP_cons]
      cases hp : p a with
      | true =>
          have hq := hpq a List.mem_cons_self hp
          simp [hq, hp]
      | false =>
          cases hq : q a with
          | true => simp [hq, hp, hl]
          | false => simp [hq, hl]

/-! ## §2. The first maximal element. -/

/-- The element a left-to-right scan keeps when it moves on `gt` only. -/
def maxBy? (gt : α → α → Bool) : List α → Option α
  | [] => none
  | a :: l => some (l.foldl (fun best x => if gt x best then x else best) a)

theorem foldl_max_mem (gt : α → α → Bool) :
    ∀ (l : List α) (a : α),
      l.foldl (fun best x => if gt x best then x else best) a ∈ a :: l
  | [], a => by simp
  | b :: l, a => by
      simp only [List.foldl_cons]
      split
      · exact List.mem_cons_of_mem _ (foldl_max_mem gt l b)
      · rcases List.mem_cons.mp (foldl_max_mem gt l a) with h | h
        · rw [h]
          exact List.mem_cons_self
        · exact List.mem_cons_of_mem _ (List.mem_cons_of_mem _ h)

theorem maxBy?_mem {gt : α → α → Bool} {l : List α} {a : α} (h : maxBy? gt l = some a) :
    a ∈ l := by
  cases l with
  | nil => simp [maxBy?] at h
  | cons b l =>
      have hb := foldl_max_mem gt l b
      simp only [maxBy?, Option.some.injEq] at h
      exact h ▸ hb

@[simp] theorem maxBy?_eq_none {gt : α → α → Bool} {l : List α} :
    maxBy? gt l = none ↔ l = [] := by
  cases l <;> simp [maxBy?]

/-- What the scan keeps is over every element, in any preorder the comparison decides. -/
theorem maxBy?_rel {gt : α → α → Bool} {R : α → α → Prop} (hrefl : ∀ a, R a a)
    (htrans : ∀ a b c, R a b → R b c → R a c) (hgt : ∀ a b, gt a b = true → R b a)
    (hnot : ∀ a b, gt a b = false → R a b) {l : List α} {a : α} (h : maxBy? gt l = some a) :
    ∀ x ∈ l, R x a := by
  have key : ∀ (l : List α) (best : α), R best (l.foldl (fun best x => if gt x best then x else best) best)
      ∧ ∀ x ∈ l, R x (l.foldl (fun best x => if gt x best then x else best) best) := by
    intro l
    induction l with
    | nil => exact fun best => ⟨hrefl best, fun x hx => absurd hx List.not_mem_nil⟩
    | cons y l ih =>
      intro best
      rw [List.foldl_cons]
      have hy : R best (if gt y best then y else best) ∧ R y (if gt y best then y else best) := by
        cases hcase : gt y best with
        | true => exact ⟨hgt y best hcase, hrefl y⟩
        | false => exact ⟨hrefl best, hnot y best hcase⟩
      obtain ⟨hbest, hrest⟩ := ih (if gt y best then y else best)
      refine ⟨htrans _ _ _ hy.1 hbest, fun x hx => ?_⟩
      rcases List.mem_cons.mp hx with rfl | hx
      · exact htrans _ _ _ hy.2 hbest
      · exact hrest x hx
  cases l with
  | nil => cases h
  | cons b l =>
    have ha : l.foldl (fun best x => if gt x best then x else best) b = a := Option.some.inj h
    intro x hx
    rcases List.mem_cons.mp hx with rfl | hx
    · exact ha ▸ (key l x).1
    · exact ha ▸ (key l b).2 x hx

/-- The scan commutes with a map that preserves the comparison. -/
theorem maxBy?_map {gt : α → α → Bool} {gt' : β → β → Bool} (f : α → β) {l : List α}
    (h : ∀ a ∈ l, ∀ b ∈ l, gt' (f a) (f b) = gt a b) :
    maxBy? gt' (l.map f) = (maxBy? gt l).map f := by
  cases l with
  | nil => rfl
  | cons a l =>
      have key : ∀ (t : List α) (c : α), c ∈ a :: l → (∀ x ∈ t, x ∈ a :: l) →
          (t.map f).foldl (fun best x => if gt' x best then x else best) (f c)
            = f (t.foldl (fun best x => if gt x best then x else best) c) := by
        intro t
        induction t with
        | nil => intro c _ _; rfl
        | cons x t ih =>
            intro c hc ht
            have hx : x ∈ a :: l := ht x List.mem_cons_self
            have ht' : ∀ y ∈ t, y ∈ a :: l := fun y hy => ht y (List.mem_cons_of_mem _ hy)
            simp only [List.map_cons, List.foldl_cons, h x hx c hc]
            split
            · exact ih x hx ht'
            · exact ih c hc ht'
      simp only [List.map_cons, maxBy?, Option.map_some]
      rw [key l a List.mem_cons_self (fun x hx => List.mem_cons_of_mem _ hx)]

end RagPipeline.Lib
