/-
  RagPipeline.Lib.Substitute — replacing what a pattern finds, from left to right.

  A pattern looks at a place of a text, and at the element before it, and finds what it takes there and
  what is shown in its place.  `Pattern.sub` goes over the text once and does not look again at what it
  has shown.

    * `Pattern.Settled`     — a text in which the pattern finds only what it shows already;
    * `Settled.sub_eq`      — which it leaves as it is;
    * `Settled.of_sub`      — and which stays settled under the substitution of another pattern;
    * `Blotted`             — a text with some stretches of it blotted out, as a substitution leaves it;
    * `Pattern.sub_key`     — where a stretch of the result that is not shown as a whole comes from.
-/
import Mathlib.Data.List.Basic
import Mathlib.Data.List.Infix

namespace RagPipeline.Lib

/-! ## §1. Patterns. -/

/-- What is taken at a place, what is shown instead, and what comes after. -/
structure Found (α : Type) where
  taken : List α
  shown : List α
  rest : List α

/-- Where a pattern finds what; it never finds nothing. -/
structure Pattern (α : Type) where
  find : Option α → List α → Option (Found α)
  cut : ∀ before t f, find before t = some f → t = f.taken ++ f.rest
  nonempty : ∀ before t f, find before t = some f → f.taken ≠ []

namespace Pattern

variable {α : Type} (p : Pattern α)

theorem find_nil (before : Option α) : p.find before [] = none := by
  cases h : p.find before [] with
  | none => rfl
  | some f =>
    have hcut := p.cut before [] f h
    exact absurd (List.append_eq_nil_iff.mp hcut.symm).1 (p.nonempty before [] f h)

variable {p}

theorem rest_length {before : Option α} {t : List α} {f : Found α} (h : p.find before t = some f) :
    f.rest.length < t.length := by
  have hcut := congrArg List.length (p.cut before t f h)
  have hpos : 0 < f.taken.length := List.length_pos_of_ne_nil (p.nonempty before t f h)
  rw [List.length_append] at hcut
  omega

variable (p)

/-- Over a text of at most so many elements. -/
def subFrom : ℕ → Option α → List α → List α
  | 0, _, t => t
  | _ + 1, _, [] => []
  | n + 1, before, c :: t =>
    match p.find before (c :: t) with
    | none => c :: subFrom n (some c) t
    | some f => f.shown ++ subFrom n f.taken.getLast? f.rest

/-- All that the pattern finds in a text replaced, from left to right. -/
def sub (before : Option α) (t : List α) : List α := p.subFrom t.length before t

theorem subFrom_enough (n : ℕ) : ∀ (before : Option α) (t : List α), t.length ≤ n →
    p.subFrom n before t = p.sub before t := by
  induction n using Nat.strong_induction_on with
  | _ n ih =>
    intro before t hn
    cases t with
    | nil =>
      cases n with
      | zero => rfl
      | succ n => rfl
    | cons c t =>
      obtain ⟨m, rfl⟩ : ∃ m, n = m + 1 := ⟨n - 1, by simp only [List.length_cons] at hn; omega⟩
      have hm : t.length ≤ m := by
        simp only [List.length_cons] at hn
        omega
      unfold sub
      simp only [List.length_cons, subFrom]
      cases hf : p.find before (c :: t) with
      | none =>
        show c :: p.subFrom m (some c) t = c :: p.subFrom t.length (some c) t
        rw [ih m (by omega) (some c) t hm]
        rfl
      | some f =>
        -- a find takes something, so what is left is shorter than what there was
        have hlen : f.rest.length ≤ t.length := by
          have := rest_length hf
          simp only [List.length_cons] at this
          omega
        show f.shown ++ p.subFrom m _ f.rest = f.shown ++ p.subFrom t.length _ f.rest
        rw [ih m (by omega) _ f.rest (by omega)]
        by_cases hmt : t.length = m
        · rw [hmt, ih m (by omega) _ f.rest (by omega)]
        · rw [ih t.length (by omega) _ f.rest hlen]

@[simp] theorem sub_nil (before : Option α) : p.sub before [] = [] := rfl

variable {p}

theorem sub_none {before : Option α} {c : α} {t : List α} (h : p.find before (c :: t) = none) :
    p.sub before (c :: t) = c :: p.sub (some c) t := by
  show p.subFrom (t.length + 1) before (c :: t) = _
  rw [subFrom, h]
  rfl

theorem sub_some {before : Option α} {t : List α} {f : Found α} (h : p.find before t = some f) :
    p.sub before t = f.shown ++ p.sub f.taken.getLast? f.rest := by
  cases t with
  | nil => exact absurd h (by rw [find_nil]; nofun)
  | cons c t =>
    have hlen := rest_length h
    simp only [List.length_cons] at hlen
    show p.subFrom (t.length + 1) before (c :: t) = _
    rw [subFrom, h]
    show f.shown ++ p.subFrom t.length _ f.rest = _
    rw [subFrom_enough p t.length _ f.rest (by omega)]

/-- The way a substitution goes over a text. -/
theorem sub_induction {motive : Option α → List α → Prop} (nil : ∀ before, motive before [])
    (copy : ∀ before c t, p.find before (c :: t) = none → motive (some c) t → motive before (c :: t))
    (hit : ∀ before t f, p.find before t = some f → motive f.taken.getLast? f.rest → motive before t)
    (before : Option α) (t : List α) : motive before t := by
  induction hn : t.length using Nat.strong_induction_on generalizing before t with
  | _ n ih =>
    cases t with
    | nil => exact nil before
    | cons c t =>
      cases hf : p.find before (c :: t) with
      | none =>
        refine copy before c t hf (ih t.length ?_ (some c) t rfl)
        rw [← hn, List.length_cons]
        omega
      | some f => exact hit before (c :: t) f hf (ih f.rest.length (hn ▸ rest_length hf) _ f.rest rfl)

/-- Shows `w` as it is, wherever it stands. -/
def Copies (p : Pattern α) (w : List α) : Prop :=
  ∀ before t, ∃ after, p.sub before (w ++ t) = w ++ p.sub after t

theorem Copies.append {w w' : List α} (h : p.Copies w) (h' : p.Copies w') : p.Copies (w ++ w') := by
  intro before t
  obtain ⟨after, hw⟩ := h before (w' ++ t)
  obtain ⟨after', hw'⟩ := h' after t
  exact ⟨after', by rw [List.append_assoc, hw, hw', List.append_assoc]⟩

/-- `w` is copied if nothing is found that begins in it. -/
theorem copies_of_find {w : List α}
    (h : ∀ x c y, w = x ++ c :: y → ∀ before t, p.find before (c :: (y ++ t)) = none) : p.Copies w := by
  induction w with
  | nil => exact fun before t => ⟨before, rfl⟩
  | cons c w ih =>
    intro before t
    obtain ⟨after, hw⟩ := ih (fun x d y hxy => h (c :: x) d y (by rw [hxy]; rfl)) (some c) t
    refine ⟨after, ?_⟩
    rw [List.cons_append, sub_none (h [] c w rfl before t), hw]
    rfl

/-- Where something is found at certain elements only, nothing is found at the others. -/
theorem find_none_of_starts {starts : α → Prop} (hp : ∀ before c t f, p.find before (c :: t) = some f → starts c) {c : α}
    (hc : ¬ starts c) (before : Option α) (t : List α) : p.find before (c :: t) = none := by
  cases hf : p.find before (c :: t) with
  | none => rfl
  | some f => exact absurd (hp before c t f hf) hc

/-- Where something is found at certain elements only, all others are copied. -/
theorem copies_of_starts {starts : α → Prop} (hp : ∀ before c t f, p.find before (c :: t) = some f → starts c)
    {w : List α} (hw : ∀ c ∈ w, ¬ starts c) : p.Copies w :=
  copies_of_find fun x _ _ hxy before _ =>
    find_none_of_starts hp (hw _ (hxy ▸ List.mem_append_right x List.mem_cons_self)) before _

/-- A text in which nothing is found comes back. -/
theorem sub_eq_self {t : List α} (h : ∀ s, s <:+ t → ∀ before, p.find before s = none) (before : Option α) :
    p.sub before t = t := by
  induction t generalizing before with
  | nil => rfl
  | cons c t ih =>
    rw [sub_none (h _ (List.suffix_refl _) before),
      ih (fun s hs => h s (hs.trans (List.suffix_cons c t)))]

end Pattern

/-! ## §2. Settled texts. -/

namespace Pattern

variable {α : Type} {p q : Pattern α}

/-- What the pattern finds, going over the text, is what it shows already. -/
inductive Settled (p : Pattern α) : Option α → List α → Prop
  | nil (before) : Settled p before []
  | copy {before c t} (none : p.find before (c :: t) = none) (next : Settled p (some c) t) :
      Settled p before (c :: t)
  | hit {before t f} (find : p.find before t = some f) (shown : f.shown = f.taken)
      (next : Settled p f.taken.getLast? f.rest) : Settled p before t

/-- A settled text is left as it is. -/
theorem Settled.sub_eq {before : Option α} {t : List α} (h : p.Settled before t) : p.sub before t = t := by
  induction h with
  | nil before => rfl
  | copy hnone _ ih => rw [sub_none hnone, ih]
  | hit hfind hshown _ ih => rw [sub_some hfind, ih, hshown, ← p.cut _ _ _ hfind]

/-- Does not look at what stands before. -/
def Anywhere (p : Pattern α) : Prop := ∀ before before' t, p.find before t = p.find before' t

theorem Settled.anywhere (hp : p.Anywhere) {before : Option α} {t : List α} (h : p.Settled before t)
    (before' : Option α) : p.Settled before' t := by
  cases h with
  | nil => exact .nil _
  | copy hnone hnext => exact .copy (hp before before' _ ▸ hnone) hnext
  | hit hfind hshown hnext => exact .hit (hp before before' _ ▸ hfind) hshown hnext

section Starts

variable {starts : α → Prop} (hp : ∀ before c t f, p.find before (c :: t) = some f → starts c)
include hp

/-- Where something is found at certain elements only, the others may stand before a settled text. -/
theorem Settled.append {w t : List α} (hw : ∀ c ∈ w, ¬ starts c) (ht : ∀ before, p.Settled before t) :
    ∀ before, p.Settled before (w ++ t) := by
  induction w with
  | nil => exact ht
  | cons c w ih =>
    intro before
    exact .copy (find_none_of_starts hp (hw c List.mem_cons_self) before _)
      (ih (fun d hd => hw d (List.mem_cons_of_mem c hd)) _)

/-- And what comes after them is settled if all is. -/
theorem Settled.of_append {w t : List α} (hw : ∀ c ∈ w, ¬ starts c) {before : Option α}
    (h : p.Settled before (w ++ t)) : ∃ after, p.Settled after t := by
  induction w generalizing before with
  | nil => exact ⟨before, h⟩
  | cons c w ih =>
    have hnone := find_none_of_starts hp (hw c List.mem_cons_self) before (w ++ t)
    generalize hu : c :: w ++ t = u at h
    cases h with
    | nil => exact absurd hu (List.cons_ne_nil c (w ++ t))
    | @copy _ d u _ hnext =>
      obtain ⟨rfl, rfl⟩ := List.cons.inj hu
      exact ih (fun d hd => hw d (List.mem_cons_of_mem _ hd)) hnext
    | hit hfind _ _ =>
      rw [← hu, List.cons_append, hnone] at hfind
      exact absurd hfind nofun

end Starts

/-- What is found nowhere in the settled finds cuts a settled text in two. -/
theorem Settled.after {d : α} (hd : ∀ before t f, p.find before t = some f → f.shown = f.taken → d ∉ f.taken)
    {before : Option α} {t : List α} (h : p.Settled before t) : ∀ {a b : List α}, t = a ++ d :: b →
    ∃ after, p.Settled after b := by
  induction h with
  | nil => exact fun ht => absurd ht (by simp)
  | @copy before c t _ hnext ih =>
    intro a b ht
    cases a with
    | nil =>
      obtain ⟨-, rfl⟩ := List.cons.inj ht
      exact ⟨_, hnext⟩
    | cons e a =>
      obtain ⟨-, rfl⟩ := List.cons.inj ht
      exact ih rfl
  | @hit before t f hfind hshown _ ih =>
    intro a b ht
    have hnot := hd before t f hfind hshown
    rw [p.cut before t f hfind] at ht
    obtain ⟨a', -, hrest⟩ | ⟨c', htaken, hc'⟩ := List.append_eq_append_iff.mp ht
    · exact ih hrest
    · cases c' with
      | nil => exact ih (a := []) (by simpa using hc'.symm)
      | cons e c' =>
        obtain ⟨rfl, -⟩ := List.cons.inj hc'
        exact absurd (htaken ▸ List.mem_append_right a List.mem_cons_self) hnot

/-- What a pattern shows is settled, if it finds that again and finds nothing new where it copies. -/
theorem Settled.of_self (hany : p.Anywhere)
    (hstands : ∀ before t f, p.find before t = some f → ∀ u, p.find before (f.shown ++ u) = some ⟨f.shown, f.shown, u⟩)
    (hnone : ∀ before c t, p.find before (c :: t) = none → p.find before (c :: p.sub (some c) t) = none)
    (before : Option α) (t : List α) : p.Settled before (p.sub before t) := by
  induction before, t using sub_induction (p := p) with
  | nil before => exact .nil before
  | copy before c t h ih =>
    rw [sub_none h]
    exact .copy (hnone before c t h) ih
  | hit before t f h ih =>
    rw [sub_some h]
    exact .hit (hstands before t f h _) rfl (ih.anywhere hany _)

/-- What the substitution of one pattern must respect of another one. -/
structure Respects (q p : Pattern α) : Prop where
  anywhere : p.Anywhere
  /-- What `p` has settled is found whatever comes after it, -/
  stands : ∀ before t f, p.find before t = some f → f.shown = f.taken → ∀ u,
    p.find before (f.taken ++ u) = some ⟨f.taken, f.taken, u⟩
  /-- and `q` copies it. -/
  copied : ∀ before t f, p.find before t = some f → f.shown = f.taken → q.Copies f.taken
  /-- After what `q` takes, the text is still settled, -/
  rest : ∀ before t f, q.find before t = some f → p.Settled before t → ∃ after, p.Settled after f.rest
  /-- `p` finds nothing in what `q` shows, -/
  shown : ∀ before t f, q.find before t = some f → ∀ u, (∀ before, p.Settled before u) → ∀ before, p.Settled before (f.shown ++ u)
  /-- and nothing new at what `q` copies. -/
  none : ∀ before before' c t, p.find before' (c :: t) = none → q.find before (c :: t) = none →
    p.find before' (c :: q.sub (some c) t) = none

/-- A settled text stays settled under a substitution that respects it. -/
theorem Settled.of_sub (hr : Respects q p) {before : Option α} {t : List α} (h : p.Settled before t)
    (before' : Option α) : p.Settled before (q.sub before' t) := by
  induction hn : t.length using Nat.strong_induction_on generalizing before t before' with
  | _ n ih =>
    cases h with
    | nil => exact .nil before
    | @hit _ _ f hfind hshown hnext =>
      -- what is settled is copied, and is found again
      obtain ⟨after, hcopied⟩ := hr.copied before t f hfind hshown before' f.rest
      rw [p.cut before t f hfind, hcopied]
      exact .hit (hr.stands before t f hfind hshown _) rfl
        (ih f.rest.length (hn ▸ rest_length hfind) hnext after rfl)
    | @copy _ c t hnone hnext =>
      cases hq : q.find before' (c :: t) with
      | none =>
        rw [sub_none hq]
        refine .copy (hr.none before' before c t hnone hq) (ih t.length ?_ hnext (some c) rfl)
        rw [← hn, List.length_cons]
        omega
      | some g =>
        obtain ⟨after, hrest⟩ :=
          hr.rest before' (c :: t) g hq ((Settled.copy hnone hnext).anywhere hr.anywhere before')
        rw [sub_some hq]
        have hsub := ih g.rest.length (hn ▸ rest_length hq) hrest g.taken.getLast? rfl
        exact hr.shown before' (c :: t) g hq _ (hsub.anywhere hr.anywhere) before

end Pattern

/-! ## §3. Blotted texts. -/

variable {α : Type}

/-- `Blotted w P t u`: `u` is `t` with `w` in the place of some stretches with `P`. -/
inductive Blotted (w : List α) (P : List α → Prop) : List α → List α → Prop
  | nil : Blotted w P [] []
  | keep (c) {t u} (next : Blotted w P t u) : Blotted w P (c :: t) (c :: u)
  | blot {y t u} (removed : P y) (next : Blotted w P t u) : Blotted w P (y ++ t) (w ++ u)

namespace Blotted

variable {w : List α} {P : List α → Prop}

theorem append {t u : List α} (x : List α) (h : Blotted w P t u) : Blotted w P (x ++ t) (x ++ u) := by
  induction x with
  | nil => exact h
  | cons c x ih => exact .keep c ih

/-- What holds none of the first element of `w` was there before. -/
theorem of_append {d : α} {x v : List α} (hx : d ∉ x) : ∀ {t : List α}, Blotted (d :: w) P t (x ++ v) →
    ∃ t', t = x ++ t' ∧ Blotted (d :: w) P t' v := by
  induction x with
  | nil => exact fun h => ⟨_, rfl, h⟩
  | cons c x ih =>
    intro t h
    generalize hu : c :: x ++ v = u at h
    cases h with
    | nil => exact absurd hu (List.cons_ne_nil c (x ++ v))
    | @keep e t u hnext =>
      obtain ⟨rfl, rfl⟩ := List.cons.inj hu
      obtain ⟨t', rfl, ht'⟩ := ih (List.not_mem_of_not_mem_cons hx) hnext
      exact ⟨t', rfl, ht'⟩
    | @blot y t u hy hnext =>
      obtain ⟨rfl, -⟩ := List.cons.inj hu
      exact absurd List.mem_cons_self hx

theorem mem {t u : List α} (h : Blotted w P t u) {c : α} (hc : c ∈ u) (hw : c ∉ w) : c ∈ t := by
  induction h with
  | nil => exact hc
  | keep d _ ih =>
    rcases List.mem_cons.mp hc with rfl | hc
    · exact List.mem_cons_self
    · exact List.mem_cons_of_mem d (ih hc)
  | blot _ _ ih =>
    rcases List.mem_append.mp hc with hc | hc
    · exact absurd hc hw
    · exact List.mem_append_right _ (ih hc)

theorem mem_of_kept {t u : List α} (h : Blotted w P t u) {c : α} (hc : c ∈ t) (hP : ∀ y, P y → c ∉ y) : c ∈ u := by
  induction h with
  | nil => exact hc
  | keep d _ ih =>
    rcases List.mem_cons.mp hc with rfl | hc
    · exact List.mem_cons_self
    · exact List.mem_cons_of_mem d (ih hc)
  | blot hy _ ih =>
    rcases List.mem_append.mp hc with hc | hc
    · exact absurd hc (hP _ hy)
    · exact List.mem_append_right _ (ih hc)

/-- Cut at an element that is not one of `w`. -/
theorem cut {c : α} (hw : c ∉ w) {a b t u : List α} (h : Blotted w P t u) (hu : u = a ++ c :: b) :
    ∃ a' b', t = a' ++ c :: b' ∧ Blotted w P a' a ∧ Blotted w P b' b := by
  induction h generalizing a with
  | nil => exact absurd hu (by simp)
  | @keep d t u hnext ih =>
    cases a with
    | nil =>
      obtain ⟨rfl, rfl⟩ := List.cons.inj hu
      exact ⟨[], t, rfl, .nil, hnext⟩
    | cons e a =>
      obtain ⟨rfl, htail⟩ := List.cons.inj hu
      obtain ⟨a', b', rfl, ha, hb⟩ := ih htail
      exact ⟨d :: a', b', rfl, .keep d ha, hb⟩
  | @blot y t u hy hnext ih =>
    obtain ⟨a2, rfl⟩ : w <+: a := by
      have hpre : w <+: a ++ c :: b := hu ▸ List.prefix_append w u
      rcases le_or_gt w.length a.length with hlen | hlen
      · exact List.prefix_of_prefix_length_le hpre (List.prefix_append a _) hlen
      · have hc : a ++ [c] <+: w := by
          refine List.prefix_of_prefix_length_le ⟨b, ?_⟩ hpre (by rw [List.length_append]; exact hlen)
          rw [List.append_assoc]
          rfl
        exact absurd (hc.subset (List.mem_append_right a List.mem_cons_self)) hw
    rw [List.append_assoc, List.append_cancel_left_eq] at hu
    obtain ⟨a', b', rfl, ha, hb⟩ := ih hu
    exact ⟨y ++ a', b', (List.append_assoc ..).symm, .blot hy ha, hb⟩

theorem countP_le {t u : List α} (f : α → Bool) (hw : w.countP f = 0) (h : Blotted w P t u) :
    u.countP f ≤ t.countP f := by
  induction h with
  | nil => exact le_refl _
  | keep d _ ih =>
    rw [List.countP_cons, List.countP_cons]
    omega
  | blot _ _ ih =>
    rw [List.countP_append, List.countP_append, hw]
    omega

end Blotted

/-- What stands there in place of what was found is some of it with `w` in the place of the rest. -/
def Pattern.Blots (p : Pattern α) (w : List α) (P : List α → Prop) : Prop :=
  ∀ before t f, p.find before t = some f →
    ∃ kept y closer, f.taken = kept ++ y ++ closer ∧ f.shown = kept ++ w ++ closer ∧ P y

/-- A substitution blots out what it finds. -/
theorem Pattern.Blots.sub {p : Pattern α} {w : List α} {P : List α → Prop} (hp : p.Blots w P)
    (before : Option α) (t : List α) : Blotted w P t (p.sub before t) := by
  induction before, t using Pattern.sub_induction (p := p) with
  | nil before => exact .nil
  | copy before c t hnone ih =>
    rw [Pattern.sub_none hnone]
    exact .keep c ih
  | hit before t f hfind ih =>
    obtain ⟨kept, y, closer, htaken, hshown, hy⟩ := hp before t f hfind
    have ht : t = kept ++ (y ++ (closer ++ f.rest)) := by
      rw [p.cut before t f hfind, htaken, List.append_assoc, List.append_assoc]
    rw [Pattern.sub_some hfind, hshown, ht, List.append_assoc, List.append_assoc]
    exact (Blotted.blot hy (ih.append closer)).append kept

/-! ## §4. Back from the result to the text. -/

namespace Pattern

variable {α : Type} {p : Pattern α} {w d : α}

section Marks

variable (hw : ∀ before t f, p.find before t = some f → w ∈ f.shown)
  (hd : ∀ before t f, p.find before t = some f → d ∉ f.shown)
include hw hd

/-- What holds no `w`, before a `d`, was copied if every find shows a `w` and none a `d`. -/
theorem copied_of_sub {x y : List α} (hx : w ∉ x) : ∀ {before : Option α} {t : List α},
    p.sub before t = x ++ d :: y → ∃ b, t = x ++ d :: b ∧ y = p.sub (some d) b ∧ p.find before t = none := by
  -- a find would show its `w` before the `d`
  have hcopy : ∀ {x : List α}, w ∉ x → ∀ {before : Option α} {t : List α}, p.sub before t = x ++ d :: y →
      p.find before t = none := by
    intro x hx before t h
    cases hf : p.find before t with
    | none => rfl
    | some f =>
      rw [sub_some hf] at h
      rcases List.append_eq_append_iff.mp h with ⟨z, hz, -⟩ | ⟨z, hz, hrest⟩
      · exact absurd (hz ▸ List.mem_append_left z (hw _ _ _ hf)) hx
      · cases z with
        | nil =>
          rw [List.append_nil] at hz
          exact absurd (hz ▸ hw _ _ _ hf) hx
        | cons e z =>
          obtain ⟨rfl, -⟩ := List.cons.inj hrest
          exact absurd (hz ▸ List.mem_append_right x List.mem_cons_self) (hd _ _ _ hf)
  induction x with
  | nil =>
    intro before t h
    have hnone := hcopy hx h
    cases t with
    | nil => exact absurd h nofun
    | cons c t =>
      rw [sub_none hnone] at h
      obtain ⟨rfl, rfl⟩ := List.cons.inj h
      exact ⟨t, rfl, rfl, hnone⟩
  | cons e x ih =>
    intro before t h
    have hnone := hcopy hx h
    cases t with
    | nil => exact absurd h nofun
    | cons c t =>
      rw [sub_none hnone] at h
      obtain ⟨rfl, htail⟩ := List.cons.inj h
      obtain ⟨b, rfl, hy, -⟩ := ih (List.not_mem_of_not_mem_cons hx) htail
      exact ⟨b, rfl, hy, hnone⟩

/-- **Where a stretch of the result comes from**, that holds no `w` and stands before a `d`: it was copied, or it
begins within what a find shows. -/
theorem sub_key {k : List α} (hk : w ∉ k) (before : Option α) (t : List α) :
    ∀ {x y : List α}, p.sub before t = x ++ (k ++ d :: y) →
    (∃ before' a b, t = a ++ (k ++ d :: b) ∧ y = p.sub (some d) b ∧ p.find before' (k ++ d :: b) = none) ∨
    ∃ before' a u f x₁ x₂ k₂ b, p.find before' u = some f ∧ t = a ++ u ∧ f.shown = x₁ ++ x₂ ∧ x₂ ≠ [] ∧
      k = x₂ ++ k₂ ∧ f.rest = k₂ ++ d :: b ∧ y = p.sub (some d) b := by
  induction before, t using sub_induction (p := p) with
  | nil before =>
    intro x y h
    exact absurd h (by simp)
  | copy before c t hnone ih =>
    intro x y h
    cases x with
    | nil =>
      obtain ⟨b, hb, hy, hnone⟩ := copied_of_sub hw hd hk h
      exact .inl ⟨before, [], b, hb, hy, hb ▸ hnone⟩
    | cons e x =>
      rw [sub_none hnone] at h
      obtain ⟨rfl, htail⟩ := List.cons.inj h
      rcases ih htail with ⟨before', a, b, rfl, hy, hcopied⟩ | ⟨before', a, u, f, x₁, x₂, k₂, b, hf, rfl, hrest⟩
      · exact .inl ⟨before', c :: a, b, rfl, hy, hcopied⟩
      · exact .inr ⟨before', c :: a, u, f, x₁, x₂, k₂, b, hf, rfl, hrest⟩
  | hit before t f hf ih =>
    intro x y h
    have hcut := p.cut before t f hf
    rw [sub_some hf] at h
    -- a stretch that begins in what comes after is found there
    have hlater : ∀ {z : List α}, p.sub f.taken.getLast? f.rest = z ++ (k ++ d :: y) →
        (∃ before' a b, t = a ++ (k ++ d :: b) ∧ y = p.sub (some d) b ∧ p.find before' (k ++ d :: b) = none) ∨
        ∃ before' a u g x₁ x₂ k₂ b, p.find before' u = some g ∧ t = a ++ u ∧ g.shown = x₁ ++ x₂ ∧ x₂ ≠ [] ∧
          k = x₂ ++ k₂ ∧ g.rest = k₂ ++ d :: b ∧ y = p.sub (some d) b := by
      intro z hz
      rcases ih hz with ⟨before', a, b, hb, hy, hcopied⟩ | ⟨before', a, u, g, x₁, x₂, k₂, b, hg, hu, hrest⟩
      · exact .inl ⟨before', f.taken ++ a, b, by rw [hcut, hb, List.append_assoc], hy, hcopied⟩
      · exact .inr ⟨before', f.taken ++ a, u, g, x₁, x₂, k₂, b, hg, by rw [hcut, hu, List.append_assoc], hrest⟩
    rcases List.append_eq_append_iff.mp h with ⟨z, -, hrest⟩ | ⟨x₂, hshown, hrest⟩
    · exact hlater hrest
    · -- it begins within what is shown, where no `d` stands
      obtain ⟨k₂, hk₂, hsub⟩ : ∃ k₂, k = x₂ ++ k₂ ∧ p.sub f.taken.getLast? f.rest = k₂ ++ d :: y := by
        rcases List.append_eq_append_iff.mp hrest with ⟨z, hz, hy⟩ | ⟨k₂, hk₂, hy⟩
        · cases z with
          | nil => exact ⟨[], by simpa using hz.symm, hy.symm⟩
          | cons e z =>
            obtain ⟨rfl, -⟩ := List.cons.inj hy
            have hmem : d ∈ f.shown := by
              rw [hshown, hz]
              exact List.mem_append_right x (List.mem_append_right k List.mem_cons_self)
            exact absurd hmem (hd _ _ _ hf)
        · exact ⟨k₂, hk₂, hy⟩
      by_cases hx₂ : x₂ = []
      · rw [hx₂, List.nil_append] at hk₂
        exact hlater (z := []) (by rw [hsub, hk₂, List.nil_append])
      · have hwk₂ : w ∉ k₂ := fun hmem => hk (hk₂ ▸ List.mem_append_right x₂ hmem)
        obtain ⟨b, hb, hy, -⟩ := copied_of_sub hw hd hwk₂ hsub
        exact .inr ⟨before, [], t, f, x, x₂, k₂, b, hf, rfl, hshown, hx₂, hk₂, hb, hy⟩

end Marks

/-- Looks no further than a `d` that it does not take. -/
structure StopsAt (p : Pattern α) (d : α) : Prop where
  /-- what is found before it is found without it -/
  found : ∀ before s b f, p.find before (s ++ d :: b) = some f → ∀ s', f.rest = s' ++ d :: b →
    p.find before s = some ⟨f.taken, f.shown, s'⟩
  /-- nothing is found without it only -/
  missed : ∀ before s b, p.find before (s ++ d :: b) = none → p.find before s = none

/-- **A substitution is cut at a `d` that it copies**: what comes before is substituted on its own. -/
theorem StopsAt.sub_cut (hp : p.StopsAt d) (hd : ∀ before t f, p.find before t = some f → d ∉ f.shown)
    (before : Option α) (t : List α) : ∀ {x y : List α}, p.sub before t = x ++ d :: y →
    ∃ a b after, t = a ++ d :: b ∧ x = p.sub before a ∧ p.find after (d :: b) = none ∧ y = p.sub (some d) b := by
  induction before, t using sub_induction (p := p) with
  | nil before =>
    intro x y h
    exact absurd h (by simp)
  | copy before c t hnone ih =>
    intro x y h
    rw [sub_none hnone] at h
    cases x with
    | nil =>
      obtain ⟨rfl, rfl⟩ := List.cons.inj h
      exact ⟨[], t, before, rfl, rfl, hnone, rfl⟩
    | cons e x =>
      obtain ⟨rfl, htail⟩ := List.cons.inj h
      obtain ⟨a, b, after, rfl, rfl, hcopied, hy⟩ := ih htail
      refine ⟨c :: a, b, after, rfl, ?_, hcopied, hy⟩
      rw [sub_none (hp.missed before (c :: a) b hnone)]
  | hit before t f hf ih =>
    intro x y h
    rw [sub_some hf] at h
    have hcut := p.cut before t f hf
    -- d is not in what is shown, so what is shown lies in front of it as a whole
    obtain ⟨z, rfl, hz⟩ : ∃ z, x = f.shown ++ z ∧ p.sub f.taken.getLast? f.rest = z ++ d :: y := by
      rcases List.append_eq_append_iff.mp h with ⟨z, hz, hrest⟩ | ⟨z, hz, hrest⟩
      · exact ⟨z, hz, hrest⟩
      · cases z with
        | nil => exact ⟨[], by simpa using hz.symm, hrest.symm⟩
        | cons e z =>
          obtain ⟨rfl, -⟩ := List.cons.inj hrest
          exact absurd (hz ▸ List.mem_append_right x List.mem_cons_self) (hd _ _ _ hf)
    obtain ⟨a, b, after, hrest, rfl, hcopied, hy⟩ := ih hz
    have ht : t = (f.taken ++ a) ++ d :: b := by rw [hcut, hrest, List.append_assoc]
    refine ⟨f.taken ++ a, b, after, ht, ?_, hcopied, hy⟩
    rw [sub_some (hp.found before _ b f (ht ▸ hf) a hrest)]

/-- Where it finds the same, it puts the same. -/
theorem sub_congr_before {before before' : Option α} (h : ∀ t, p.find before t = p.find before' t) (t : List α) :
    p.sub before t = p.sub before' t := by
  cases t with
  | nil => rfl
  | cons c t =>
    cases hf : p.find before (c :: t) with
    | none => rw [sub_none hf, sub_none ((h _).symm.trans hf)]
    | some f => rw [sub_some hf, sub_some ((h _).symm.trans hf)]

end Pattern

end RagPipeline.Lib
