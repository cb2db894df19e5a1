/-
  RagPipeline.Lib.OrderFree — loops that may raise, and the order of what they go through.

    * `SameRows`          — the same rows in some order, or an exception on both sides;
    * `mapM_flatten_perm` — one list of rows for each item, in any order of the items;
    * `foldlM_perm`       — a loop whose steps commute;
    * `pick_comm`         — keeping the least of what comes is such a step, where a comparison may raise;
    * `head?_perm`        — what is read first of a sorted list, where ties read the same;
    * `foldlM_sorted_perm` — a loop over a sorted list, where only ties could change places;
    * `insertionSort_congr` — two orders that agree on the items of a list sort it alike.
-/
import Mathlib.Data.List.Perm.Basic
import Mathlib.Data.List.Sort
import Mathlib.Order.Lattice
import Mathlib.Order.OrderDual

namespace RagPipeline.Lib

/-! ## §1. Rows in some order. -/

/-- The same rows, in some order; or an exception on both sides. -/
def SameRows {β : Type} (x y : Option (List β)) : Prop := Option.Rel List.Perm x y

section SameRows

variable {β : Type} {x y z : Option (List β)}

theorem SameRows.refl (x : Option (List β)) : SameRows x x := by
  cases x with
  | none => exact Option.Rel.none
  | some l => exact Option.Rel.some (List.Perm.refl l)

theorem SameRows.symm (h : SameRows x y) : SameRows y x := by
  cases h with
  | none => exact Option.Rel.none
  | some h => exact Option.Rel.some h.symm

theorem SameRows.trans (h : SameRows x y) (h' : SameRows y z) : SameRows x z := by
  cases h with
  | none => exact h'
  | some h =>
    cases h' with
    | some h' => exact Option.Rel.some (h.trans h')

theorem SameRows.map {γ : Type} (h : SameRows x y) (f : β → γ) : SameRows (x.map (List.map f)) (y.map (List.map f)) := by
  cases h with
  | none => exact Option.Rel.none
  | some h => exact Option.Rel.some (h.map f)

end SameRows

section Groups

variable {α β : Type} {g : α → Option (List β)}

/-- Groups that give nothing can be left out. -/
theorem mapM_flatten_filter {p : α → Bool} {l : List α} (h : ∀ a ∈ l, p a = false → g a = some []) :
    (l.mapM g).map List.flatten = ((l.filter p).mapM g).map List.flatten := by
  induction l with
  | nil => rfl
  | cons a l ih =>
    have ih := ih fun x hx => h x (List.mem_cons_of_mem _ hx)
    cases ha : p a with
    | true =>
      rw [List.filter_cons_of_pos ha, List.mapM_cons, List.mapM_cons]
      cases g a with
      | none => rfl
      | some xs =>
        revert ih
        cases hl : l.mapM g <;> cases hp : (l.filter p).mapM g <;> intro ih
        · rfl
        · cases ih
        · cases ih
        · have heq : List.flatten _ = List.flatten _ := Option.some.inj ih
          show some (xs ++ List.flatten _) = some (xs ++ List.flatten _)
          rw [heq]
    | false =>
      rw [List.filter_cons_of_neg (by simp [ha]), List.mapM_cons, h a List.mem_cons_self ha, ← ih]
      cases l.mapM g with
      | none => rfl
      | some ys => rfl

/-- One more row in front. -/
theorem SameRows.cons_row {b : β} {x y : Option (List β)} (h : SameRows x y) :
    SameRows (x.bind fun ls => some (b :: ls)) (y.bind fun ls => some (b :: ls)) := by
  cases h with
  | none => exact Option.Rel.none
  | some h => exact Option.Rel.some (h.cons b)

/-- One row for each item: the order of the items only orders the rows. -/
theorem mapM_perm {g : α → Option β} {l l' : List α} (h : l.Perm l') : SameRows (l.mapM g) (l'.mapM g) := by
  induction h with
  | nil => exact SameRows.refl _
  | cons a h ih =>
    rw [List.mapM_cons, List.mapM_cons]
    cases g a with
    | none => exact Option.Rel.none
    | some b => exact ih.cons_row
  | swap a b l =>
    rw [List.mapM_cons, List.mapM_cons, List.mapM_cons, List.mapM_cons]
    cases g a <;> cases g b <;> cases l.mapM g
    case some.some.some => exact Option.Rel.some (List.Perm.swap _ _ _)
    all_goals exact Option.Rel.none
  | trans _ _ ih₁ ih₂ => exact ih₁.trans ih₂

/-- The same for a list of rows for each item. -/
theorem mapM_flatten_perm {l l' : List α} (h : l.Perm l') :
    SameRows ((l.mapM g).map List.flatten) ((l'.mapM g).map List.flatten) := by
  have hrows : SameRows (l.mapM g) (l'.mapM g) := mapM_perm h
  revert hrows
  generalize l.mapM g = x
  generalize l'.mapM g = y
  intro hrows
  cases hrows with
  | none => exact Option.Rel.none
  | some h => exact Option.Rel.some h.flatten

end Groups

/-- Groups first and then their rows, or the rows of each group at once. -/
theorem mapM_flatMap {κ γ β : Type} (fold : κ → Option γ) (rows : κ × γ → List β) (ks : List κ) :
    (ks.mapM fun k => (fold k).map (Prod.mk k)).map (fun folded => folded.flatMap rows) =
      (ks.mapM fun k => (fold k).map fun out => rows (k, out)).map List.flatten := by
  induction ks with
  | nil => rfl
  | cons k ks ih =>
    rw [List.mapM_cons, List.mapM_cons]
    cases fold k with
    | none => rfl
    | some out =>
      revert ih
      generalize (ks.mapM fun k => (fold k).map (Prod.mk k)) = folded
      generalize (ks.mapM fun k => (fold k).map fun out => rows (k, out)) = each
      intro ih
      cases folded <;> cases each
      · rfl
      · cases ih
      · cases ih
      · next gs rss =>
        have hrest : gs.flatMap rows = rss.flatten := Option.some.inj ih
        show some (rows (k, out) ++ gs.flatMap rows) = some (rows (k, out) ++ rss.flatten)
        rw [hrest]

/-! ## §2. Steps that commute. -/

/-- **Steps that commute**, on items of a kind. -/
theorem foldlM_perm {σ α : Type} {f : σ → α → Option σ} {P : α → Prop}
    (hcomm : ∀ s a b, P a → P b → (f s a).bind (fun s' => f s' b) = (f s b).bind fun s' => f s' a)
    {xs ys : List α} (h : xs.Perm ys) (hP : ∀ a ∈ xs, P a) (s : σ) : xs.foldlM f s = ys.foldlM f s := by
  induction h generalizing s with
  | nil => rfl
  | cons a _ ih =>
    rw [List.foldlM_cons, List.foldlM_cons]
    exact congrArg _ (funext fun s' => ih (fun x hx => hP x (List.mem_cons_of_mem _ hx)) s')
  | swap a b l =>
    have hab := hcomm s b a (hP b List.mem_cons_self) (hP a (List.mem_cons_of_mem _ List.mem_cons_self))
    simp only [List.foldlM_cons, Option.bind_eq_bind]
    rw [← Option.bind_assoc, ← Option.bind_assoc, hab]
  | trans h₁ _ ih₁ ih₂ =>
    rw [ih₁ hP s]
    exact ih₂ (fun x hx => hP x (h₁.mem_iff.mpr hx)) s

/-! ## §3. The least of what comes. -/

section Pick

variable {V K L : Type} [DecidableEq K] [LinearOrder L] {rank : V → Option (K × L)}

/-- `v < c`, by rank; values of two kinds, or without a rank, cannot be compared. -/
def below (rank : V → Option (K × L)) (v c : V) : Option Bool :=
  (rank v).bind fun a => (rank c).bind fun b => if a.1 = b.1 then some (decide (a.2 < b.2)) else none

/-- The smaller of the two, and on a tie the first. -/
def pick (rank : V → Option (K × L)) (c v : V) : Option V := (below rank v c).map fun t => if t then v else c

theorem pick_some {c v : V} {a b : K × L} (hc : rank c = some a) (hv : rank v = some b) (hk : b.1 = a.1) :
    pick rank c v = some (if b.2 < a.2 then v else c) := by
  simp [pick, below, hc, hv, hk]

theorem pick_none {c v : V} (h : rank c = none ∨ rank v = none) : pick rank c v = none := by
  unfold pick below
  cases h with
  | inl h => rw [h]; cases rank v <;> rfl
  | inr h => rw [h]; rfl

theorem pick_apart {c v : V} {a b : K × L} (hc : rank c = some a) (hv : rank v = some b) (hk : b.1 ≠ a.1) :
    pick rank c v = none := by
  simp [pick, below, hc, hv, hk]

/-- What is kept is of the kind it was. -/
theorem rank_pick {c v x : V} {a : K × L} (hc : rank c = some a) (h : pick rank c v = some x) :
    ∃ b, rank x = some b ∧ b.1 = a.1 := by
  cases hv : rank v with
  | none =>
    rw [pick_none (Or.inr hv)] at h
    cases h
  | some b =>
    by_cases hk : b.1 = a.1
    · rw [pick_some hc hv hk] at h
      obtain rfl := Option.some.inj h
      split
      · exact ⟨b, hv, hk⟩
      · exact ⟨a, hc, rfl⟩
    · rw [pick_apart hc hv hk] at h
      cases h

/-- Two values of one rank are one value. -/
def OneEach (rank : V → Option (K × L)) : Prop := ∀ u v a, rank u = some a → rank v = some a → u = v

/-- Of two values either comes first. -/
theorem pick_symm (hone : OneEach rank) (u v : V) : pick rank u v = pick rank v u := by
  cases hu : rank u with
  | none => rw [pick_none (Or.inl hu), pick_none (Or.inr hu)]
  | some a =>
    cases hv : rank v with
    | none => rw [pick_none (Or.inr hv), pick_none (Or.inl hv)]
    | some b =>
      by_cases hk : b.1 = a.1
      · rw [pick_some hu hv hk, pick_some hv hu hk.symm]
        rcases lt_trichotomy a.2 b.2 with hab | hab | hab
        · rw [if_neg (not_lt_of_gt hab), if_pos hab]
        · have heq : a = b := Prod.ext hk.symm hab
          obtain rfl := hone u v a hu (heq ▸ hv)
          rw [ite_self, ite_self]
        · rw [if_pos hab, if_neg (not_lt_of_gt hab)]
      · rw [pick_apart hu hv hk, pick_apart hv hu (Ne.symm hk)]

/-- A value that cannot be compared with the first cannot with what is kept of it. -/
theorem pick_bind_none {c u v : V} {k : K × L} (hc : rank c = some k)
    (hu : rank u = none ∨ ∃ a, rank u = some a ∧ a.1 ≠ k.1) :
    (pick rank c v).bind (fun x => pick rank x u) = none := by
  cases hx : pick rank c v with
  | none => rfl
  | some x =>
    obtain ⟨b, hb, hk⟩ := rank_pick hc hx
    rw [Option.bind_some]
    cases hu with
    | inl hu => exact pick_none (Or.inr hu)
    | inr hu =>
      obtain ⟨a, ha, hne⟩ := hu
      exact pick_apart hb ha (hk ▸ hne)

/-- **Keeping the least commutes.** -/
theorem pick_comm (hone : OneEach rank) (c u v : V) :
    (pick rank c u).bind (fun x => pick rank x v) = (pick rank c v).bind fun x => pick rank x u := by
  have hraises : ∀ {x y : V} {k : K × L}, rank c = some k → (rank x = none ∨ ∃ a, rank x = some a ∧ a.1 ≠ k.1) →
      (pick rank c x).bind (fun z => pick rank z y) = none := by
    intro x y k hc hx
    cases hx with
    | inl hx => rw [pick_none (Or.inr hx)]; rfl
    | inr hx =>
      obtain ⟨a, ha, hne⟩ := hx
      rw [pick_apart hc ha hne]
      rfl
  cases hc : rank c with
  | none =>
    rw [pick_none (Or.inl hc), pick_none (Or.inl hc)]
    rfl
  | some k =>
    -- the one that cannot be compared raises, first or second
    by_cases hu : rank u = none ∨ ∃ a, rank u = some a ∧ a.1 ≠ k.1
    · rw [hraises hc hu, pick_bind_none hc hu]
    · by_cases hv : rank v = none ∨ ∃ b, rank v = some b ∧ b.1 ≠ k.1
      · rw [hraises hc hv, pick_bind_none hc hv]
      · push Not at hu hv
        obtain ⟨a, ha⟩ := Option.ne_none_iff_exists'.mp hu.1
        obtain ⟨b, hb⟩ := Option.ne_none_iff_exists'.mp hv.1
        have hak := hu.2 a ha
        have hbk := hv.2 b hb
        rw [pick_some hc ha hak, pick_some hc hb hbk, Option.bind_some, Option.bind_some]
        by_cases hac : a.2 < k.2 <;> by_cases hbc : b.2 < k.2
        · rw [if_pos hac, if_pos hbc, pick_symm hone]
        · have hba : ¬b.2 < a.2 := fun h => hbc (lt_trans h hac)
          rw [if_pos hac, if_neg hbc, pick_some ha hb (hbk.trans hak.symm), pick_some hc ha hak, if_neg hba,
            if_pos hac]
        · have hab : ¬a.2 < b.2 := fun h => hac (lt_trans h hbc)
          rw [if_neg hac, if_pos hbc, pick_some hc hb hbk, pick_some hb ha (hak.trans hbk.symm), if_pos hbc,
            if_neg hab]
        · rw [if_neg hac, if_neg hbc, pick_some hc hb hbk, pick_some hc ha hak, if_neg hac, if_neg hbc]

theorem pick_isSome {c v : V} :
    (pick rank c v).isSome ↔ ∃ a b, rank c = some a ∧ rank v = some b ∧ b.1 = a.1 := by
  constructor
  · intro h
    cases hc : rank c with
    | none => simp [pick_none (Or.inl hc)] at h
    | some a =>
      cases hv : rank v with
      | none => simp [pick_none (Or.inr hv)] at h
      | some b =>
        by_cases hk : b.1 = a.1
        · exact ⟨a, b, rfl, rfl, hk⟩
        · simp [pick_apart hc hv hk] at h
  · rintro ⟨a, b, hc, hv, hk⟩
    rw [pick_some hc hv hk]
    rfl

/-- **When keeping the least raises nothing**: there is nothing to compare, or all have ranks of one kind. -/
theorem foldlM_pick_isSome {c : V} {vs : List V} :
    (vs.foldlM (pick rank) c).isSome ↔
      vs = [] ∨ ∃ a, rank c = some a ∧ ∀ v ∈ vs, ∃ b, rank v = some b ∧ b.1 = a.1 := by
  induction vs generalizing c with
  | nil => exact ⟨fun _ => Or.inl rfl, fun _ => rfl⟩
  | cons v vs ih =>
    rw [List.foldlM_cons]
    cases hx : pick rank c v with
    | none =>
      constructor
      · intro h
        cases h
      · rintro (h | ⟨a, hc, hall⟩)
        · cases h
        · obtain ⟨b, hv, hk⟩ := hall v List.mem_cons_self
          rw [pick_some hc hv hk] at hx
          cases hx
    | some x =>
      obtain ⟨a, b, hc, hv, hk⟩ := pick_isSome.mp (Option.isSome_of_mem hx)
      -- the value kept has the kind of the first, so the rest is compared against that kind
      obtain ⟨k, hrank, hkind⟩ := rank_pick hc hx
      show (vs.foldlM (pick rank) x).isSome ↔ _
      rw [ih]
      constructor
      · rintro (h | ⟨k', hk', hall⟩)
        · exact Or.inr ⟨a, hc, fun u hu => by rw [h, List.mem_singleton] at hu; exact ⟨b, hu ▸ hv, hk⟩⟩
        · obtain rfl : k = k' := Option.some.inj (hrank.symm.trans hk')
          refine Or.inr ⟨a, hc, fun u hu => ?_⟩
          cases List.mem_cons.mp hu with
          | inl he => exact ⟨b, he ▸ hv, hk⟩
          | inr hu =>
            obtain ⟨d, hd, hdk⟩ := hall u hu
            exact ⟨d, hd, hdk.trans hkind⟩
      · rintro (h | ⟨a', ha', hall⟩)
        · cases h
        · obtain rfl : a = a' := Option.some.inj (hc.symm.trans ha')
          refine Or.inr ⟨k, hrank, fun u hu => ?_⟩
          obtain ⟨d, hd, hdk⟩ := hall u (List.mem_cons_of_mem _ hu)
          exact ⟨d, hd, hdk.trans hkind.symm⟩

end Pick

/-! ## §4. The first of what is sorted. -/

section First

variable {α β L : Type} [LinearOrder L] {key : α → L} {read : α → Option β}

/-- A first item that has something to read. -/
def Earliest (key : α → L) (read : α → Option β) (l : List α) (a : α) : Prop :=
  a ∈ l ∧ (read a).isSome ∧ ∀ x ∈ l, (read x).isSome → key a ≤ key x

/-- All first items read the same. -/
def FirstAgree (key : α → L) (read : α → Option β) (l : List α) : Prop :=
  ∀ a b, Earliest key read l a → Earliest key read l b → read a = read b

theorem FirstAgree.perm {l l' : List α} (h : l.Perm l') (hl : FirstAgree key read l) : FirstAgree key read l' := by
  have hmove : ∀ a, Earliest key read l' a → Earliest key read l a := fun a ha =>
    ⟨h.mem_iff.mpr ha.1, ha.2.1, fun x hx => ha.2.2 x (h.mem_iff.mp hx)⟩
  exact fun a b ha hb => hl a b (hmove a ha) (hmove b hb)

/-- What is read first of a sorted list is read of a first item. -/
theorem head?_sorted {l : List α} (hs : l.Pairwise fun a b => key a ≤ key b) {v : β}
    (h : (l.filterMap read).head? = some v) : ∃ a, Earliest key read l a ∧ read a = some v := by
  induction l with
  | nil => cases h
  | cons a l ih =>
    obtain ⟨ha, hs⟩ := List.pairwise_cons.mp hs
    cases hr : read a with
    | some x =>
      rw [List.filterMap_cons_some hr, List.head?_cons] at h
      refine ⟨a, ⟨List.mem_cons_self, by simp [hr], fun y hy _ => ?_⟩, hr.trans h⟩
      cases List.mem_cons.mp hy with
      | inl he => rw [he]
      | inr hy => exact ha y hy
    | none =>
      rw [List.filterMap_cons_none hr] at h
      obtain ⟨b, ⟨hb, hsome, hmin⟩, hv⟩ := ih hs h
      refine ⟨b, ⟨List.mem_cons_of_mem _ hb, hsome, fun y hy hys => ?_⟩, hv⟩
      cases List.mem_cons.mp hy with
      | inl he =>
        rw [he, hr] at hys
        cases hys
      | inr hy => exact hmin y hy hys

/-- **Two sorted orders of the same items** read the same first, if all first items do. -/
theorem head?_perm {l l' : List α} (h : l.Perm l') (hs : l.Pairwise fun a b => key a ≤ key b)
    (hs' : l'.Pairwise fun a b => key a ≤ key b) (hagree : FirstAgree key read l) :
    (l.filterMap read).head? = (l'.filterMap read).head? := by
  cases hv : (l.filterMap read).head? with
  | none =>
    have hperm : (l.filterMap read).Perm (l'.filterMap read) := h.filterMap _
    rw [List.head?_eq_none_iff.mp hv] at hperm
    rw [hperm.symm.eq_nil]
    rfl
  | some v =>
    obtain ⟨a, ha, hra⟩ := head?_sorted hs hv
    cases hv' : (l'.filterMap read).head? with
    | none =>
      have hperm : (l.filterMap read).Perm (l'.filterMap read) := h.filterMap _
      rw [List.head?_eq_none_iff.mp hv'] at hperm
      rw [hperm.eq_nil] at hv
      cases hv
    | some v' =>
      obtain ⟨b, ⟨hb, hsome, hmin⟩, hrb⟩ := head?_sorted hs' hv'
      have hb' : Earliest key read l b := ⟨h.mem_iff.mpr hb, hsome, fun x hx => hmin x (h.mem_iff.mp hx)⟩
      rw [← hra, ← hrb]
      exact hagree a b ha hb'

/-- The last of them, the same way. -/
theorem getLast?_perm {l l' : List α} (h : l.Perm l') (hs : l.Pairwise fun a b => key a ≤ key b)
    (hs' : l'.Pairwise fun a b => key a ≤ key b) (hagree : FirstAgree (fun a => OrderDual.toDual (key a)) read l) :
    (l.filterMap read).getLast? = (l'.filterMap read).getLast? := by
  rw [List.getLast?_eq_head?_reverse, List.getLast?_eq_head?_reverse, ← List.filterMap_reverse,
    ← List.filterMap_reverse]
  have hrev : l.reverse.Perm l'.reverse := (l.reverse_perm.trans h).trans l'.reverse_perm.symm
  refine head?_perm hrev ?_ ?_ (hagree.perm l.reverse_perm.symm)
  · exact List.pairwise_reverse.mpr hs
  · exact List.pairwise_reverse.mpr hs'

end First

/-! ## §5. A loop over what is sorted. -/

section Sorted

variable {α σ L : Type} [LinearOrder L] {key : α → L} {step : σ → α → Option σ} {start : σ}

/-- At every key the order of what has it is not seen: the step takes these items in any order alike, or the loop
takes everything up to this key in any order alike. -/
def TiesCommute (key : α → L) (step : σ → α → Option σ) (start : σ) (l : List α) : Prop :=
  ∀ k, (∀ tied, (l.filter fun a => key a = k).Perm tied → ∀ cur,
      (l.filter fun a => key a = k).foldlM step cur = tied.foldlM step cur) ∨
    ∀ upTo upTo', (l.filter fun a => key a ≤ k).Perm upTo → (l.filter fun a => key a ≤ k).Perm upTo' →
      upTo.foldlM step start = upTo'.foldlM step start

/-- A sorted list is what is below a key, and the rest. -/
theorem sorted_split {l : List α} (hs : l.Pairwise fun a b => key a ≤ key b) (k : L) :
    l = (l.filter fun a => key a < k) ++ l.filter fun a => k ≤ key a := by
  induction l with
  | nil => rfl
  | cons a l ih =>
    obtain ⟨ha, hs⟩ := List.pairwise_cons.mp hs
    by_cases hk : key a < k
    · rw [List.filter_cons_of_pos (by simpa using hk), List.filter_cons_of_neg (by simpa using hk), List.cons_append,
        ← ih hs]
    · have hnone : (l.filter fun b => decide (key b < k)) = [] := by
        refine List.filter_eq_nil_iff.mpr fun b hb => ?_
        simpa using le_trans (not_lt.mp hk) (ha b hb)
      have hall : (l.filter fun b => decide (k ≤ key b)) = l := by
        refine List.filter_eq_self.mpr fun b hb => ?_
        simpa using le_trans (not_lt.mp hk) (ha b hb)
      rw [List.filter_cons_of_neg (by simpa using hk), List.filter_cons_of_pos (by simpa using not_lt.mp hk), hnone,
        hall, List.nil_append]

/-- **Two sorted orders of the same items** are gone through alike, if ties commute. -/
theorem foldlM_sorted_perm (key : α → L) (n : ℕ) : ∀ {l l' : List α}, l.length ≤ n → l.Perm l' →
    (l.Pairwise fun a b => key a ≤ key b) → (l'.Pairwise fun a b => key a ≤ key b) →
    TiesCommute key step start l → l.foldlM step start = l'.foldlM step start := by
  induction n with
  | zero =>
    intro l l' hn h _ _ _
    obtain rfl : l = [] := List.length_eq_zero_iff.mp (Nat.le_zero.mp hn)
    rw [h.symm.eq_nil]
  | succ n ih =>
    intro l l' hn h hs hs' hties
    cases hlast : l.getLast? with
    | none =>
      obtain rfl : l = [] := List.getLast?_eq_none_iff.mp hlast
      rw [h.symm.eq_nil]
    | some a =>
      obtain ⟨front, rfl⟩ := List.getLast?_eq_some_iff.mp hlast
      -- the last key is the greatest, and what has it comes last in both
      have hmax : ∀ b ∈ front ++ [a], key b ≤ key a := by
        intro b hb
        cases List.mem_append.mp hb with
        | inl hb => exact (List.pairwise_append.mp hs).2.2 b hb a (List.mem_singleton_self a)
        | inr hb => rw [List.mem_singleton.mp hb]
      have hat : ∀ m : List α, (∀ b ∈ m, key b ≤ key a) →
          (m.filter fun b => decide (key a ≤ key b)) = m.filter fun b => decide (key b = key a) :=
        fun m hm => List.filter_congr fun b hb => decide_eq_decide.mpr
          ⟨fun hle => le_antisymm (hm b hb) hle, fun he => he.ge⟩
      have hmax' : ∀ b ∈ l', key b ≤ key a := fun b hb => hmax b (h.mem_iff.mpr hb)
      cases hties (key a) with
      | inr hall =>
        have heq : ((front ++ [a]).filter fun b => decide (key b ≤ key a)) = front ++ [a] :=
          List.filter_eq_self.mpr fun b hb => by simpa using hmax b hb
        rw [heq] at hall
        exact hall _ _ (List.Perm.refl _) h
      | inl htied =>
        have hbelow : ((front ++ [a]).filter fun b => decide (key b < key a)).foldlM step start =
            (l'.filter fun b => decide (key b < key a)).foldlM step start := by
          refine ih ?_ (h.filter _) (hs.filter _) (hs'.filter _) fun k => ?_
          · have hshort : ((front ++ [a]).filter fun b => decide (key b < key a)).length < (front ++ [a]).length := by
              refine List.length_filter_lt_length_iff_exists.mpr ⟨a, by simp, by simp⟩
            omega
          · by_cases hk : k < key a
            · have heq : ∀ b, (decide (key b = k) && decide (key b < key a)) = decide (key b = k) := by
                intro b
                by_cases hb : key b = k
                · simp [hb, hk]
                · simp [hb]
              have hle : ∀ b, (decide (key b ≤ k) && decide (key b < key a)) = decide (key b ≤ k) := by
                intro b
                by_cases hb : key b ≤ k
                · simp [hb, lt_of_le_of_lt hb hk]
                · simp [hb]
              simp only [List.filter_filter, heq, hle]
              exact hties k
            · refine .inl fun tied htied _ => ?_
              have hnone : (((front ++ [a]).filter fun b => decide (key b < key a)).filter fun b =>
                  decide (key b = k)) = [] := by
                refine List.filter_eq_nil_iff.mpr fun b hb hbk => hk ?_
                rw [← of_decide_eq_true hbk]
                exact of_decide_eq_true (List.mem_filter.mp hb).2
              rw [hnone] at htied ⊢
              rw [htied.symm.eq_nil]
        rw [sorted_split hs (key a), sorted_split hs' (key a), List.foldlM_append, List.foldlM_append, hbelow,
          hat _ hmax, hat _ hmax']
        refine congrArg _ (funext fun cur => htied _ (h.filter _) cur)

end Sorted

/-! ## §6. Orders that agree. -/

theorem orderedInsert_congr {α : Type*} {p q : α → α → Prop} [DecidableRel p] [DecidableRel q] {x : α} (ys : List α)
    (h : ∀ y ∈ ys, p x y ↔ q x y) : ys.orderedInsert p x = ys.orderedInsert q x := by
  induction ys with
  | nil => rfl
  | cons y ys ih =>
    have hrest := ih fun z hz => h z (List.mem_cons_of_mem _ hz)
    rw [List.orderedInsert, List.orderedInsert, hrest]
    exact if_congr (h y List.mem_cons_self) rfl rfl

/-- Sorting looks at the order of its own items only. -/
theorem insertionSort_congr {α : Type*} {p q : α → α → Prop} [DecidableRel p] [DecidableRel q] (xs : List α)
    (h : ∀ x ∈ xs, ∀ y ∈ xs, p x y ↔ q x y) : xs.insertionSort p = xs.insertionSort q := by
  induction xs with
  | nil => rfl
  | cons x xs ih =>
    rw [List.insertionSort_cons, List.insertionSort_cons,
      ih fun y hy z hz => h y (List.mem_cons_of_mem _ hy) z (List.mem_cons_of_mem _ hz)]
    refine orderedInsert_congr _ fun y hy => ?_
    exact h x List.mem_cons_self y (List.mem_cons_of_mem _ ((List.perm_insertionSort q xs).mem_iff.mp hy))

end RagPipeline.Lib
