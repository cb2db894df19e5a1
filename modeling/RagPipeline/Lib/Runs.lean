/-
  RagPipeline.Lib.Runs — ranges swept into runs, and runs cut into windows.

  `sweep` takes ranges in the order of their starts and puts a range into the newest run if it starts no
  later than `gap` after the run's end.  Ranges nest and overlap as they like: a run's end is the greatest
  end it has seen.

    * `sweep_laws`   — every range is in one run, inside its bounds, and runs are more than `gap` apart;
    * `sweep_map`    — a sweep looks at the two ends only;
    * `Cutting`      — a loop that cuts from the left, step by step, as a relation: a derivation is a run of
                       the loop that ends;
    * `cutting_laws` — what it leaves lies end to end, and no piece is wider than the step.
-/
import Mathlib.Data.List.Sort
import Mathlib.Order.MinMax

namespace RagPipeline.Lib

/-! ## §1. Runs. -/

/-- A run: its bounds, and what was put into it. -/
structure Run (τ α : Type*) where
  lo : α
  hi : α
  items : List τ

section Sweep

variable {τ α : Type*} [LinearOrder α] [Add α] (start stop : τ → α) (gap : α)

/-- A run of one range. -/
def Run.single (t : τ) : Run τ α := ⟨start t, stop t, [t]⟩

/-- A run with one more range. -/
def Run.extend (r : Run τ α) (t : τ) : Run τ α := ⟨r.lo, max r.hi (stop t), r.items ++ [t]⟩

/-- One range; the newest run is in front. -/
def sweepStep : List (Run τ α) → τ → List (Run τ α)
  | [], t => [Run.single start stop t]
  | r :: rest, t =>
      if start t ≤ r.hi + gap then r.extend stop t :: rest else Run.single start stop t :: r :: rest

/-- The ranges in the order of their starts. -/
def sweep (ts : List τ) : List (Run τ α) :=
  ((ts.insertionSort fun a b => start a ≤ start b).foldl (sweepStep start stop gap) []).reverse

/-- What a sweep leaves. -/
structure Runs (ts : List τ) (runs : List (Run τ α)) : Prop where
  /-- every range is in one run, and once -/
  once : (runs.flatMap Run.items).Perm ts
  inside : ∀ r ∈ runs, ∀ t ∈ r.items, r.lo ≤ start t ∧ stop t ≤ r.hi
  apart : runs.Pairwise fun r r' => r.hi + gap < r'.lo
  filled : ∀ r ∈ runs, r.items ≠ []

/-- The invariant of the sweep, the newest run being in front and the next start `b` or later. -/
structure Sweeping (b : α) (ts : List τ) (runs : List (Run τ α)) : Prop where
  once : (runs.flatMap Run.items).Perm ts
  inside : ∀ r ∈ runs, ∀ t ∈ r.items, r.lo ≤ start t ∧ stop t ≤ r.hi
  apart : runs.Pairwise fun r r' => r'.hi + gap < r.lo
  filled : ∀ r ∈ runs, r.items ≠ []
  begun : ∀ r ∈ runs, r.lo ≤ b

variable {start stop gap}

theorem sweepStep_cons (r : Run τ α) (rest : List (Run τ α)) (t : τ) :
    sweepStep start stop gap (r :: rest) t =
      if start t ≤ r.hi + gap then r.extend stop t :: rest else Run.single start stop t :: r :: rest := rfl

/-- A range in reach of the run in front joins it. -/
theorem Sweeping.joins {b : α} {ts : List τ} {r : Run τ α} {rest : List (Run τ α)}
    (h : Sweeping start stop gap b ts (r :: rest)) {t : τ} (ht : b ≤ start t) :
    Sweeping start stop gap (start t) (ts ++ [t]) (r.extend stop t :: rest) := by
  have honce : (r.items ++ rest.flatMap Run.items).Perm ts := h.once
  have hr := List.mem_cons_self (a := r) (l := rest)
  refine ⟨?_, ?_, List.pairwise_cons.mpr (List.pairwise_cons.mp h.apart), ?_, ?_⟩
  · show ((r.items ++ [t]) ++ rest.flatMap Run.items).Perm (ts ++ [t])
    rw [List.append_assoc]
    refine (List.Perm.append_left _ List.perm_append_comm).trans ?_
    rw [← List.append_assoc]
    exact honce.append_right [t]
  · intro r' hr' u hu
    cases List.mem_cons.mp hr' with
    | inl heq =>
      subst heq
      cases List.mem_append.mp hu with
      | inl hold =>
        obtain ⟨hlo, hhi⟩ := h.inside r hr u hold
        exact ⟨hlo, hhi.trans (le_max_left _ _)⟩
      | inr hnew =>
        obtain rfl := List.mem_singleton.mp hnew
        exact ⟨(h.begun r hr).trans ht, le_max_right _ _⟩
    | inr hold => exact h.inside r' (List.mem_cons_of_mem _ hold) u hu
  · refine List.forall_mem_cons.mpr ⟨?_, fun r' hold => h.filled r' (List.mem_cons_of_mem _ hold)⟩
    exact List.append_ne_nil_of_right_ne_nil _ (List.cons_ne_nil _ _)
  · refine List.forall_mem_cons.mpr ⟨(h.begun r hr).trans ht, fun r' hold => ?_⟩
    exact (h.begun r' (List.mem_cons_of_mem _ hold)).trans ht

/-- A range out of reach of every run begins its own. -/
theorem Sweeping.begins {b : α} {ts : List τ} {runs : List (Run τ α)} (h : Sweeping start stop gap b ts runs)
    {t : τ} (ht : b ≤ start t) (hfar : ∀ r ∈ runs, r.hi + gap < start t) :
    Sweeping start stop gap (start t) (ts ++ [t]) (Run.single start stop t :: runs) := by
  refine ⟨?_, ?_, List.pairwise_cons.mpr ⟨hfar, h.apart⟩, ?_, ?_⟩
  · show ([t] ++ runs.flatMap Run.items).Perm (ts ++ [t])
    exact (h.once.append_left [t]).trans List.perm_append_comm
  · refine List.forall_mem_cons.mpr ⟨fun u hu => ?_, h.inside⟩
    obtain rfl := List.mem_singleton.mp hu
    exact ⟨le_rfl, le_rfl⟩
  · exact List.forall_mem_cons.mpr ⟨List.cons_ne_nil _ _, h.filled⟩
  · exact List.forall_mem_cons.mpr ⟨le_rfl, fun r hr => (h.begun r hr).trans ht⟩

/-- **One range keeps it.** -/
theorem Sweeping.step {b : α} {ts : List τ} {runs : List (Run τ α)} (h : Sweeping start stop gap b ts runs)
    {t : τ} (ht : b ≤ start t) :
    Sweeping start stop gap (start t) (ts ++ [t]) (sweepStep start stop gap runs t) := by
  cases runs with
  | nil => exact h.begins ht fun r hr => absurd hr List.not_mem_nil
  | cons r rest =>
    rw [sweepStep_cons]
    split
    case isTrue hnear => exact h.joins ht
    case isFalse hfar =>
      have hgap : r.hi + gap < start t := not_le.mp hfar
      refine h.begins ht (List.forall_mem_cons.mpr ⟨hgap, fun r' hold => ?_⟩)
      -- an older run ends more than the gap before the one in front starts
      have hbefore := (List.pairwise_cons.mp h.apart).1 r' hold
      exact hbefore.trans_le ((h.begun r List.mem_cons_self).trans ht)

theorem Sweeping.foldl {us : List τ} (hsorted : us.Pairwise fun a b => start a ≤ start b) {b : α} {ts : List τ}
    {runs : List (Run τ α)} (h : Sweeping start stop gap b ts runs) (hb : ∀ u ∈ us, b ≤ start u) :
    ∃ b', Sweeping start stop gap b' (ts ++ us) (us.foldl (sweepStep start stop gap) runs) := by
  induction us generalizing b ts runs with
  | nil => exact ⟨b, by rw [List.append_nil]; exact h⟩
  | cons u us ih =>
    obtain ⟨hfirst, hrest⟩ := List.pairwise_cons.mp hsorted
    obtain ⟨b', hdone⟩ := ih hrest (h.step (hb u List.mem_cons_self)) hfirst
    refine ⟨b', ?_⟩
    rw [List.append_assoc] at hdone
    exact hdone

/-- **Every range is in one run, inside its bounds, and runs are more than the gap apart.** -/
theorem sweep_laws (start stop : τ → α) (gap : α) (ts : List τ) :
    Runs start stop gap ts (sweep start stop gap ts) := by
  have hperm := List.perm_insertionSort (fun a b : τ => start a ≤ start b) ts
  have hsorted : (ts.insertionSort fun a b => start a ≤ start b).Pairwise fun a b => start a ≤ start b :=
    List.pairwise_insertionSort _ _
  unfold sweep
  cases hts : ts.insertionSort fun a b => start a ≤ start b with
  | nil =>
    rw [hts] at hperm
    have hnil : ts = [] := List.perm_nil.mp hperm.symm
    rw [hnil]
    exact ⟨.refl _, nofun, .nil, nofun⟩
  | cons u us =>
    rw [hts] at hperm hsorted
    have hempty : Sweeping start stop gap (start u) [] [] := ⟨.refl _, nofun, .nil, nofun, nofun⟩
    have hle : ∀ v ∈ u :: us, start u ≤ start v := by
      intro v hv
      cases List.mem_cons.mp hv with
      | inl heq => exact heq ▸ le_rfl
      | inr hmem => exact (List.pairwise_cons.mp hsorted).1 v hmem
    obtain ⟨b, h⟩ := hempty.foldl hsorted hle
    refine ⟨?_, ?_, ?_, ?_⟩
    · exact ((List.reverse_perm _).flatMap_right _).trans (h.once.trans hperm)
    · intro r hr
      exact h.inside r (List.mem_reverse.mp hr)
    · exact List.pairwise_reverse.mpr h.apart
    · intro r hr
      exact h.filled r (List.mem_reverse.mp hr)

/-- The run of renamed ranges. -/
def Run.map {σ : Type*} (f : τ → σ) (r : Run τ α) : Run σ α := ⟨r.lo, r.hi, r.items.map f⟩

/-- **A sweep looks at the ends only.** -/
theorem sweep_map {σ : Type*} (f : τ → σ) (start stop : σ → α) (gap : α) (ts : List τ) :
    sweep start stop gap (ts.map f) =
      (sweep (fun t => start (f t)) (fun t => stop (f t)) gap ts).map (Run.map f) := by
  have hstep : ∀ (runs : List (Run τ α)) (t : τ), sweepStep start stop gap (runs.map (Run.map f)) (f t) =
      (sweepStep (fun t => start (f t)) (fun t => stop (f t)) gap runs t).map (Run.map f) := by
    intro runs t
    cases runs with
    | nil => rfl
    | cons r rest =>
      rw [List.map_cons, sweepStep_cons, sweepStep_cons]
      by_cases hnear : start (f t) ≤ r.hi + gap
      · have hnear' : start (f t) ≤ (r.map f).hi + gap := hnear
        rw [if_pos hnear, if_pos hnear']
        simp [Run.map, Run.extend]
      · have hnear' : ¬ start (f t) ≤ (r.map f).hi + gap := hnear
        rw [if_neg hnear, if_neg hnear']
        simp [Run.map, Run.single]
  have hfold : ∀ (us : List τ) (runs : List (Run τ α)),
      (us.map f).foldl (sweepStep start stop gap) (runs.map (Run.map f)) =
        (us.foldl (sweepStep (fun t => start (f t)) (fun t => stop (f t)) gap) runs).map (Run.map f) := by
    intro us
    induction us with
    | nil => exact fun _ => rfl
    | cons u us ih =>
      intro runs
      rw [List.map_cons, List.foldl_cons, List.foldl_cons, hstep, ih]
  have hsort : (ts.insertionSort fun a b => start (f a) ≤ start (f b)).map f =
      (ts.map f).insertionSort fun a b => start a ≤ start b :=
    List.map_insertionSort _ _ f ts fun _ _ _ _ => Iff.rfl
  unfold sweep
  rw [List.map_reverse, ← hfold _ [], hsort]
  rfl

end Sweep

/-! ## §2. Windows. -/

/-- The pieces lie end to end, from `a` to `b`. -/
def EndToEnd {α : Type*} (a : α) : List (α × α) → α → Prop
  | [], b => a = b
  | p :: ps, b => p.1 = a ∧ EndToEnd p.2 ps b

/-- The loop that cuts pieces off the left until nothing is left: `cur` is where it stands. -/
inductive Cutting {α : Type*} [LinearOrder α] [Add α] (step hi : α) : α → List (α × α) → Prop
  | done {cur : α} (h : hi ≤ cur) : Cutting step hi cur []
  | cut {cur : α} {rest : List (α × α)} (h : cur < hi) (more : Cutting step hi (min (cur + step) hi) rest) :
      Cutting step hi cur ((cur, min (cur + step) hi) :: rest)

/-- **What the loop leaves lies end to end, in pieces of some width and no wider than the step.** -/
theorem cutting_laws {step hi cur : ℤ} {out : List (ℤ × ℤ)} (hstep : 0 < step) (h : Cutting step hi cur out)
    (hle : cur ≤ hi) : EndToEnd cur out hi ∧ ∀ p ∈ out, p.1 < p.2 ∧ p.2 - p.1 ≤ step := by
  induction h with
  | done hend =>
    refine ⟨?_, nofun⟩
    show _ = hi
    omega
  | cut hlt more ih =>
    obtain ⟨htile, hwidth⟩ := ih (min_le_right _ _)
    refine ⟨⟨rfl, htile⟩, fun p hp => ?_⟩
    cases List.mem_cons.mp hp with
    | inl heq =>
      subst heq
      constructor
      · show _ < min _ _
        omega
      · show min _ _ - _ ≤ step
        omega
    | inr hmem => exact hwidth p hmem

end RagPipeline.Lib
