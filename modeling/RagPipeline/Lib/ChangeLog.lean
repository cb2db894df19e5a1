/-
  RagPipeline.Lib.ChangeLog — a quantity looked at now and then, and the log of its changes.

  `changesOf f` looks at `f` at some instants, one after the other, and writes down when it is not what
  it was.  The value in force at an instant according to such a log is that of the last change up to it
  (`inForce`).

    * `inForce_changesOf`  — it is the value at the last look up to the instant;
    * `inForce_eq_of_looks` — so it is the value at the instant itself, if `f` does not change from a look
                              to the next one without being looked at.
-/
import Mathlib.Data.List.Sort
import Mathlib.Order.Defs.LinearOrder

namespace RagPipeline.Lib

variable {τ α : Type}

section Changes

variable [DecidableEq α] (f : τ → α)

/-- What is written down, looking at these instants, and what is in force in the end. -/
def changesOf : α → List τ → List (τ × α)
  | _, [] => []
  | current, t :: ts => if f t = current then changesOf current ts else (t, f t) :: changesOf (f t) ts

theorem mem_changesOf {current : α} {ts : List τ} {e : τ × α} (h : e ∈ changesOf f current ts) :
    e.1 ∈ ts ∧ e.2 = f e.1 := by
  induction ts generalizing current with
  | nil => cases h
  | cons t ts ih =>
    unfold changesOf at h
    split at h
    · exact ⟨List.mem_cons_of_mem t (ih h).1, (ih h).2⟩
    · rcases List.mem_cons.mp h with rfl | h
      · exact ⟨List.mem_cons_self, rfl⟩
      · exact ⟨List.mem_cons_of_mem t (ih h).1, (ih h).2⟩

end Changes

section InForce

variable [LinearOrder τ]

/-- The value of the last change up to an instant. -/
def inForce (initial : α) (log : List (τ × α)) (t : τ) : α :=
  ((log.filter fun e => decide (e.1 ≤ t)).getLast?.map Prod.snd).getD initial

@[simp] theorem inForce_nil (initial : α) (t : τ) : inForce initial ([] : List (τ × α)) t = initial := rfl

theorem inForce_cons_le {e : τ × α} {t : τ} (h : e.1 ≤ t) (initial : α) (log : List (τ × α)) :
    inForce initial (e :: log) t = inForce e.2 log t := by
  unfold inForce
  rw [List.filter_cons_of_pos (by simpa using h)]
  cases log.filter fun e => decide (e.1 ≤ t) with
  | nil => rfl
  | cons e' log => rfl

theorem inForce_of_later {t : τ} (initial : α) {log : List (τ × α)} (h : ∀ e ∈ log, t < e.1) :
    inForce initial log t = initial := by
  unfold inForce
  rw [List.filter_eq_nil_iff.mpr fun e he => by simpa using h e he]
  rfl

variable [DecidableEq α] (f : τ → α)

/-- In force is what the last look up to the instant has seen. -/
theorem inForce_changesOf {ts : List τ} (hts : ts.Pairwise (· < ·)) (current : α) (t : τ) :
    inForce current (changesOf f current ts) t =
      ((ts.filter fun s => decide (s ≤ t)).getLast?.map f).getD current := by
  induction ts generalizing current with
  | nil => rfl
  | cons s ts ih =>
    obtain ⟨hs, hts⟩ := List.pairwise_cons.mp hts
    by_cases hst : s ≤ t
    · have hlast : ((s :: ts).filter fun s => decide (s ≤ t)).getLast?.map f =
          some (((ts.filter fun s => decide (s ≤ t)).getLast?.map f).getD (f s)) := by
        rw [List.filter_cons_of_pos (by simpa using hst)]
        cases ts.filter fun s => decide (s ≤ t) with
        | nil => rfl
        | cons s' ts => simp [List.getLast?_cons]
      rw [hlast, Option.getD_some]
      unfold changesOf
      split
      · next hsame => rw [← ih hts (f s), hsame]
      · rw [inForce_cons_le hst, ih hts]
    · -- the looks after a later look are later
      have hlater : ∀ s' ∈ s :: ts, t < s' := by
        intro s' hs'
        rcases List.mem_cons.mp hs' with rfl | hs'
        · exact not_le.mp hst
        · exact (not_le.mp hst).trans (hs s' hs')
      rw [inForce_of_later current fun e he => hlater e.1 (mem_changesOf f he).1,
        List.filter_eq_nil_iff.mpr fun s' hs' => by simpa using hlater s' hs']
      rfl

/-- In force is the value itself, if the last look up to the instant has seen it, and if it is the
initial one before the first look. -/
theorem inForce_eq_of_looks {ts : List τ} (hts : ts.Pairwise (· < ·)) {current : α} {t : τ}
    (hbefore : (∀ s ∈ ts, t < s) → f t = current)
    (hsince : ∀ s ∈ ts, s ≤ t → (∀ s' ∈ ts, s' ≤ t → s' ≤ s) → f s = f t) :
    inForce current (changesOf f current ts) t = f t := by
  rw [inForce_changesOf f hts]
  cases hlast : (ts.filter fun s => decide (s ≤ t)).getLast? with
  | none =>
    have hnil := List.getLast?_eq_none_iff.mp hlast
    have hall := List.filter_eq_nil_iff.mp hnil
    exact (hbefore fun s hs => not_le.mp fun hle => hall s hs (by simpa using hle)).symm
  | some s =>
    obtain ⟨front, hfront⟩ := List.getLast?_eq_some_iff.mp hlast
    have hmem : ∀ s', s' ∈ ts.filter (fun s => decide (s ≤ t)) ↔ s' ∈ ts ∧ s' ≤ t := by
      intro s'
      simp [List.mem_filter]
    have hs := (hmem s).mp (hfront ▸ List.mem_append_right front List.mem_cons_self)
    refine hsince s hs.1 hs.2 fun s' hs' hle => ?_
    have hs'' := (hmem s').mpr ⟨hs', hle⟩
    have hsorted : (front ++ [s]).Pairwise (· < ·) := hfront ▸ hts.filter _
    rw [hfront] at hs''
    rcases List.mem_append.mp hs'' with h | h
    · exact ((List.pairwise_append.mp hsorted).2.2 s' h s List.mem_cons_self).le
    · exact (List.mem_singleton.mp h).le

end InForce

end RagPipeline.Lib
