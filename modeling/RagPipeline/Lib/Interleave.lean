/-
  RagPipeline.Lib.Interleave — lists taken in turn: all the first elements, then all the second ones.

    * `filter_interleave`      — what is of one list stays in its order, and nothing else is added;
    * `interleave_perm`        — nothing is lost;
    * `interleave_rounds`      — a prefix has as many whole rounds of every list, and one element more at most;
    * `interleave_balanced`    — so two lists differ by one at most, unless the shorter one is used up.
-/
import Mathlib.Data.List.Basic
import Mathlib.Data.List.Nodup
import Mathlib.Data.List.Perm.Basic
import Mathlib.Order.MinMax

namespace RagPipeline.Lib

variable {α κ : Type}

/-! ## §1. Rounds. -/

/-- The `i`-th elements, of the lists that have one. -/
def turn (ls : List (List α)) (i : ℕ) : List α := ls.filterMap fun l => l[i]?

/-- How many rounds there are. -/
def turnCount (ls : List (List α)) : ℕ := (ls.map List.length).foldr max 0

/-- One turn after the other. -/
def interleave (ls : List (List α)) : List α := (List.range (turnCount ls)).flatMap (turn ls)

theorem length_le_turnCount {ls : List (List α)} {l : List α} (h : l ∈ ls) : l.length ≤ turnCount ls := by
  induction ls with
  | nil => exact absurd h List.not_mem_nil
  | cons l' ls ih =>
    show l.length ≤ max l'.length (turnCount ls)
    cases List.mem_cons.mp h with
    | inl heq => exact heq ▸ le_max_left _ _
    | inr hmem => exact (ih hmem).trans (le_max_right _ _)

/-- The first elements of a list, one at a time. -/
theorem flatMap_getElem?_toList (l : List α) (n : ℕ) :
    (List.range n).flatMap (fun i => l[i]?.toList) = l.take n := by
  induction n with
  | zero => simp
  | succ n ih =>
    rw [List.range_succ, List.flatMap_append, ih, List.flatMap_singleton, List.take_add_one]

/-! ## §2. Keyed lists. -/

variable [DecidableEq κ] {key : α → κ} {part : κ → List α} {ks : List κ}

/-- A turn has one element of a list that is long enough. -/
theorem filter_turn (hn : ks.Nodup) (hkey : ∀ k ∈ ks, ∀ x ∈ part k, key x = k) (i : ℕ) {k : κ} (hk : k ∈ ks) :
    (turn (ks.map part) i).filter (fun x => decide (key x = k)) = (part k)[i]?.toList := by
  induction ks with
  | nil => exact absurd hk List.not_mem_nil
  | cons k' ks ih =>
    obtain ⟨hk', hn⟩ := List.nodup_cons.mp hn
    have hrest : ∀ k ∈ ks, ∀ x ∈ part k, key x = k := fun k hk => hkey k (List.mem_cons_of_mem _ hk)
    have hturn : turn ((k' :: ks).map part) i = (part k')[i]?.toList ++ turn (ks.map part) i := by
      unfold turn
      rw [List.map_cons, List.filterMap_cons]
      cases (part k')[i]? <;> rfl
    have hhead : ∀ x ∈ (part k')[i]?.toList, key x = k' := fun x hx =>
      hkey k' List.mem_cons_self x (List.mem_of_getElem? (Option.mem_toList.mp hx))
    rw [hturn, List.filter_append]
    by_cases heq : k = k'
    · subst heq
      have hnone : (turn (ks.map part) i).filter (fun x => decide (key x = k)) = [] := by
        rw [List.filter_eq_nil_iff]
        intro x hx hdec
        obtain ⟨l, hl, hget⟩ := List.mem_filterMap.mp hx
        obtain ⟨k'', hk'', rfl⟩ := List.mem_map.mp hl
        have hx' := hrest k'' hk'' x (List.mem_of_getElem? hget)
        exact hk' ((of_decide_eq_true hdec).symm.trans hx' ▸ hk'')
      rw [hnone, List.append_nil, List.filter_eq_self]
      exact fun x hx => decide_eq_true (hhead x hx)
    · have hnone : (part k')[i]?.toList.filter (fun x => decide (key x = k)) = [] := by
        rw [List.filter_eq_nil_iff]
        exact fun x hx hdec => heq ((of_decide_eq_true hdec).symm.trans (hhead x hx))
      rw [hnone, List.nil_append]
      exact ih hn hrest ((List.mem_cons.mp hk).resolve_left heq)

theorem filter_turns (hn : ks.Nodup) (hkey : ∀ k ∈ ks, ∀ x ∈ part k, key x = k) (n : ℕ) {k : κ} (hk : k ∈ ks) :
    ((List.range n).flatMap (turn (ks.map part))).filter (fun x => decide (key x = k)) = (part k).take n := by
  rw [List.filter_flatMap, ← flatMap_getElem?_toList]
  exact congrArg (fun f => (List.range n).flatMap f) (funext fun i => filter_turn hn hkey i hk)

/-- **The order of one list is kept.** -/
theorem filter_interleave (hn : ks.Nodup) (hkey : ∀ k ∈ ks, ∀ x ∈ part k, key x = k) {k : κ} (hk : k ∈ ks) :
    (interleave (ks.map part)).filter (fun x => decide (key x = k)) = part k := by
  unfold interleave
  rw [filter_turns hn hkey _ hk, List.take_of_length_le (length_le_turnCount (List.mem_map_of_mem hk))]

omit [DecidableEq κ] in
theorem key_of_mem_interleave (hkey : ∀ k ∈ ks, ∀ x ∈ part k, key x = k) {x : α}
    (hx : x ∈ interleave (ks.map part)) : key x ∈ ks := by
  obtain ⟨i, -, hx⟩ := List.mem_flatMap.mp hx
  obtain ⟨l, hl, hget⟩ := List.mem_filterMap.mp hx
  obtain ⟨k, hk, rfl⟩ := List.mem_map.mp hl
  exact (hkey k hk x (List.mem_of_getElem? hget)).symm ▸ hk

/-- **Nothing is lost or duplicated**: lists with the same elements of every key have the same elements. -/
theorem perm_of_filters {xs ys : List α}
    (h : ∀ k, xs.filter (fun x => decide (key x = k)) = ys.filter (fun x => decide (key x = k))) : xs.Perm ys := by
  classical
  rw [List.perm_iff_count]
  intro a
  have hcount : ∀ l : List α, List.count a (l.filter fun x => decide (key x = key a)) = List.count a l := fun l =>
    List.count_filter (decide_eq_true rfl)
  rw [← hcount xs, ← hcount ys, h]

/-! ## §3. Prefixes. -/

/-- A prefix is some whole rounds, and the beginning of the next one. -/
theorem prefix_rounds (ls : List (List α)) {n : ℕ} {p : List α} (h : p <+: (List.range n).flatMap (turn ls)) :
    ∃ r q, p = (List.range r).flatMap (turn ls) ++ q ∧ q <+: turn ls r := by
  induction n with
  | zero =>
    have hp : p = [] := List.prefix_nil.mp h
    exact ⟨0, [], by rw [hp]; rfl, List.nil_prefix⟩
  | succ n ih =>
    rw [List.range_succ, List.flatMap_append, List.flatMap_singleton] at h
    cases List.prefix_or_prefix_of_prefix h (List.prefix_append _ (turn ls n)) with
    | inl hbefore => exact ih hbefore
    | inr hafter =>
      obtain ⟨q, rfl⟩ := hafter
      exact ⟨n, q, rfl, (List.prefix_append_right_inj _).mp h⟩

/-- **The rounds of a prefix**: of every list it has as many elements as it has whole rounds, as far as the
list goes, and one more at most. -/
theorem interleave_rounds (hn : ks.Nodup) (hkey : ∀ k ∈ ks, ∀ x ∈ part k, key x = k) {p : List α}
    (hp : p <+: interleave (ks.map part)) :
    ∃ r, ∀ k ∈ ks, min r (part k).length ≤ p.countP (fun x => decide (key x = k)) ∧
      p.countP (fun x => decide (key x = k)) ≤ r + 1 := by
  obtain ⟨r, q, rfl, hq⟩ := prefix_rounds _ hp
  refine ⟨r, fun k hk => ?_⟩
  have hwhole : ((List.range r).flatMap (turn (ks.map part))).countP (fun x => decide (key x = k)) =
      min r (part k).length := by
    rw [List.countP_eq_length_filter, filter_turns hn hkey r hk, List.length_take]
  have hrest : q.countP (fun x => decide (key x = k)) ≤ 1 := by
    refine le_trans hq.sublist.countP_le ?_
    rw [List.countP_eq_length_filter, filter_turn hn hkey r hk]
    exact Option.length_toList_le
  rw [List.countP_append, hwhole]
  constructor
  · exact Nat.le_add_right _ _
  · have hmin : min r (part k).length ≤ r := min_le_left _ _
    omega

/-- **Two lists differ by one at most**, unless the shorter one is used up. -/
theorem interleave_balanced (hn : ks.Nodup) (hkey : ∀ k ∈ ks, ∀ x ∈ part k, key x = k) {p : List α}
    (hp : p <+: interleave (ks.map part)) {k k' : κ} (hk : k ∈ ks) (hk' : k' ∈ ks) :
    p.countP (fun x => decide (key x = k)) ≤ p.countP (fun x => decide (key x = k')) + 1 ∨
      (part k').length ≤ p.countP (fun x => decide (key x = k')) := by
  obtain ⟨r, hr⟩ := interleave_rounds hn hkey hp
  have hmore := (hr k hk).2
  have hless := (hr k' hk').1
  by_cases hle : r ≤ (part k').length
  · rw [min_eq_left hle] at hless
    exact Or.inl (hmore.trans (Nat.succ_le_succ hless))
  · rw [min_eq_right (Nat.not_le.mp hle).le] at hless
    exact Or.inr hless

end RagPipeline.Lib
