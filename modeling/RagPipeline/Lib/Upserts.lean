/-
  RagPipeline.Lib.Upserts — rows that are inserted or replaced by key, several in one statement.

  `INSERT … ON CONFLICT DO UPDATE` fails when two rows of one statement have the same key.  Rows that are sent
  in chunks fail when two rows of one chunk have: two in different chunks replace one another.

    * `sendAll_isSome`  — which lists of rows are written;
    * `sendAll_get`     — what is stored then: the last row of each key.
-/
import Mathlib.Data.List.Basic
import Mathlib.Data.List.Nodup
import Mathlib.Logic.Function.Basic
import RagPipeline.Lib.OptionLoops

namespace RagPipeline.Lib

/-! ## §1. Chunks. -/

section Chunks

variable {α : Type*} {n : ℕ} {l : List α}

/-- `rows[i:i + size] for i in range(0, len(rows), size)`. -/
def chunksOf (n : ℕ) (l : List α) : List (List α) :=
  (List.range ((l.length + n - 1) / n)).map fun k => (l.drop (k * n)).take n

theorem flatten_chunksOf (hn : 0 < n) (l : List α) : (chunksOf n l).flatten = l := by
  have hfirst : ∀ m, ((List.range m).map fun k => (l.drop (k * n)).take n).flatten = l.take (m * n) := by
    intro m
    induction m with
    | zero => simp
    | succ m ih =>
      rw [List.range_succ, List.map_append, List.flatten_append, ih, Nat.succ_mul, List.take_add]
      simp
  unfold chunksOf
  rw [hfirst, List.take_of_length_le]
  have hdiv := Nat.div_add_mod (l.length + n - 1) n
  have hmod := Nat.mod_lt (l.length + n - 1) hn
  rw [Nat.mul_comm] at hdiv
  omega

/-- **No chunk has an element twice when elements that are equal stand in different chunks.** -/
theorem forall_chunksOf_nodup (hn : 0 < n) : (∀ c ∈ chunksOf n l, c.Nodup) ↔
    ∀ i j (hij : i < j) (hj : j < l.length), i / n = j / n → l[i] ≠ l[j] := by
  constructor
  · intro h i j hij hj hsame heq
    have hmem : (l.drop (j / n * n)).take n ∈ chunksOf n l := by
      refine List.mem_map.mpr ⟨j / n, List.mem_range.mpr ?_, rfl⟩
      rw [Nat.div_lt_iff_lt_mul hn]
      have hdiv := Nat.div_add_mod (l.length + n - 1) n
      have hmod := Nat.mod_lt (l.length + n - 1) hn
      rw [Nat.mul_comm] at hdiv
      omega
    have hi : i = j / n * n + i % n := by
      rw [← hsame, Nat.mul_comm]
      exact (Nat.div_add_mod i n).symm
    have hj' : j = j / n * n + j % n := by
      rw [Nat.mul_comm]
      exact (Nat.div_add_mod j n).symm
    have hmi := Nat.mod_lt i hn
    have hmj := Nat.mod_lt j hn
    have hlt : i % n < j % n := by omega
    have hlen : ((l.drop (j / n * n)).take n).length = min n (l.length - j / n * n) := by simp
    have hplaces : (⟨i % n, by omega⟩ : Fin ((l.drop (j / n * n)).take n).length) ≠ ⟨j % n, by omega⟩ :=
      fun hne => absurd (Fin.mk.inj hne) (Nat.ne_of_lt hlt)
    have hget := (List.nodup_iff_injective_get.mp (h _ hmem)).ne hplaces
    apply hget
    simp only [List.get_eq_getElem, List.getElem_take, List.getElem_drop]
    simpa only [← hi, ← hj'] using heq
  · intro h c hc
    obtain ⟨k, -, rfl⟩ := List.mem_map.mp hc
    rw [List.nodup_iff_getElem?_ne_getElem?]
    intro i j hij hj
    have hj' : j < n ∧ j < l.length - k * n := by simpa [Nat.lt_min] using hj
    have hne := h (k * n + i) (k * n + j) (by omega) (by omega) (by
      rw [Nat.mul_comm k n, Nat.mul_add_div hn, Nat.mul_add_div hn, Nat.div_eq_of_lt hj'.1,
        Nat.div_eq_of_lt (by omega : i < n)])
    rw [List.getElem?_eq_getElem (by simp; omega), List.getElem?_eq_getElem (by simp; omega)]
    simp only [List.getElem_take, List.getElem_drop]
    exact fun heq => hne (Option.some.inj heq)

theorem chunksOf_map {β : Type*} (f : α → β) (n : ℕ) (l : List α) : chunksOf n (l.map f) = (chunksOf n l).map (·.map f) := by
  unfold chunksOf
  rw [List.length_map, List.map_map]
  refine List.map_congr_left fun k _ => ?_
  rw [Function.comp_apply, List.map_take, List.map_drop]

/-- Among blocks of one length, an element is found by the number of its block. -/
theorem getElem?_flatMap_blocks {β : Type*} {f : α → List β} {b : ℕ} (hf : ∀ a ∈ l, (f a).length = b) (q : ℕ) {r : ℕ}
    (hr : r < b) : (l.flatMap f)[b * q + r]? = l[q]?.bind fun a => (f a)[r]? := by
  induction l generalizing q with
  | nil => rfl
  | cons a l ih =>
    have hlen := hf a List.mem_cons_self
    rw [List.flatMap_cons]
    cases q with
    | zero =>
      rw [Nat.mul_zero, Nat.zero_add, List.getElem?_append_left (by omega)]
      rfl
    | succ q =>
      rw [List.getElem?_append_right (by rw [hlen, Nat.mul_succ]; omega), List.getElem?_cons_succ,
        ← ih (fun a' ha' => hf a' (List.mem_cons_of_mem _ ha')) q]
      congr 1
      rw [hlen, Nat.mul_succ]
      omega

theorem length_flatMap_blocks {β : Type*} {f : α → List β} {b : ℕ} (hf : ∀ a ∈ l, (f a).length = b) :
    (l.flatMap f).length = b * l.length := by
  induction l with
  | nil => rfl
  | cons a l ih =>
    rw [List.flatMap_cons, List.length_append, hf a List.mem_cons_self,
      ih fun a' ha' => hf a' (List.mem_cons_of_mem _ ha'), List.length_cons, Nat.mul_succ, Nat.add_comm]

end Chunks

/-! ## §2. Statements. -/

section Upserts

variable {ρ κ ν : Type*} [DecidableEq κ] (key : ρ → κ) (write : Option ν → ρ → ν)

/-- One row is inserted, or replaces what has its key. -/
def upsertRow (table : κ → Option ν) (r : ρ) : κ → Option ν :=
  Function.update table (key r) (some (write (table (key r)) r))

/-- `INSERT … ON CONFLICT DO UPDATE`. -/
def upsertRows (table : κ → Option ν) (rows : List ρ) : Option (κ → Option ν) :=
  if (rows.map key).Nodup then some (rows.foldl (upsertRow key write) table) else none

/-- The chunks one after the other; an error ends them all. -/
def sendAll (n : ℕ) (table : κ → Option ν) (rows : List ρ) : Option (κ → Option ν) :=
  (chunksOf n rows).foldlM (upsertRows key write) table

variable {key write} {n : ℕ} {rows : List ρ} {table : κ → Option ν}

theorem foldlM_upsertRows {cs : List (List ρ)} {table : κ → Option ν} : cs.foldlM (upsertRows key write) table =
    if ∀ c ∈ cs, (c.map key).Nodup then some (cs.flatten.foldl (upsertRow key write) table) else none := by
  induction cs generalizing table with
  | nil => simp
  | cons c cs ih =>
    rw [List.foldlM_cons, upsertRows]
    by_cases hc : (c.map key).Nodup
    · rw [if_pos hc]
      show cs.foldlM (upsertRows key write) (c.foldl (upsertRow key write) table) = _
      rw [ih]
      simp [hc]
    · rw [if_neg hc, if_neg fun hall => hc (hall c List.mem_cons_self)]
      rfl

theorem sendAll_eq (hn : 0 < n) : sendAll key write n table rows =
    if ∀ c ∈ chunksOf n (rows.map key), c.Nodup then some (rows.foldl (upsertRow key write) table) else none := by
  unfold sendAll
  rw [foldlM_upsertRows, flatten_chunksOf hn, chunksOf_map]
  simp only [List.forall_mem_map]

/-- **The rows are written when no two of a chunk have the same key.** -/
theorem sendAll_isSome (hn : 0 < n) : (sendAll key write n table rows).isSome ↔
    ∀ i j (hij : i < j) (hj : j < rows.length), i / n = j / n → key rows[i] ≠ key rows[j] := by
  rw [sendAll_eq hn]
  have hiff := forall_chunksOf_nodup (l := rows.map key) hn
  simp only [List.length_map, List.getElem_map] at hiff
  split
  · next h => exact ⟨fun _ => hiff.mp h, fun _ => rfl⟩
  · next h => exact ⟨fun hsome => (nomatch hsome), fun hall => absurd (hiff.mpr hall) h⟩

theorem sendAll_isSome_of_nodup (hn : 0 < n) (h : (rows.map key).Nodup) : (sendAll key write n table rows).isSome := by
  refine (sendAll_isSome hn).mpr fun i j hij hj _ heq => ?_
  have hlen : j < (rows.map key).length := by rwa [List.length_map]
  have hne := List.nodup_iff_getElem?_ne_getElem?.mp h i j hij hlen
  apply hne
  rw [List.getElem?_eq_getElem (by omega), List.getElem?_eq_getElem hlen, List.getElem_map, List.getElem_map, heq]

/-- Rows of other keys are not seen. -/
theorem foldl_upsertRow_other {k : κ} (h : ∀ r ∈ rows, key r ≠ k) (table : κ → Option ν) :
    rows.foldl (upsertRow key write) table k = table k := by
  induction rows generalizing table with
  | nil => rfl
  | cons r rows ih =>
    rw [List.foldl_cons, ih (fun r' hr' => h r' (List.mem_cons_of_mem _ hr'))]
    exact Function.update_of_ne (h r List.mem_cons_self).symm _ _

theorem exists_last {p : ρ → Prop} (h : ∃ r ∈ rows, p r) :
    ∃ before r after, rows = before ++ r :: after ∧ p r ∧ ∀ r' ∈ after, ¬p r' := by
  induction rows with
  | nil =>
    obtain ⟨r, hr, -⟩ := h
    cases hr
  | cons r rows ih =>
    by_cases hrest : ∃ r' ∈ rows, p r'
    · obtain ⟨before, r', after, rfl, hr', hafter⟩ := ih hrest
      exact ⟨r :: before, r', after, rfl, hr', hafter⟩
    · obtain ⟨r', hr', hp⟩ := h
      cases List.mem_cons.mp hr' with
      | inl heq => exact ⟨[], r, rows, rfl, heq ▸ hp, fun r'' hr'' hp'' => hrest ⟨r'', hr'', hp''⟩⟩
      | inr hmem => exact absurd ⟨r', hmem, hp⟩ hrest

/-- **What is written last stays.** -/
theorem foldl_upsertRow_last (write : Option ν → ρ → ν) (before : List ρ) {after : List ρ} {r : ρ}
    (h : ∀ r' ∈ after, key r' ≠ key r) (table : κ → Option ν) :
    ∃ old, (before ++ r :: after).foldl (upsertRow key write) table (key r) = some (write old r) := by
  refine ⟨before.foldl (upsertRow key write) table (key r), ?_⟩
  rw [List.foldl_append, List.foldl_cons, foldl_upsertRow_other h]
  exact Function.update_self _ _ _

end Upserts

end RagPipeline.Lib
