/-
  RagPipeline.Lib.Keyset — a sorted list read page by page, each page from the key the last one ended with.

    * `page`           — the rows after a key, in order, up to one more than the limit;
    * `page_eq`        — after the first `n` rows it is the next rows of the sorted list;
    * `walk`           — pages until one holds no row too many;
    * `walk_spec`      — they are the sorted list, cut into full pages and a last one.

  Rows have keys of their own; the order is total.
-/
import Mathlib.Data.List.Sort
import Mathlib.Data.List.Nodup
import Mathlib.Order.Basic

namespace RagPipeline.Lib.Keyset

variable {α κ : Type*} [LinearOrder κ] (key : α → κ)

/-! ## §1. Sorting and filtering. -/

/-- `ORDER BY key`. -/
def inOrder (rows : List α) : List α := rows.insertionSort fun a b => key a ≤ key b

theorem inOrder_perm (rows : List α) : (inOrder key rows).Perm rows := List.perm_insertionSort _ rows

variable {key}

/-- Rows with keys of their own are in strict order. -/
theorem inOrder_strict {rows : List α} (h : (rows.map key).Nodup) :
    (inOrder key rows).Pairwise fun a b => key a < key b := by
  have hle : (inOrder key rows).Pairwise fun a b => key a ≤ key b := by
    have htotal : Std.Total fun a b : α => key a ≤ key b := ⟨fun a b => le_total (key a) (key b)⟩
    have htrans : IsTrans α fun a b => key a ≤ key b := ⟨fun a b c hab hbc => le_trans hab hbc⟩
    exact List.pairwise_insertionSort (fun a b : α => key a ≤ key b) rows
  have hne : (inOrder key rows).Pairwise fun a b => key a ≠ key b :=
    List.pairwise_map.mp ((inOrder_perm key rows).map key |>.nodup_iff.mpr h)
  exact (hle.and hne).imp fun hab => lt_of_le_of_ne hab.1 hab.2

/-- Two strictly sorted lists of the same rows are one. -/
theorem eq_of_strict {l l' : List α} (hp : l.Perm l') (h : l.Pairwise fun a b => key a < key b)
    (h' : l'.Pairwise fun a b => key a < key b) : l = l' := by
  refine hp.eq_of_pairwise (fun a b _ _ hab hba => ?_) h h'
  exact absurd hab (lt_asymm hba)

/-- Taking rows out and sorting, in either order. -/
theorem inOrder_filter {rows : List α} (h : (rows.map key).Nodup) (p : α → Bool) :
    inOrder key (rows.filter p) = (inOrder key rows).filter p := by
  refine eq_of_strict ?_ (inOrder_strict (h.sublist (List.filter_sublist.map key)))
    ((inOrder_strict h).sublist List.filter_sublist)
  exact (inOrder_perm key _).trans ((inOrder_perm key rows).filter p).symm

/-- What comes after the key of a row of a sorted list is the rest of the list. -/
theorem filter_after {pre post : List α} {a : α}
    (h : (pre ++ a :: post).Pairwise fun x y => key x < key y) :
    (pre ++ a :: post).filter (fun r => decide (key a < key r)) = post := by
  obtain ⟨-, hpost, hcross⟩ := List.pairwise_append.mp h
  rw [List.filter_append, List.filter_cons_of_neg (by simp)]
  have hpre : pre.filter (fun r => decide (key a < key r)) = [] := by
    refine List.filter_eq_nil_iff.mpr fun r hr => ?_
    have hlt : key r < key a := hcross r hr a List.mem_cons_self
    simpa using hlt.le
  have hall : post.filter (fun r => decide (key a < key r)) = post := by
    refine List.filter_eq_self.mpr fun r hr => ?_
    simpa using (List.pairwise_cons.mp hpost).1 r hr
  rw [hpre, hall, List.nil_append]

/-! ## §2. Pages. -/

variable (key)

/-- The rows after a key, if one is given, in order: one more than the limit, if there are more. -/
def page (rows : List α) (limit : ℕ) (after : Option κ) : List α :=
  (inOrder key (rows.filter fun r => after.all fun k => decide (k < key r))).take (limit + 1)

/-- Pages until one holds no more than the limit, each from the last key before it; `none` if the fuel ends. -/
def walk (rows : List α) (limit : ℕ) : ℕ → Option κ → Option (List (List α))
  | 0, _ => none
  | fuel + 1, after =>
    let rows' := page key rows limit after
    if rows'.length ≤ limit then some [rows']
    else ((rows'.take limit).getLast?).bind fun last =>
      (walk rows limit fuel (some (key last))).map ((rows'.take limit) :: ·)

variable {key}

/-- The key a page starts after, when the rows before it have been read. -/
def lastKey (key : α → κ) (read : List α) : Option κ := read.getLast?.map key

/-- **A page holds the rows that come next.** -/
theorem page_eq {rows : List α} (h : (rows.map key).Nodup) {read rest : List α}
    (hsplit : inOrder key rows = read ++ rest) (limit : ℕ) :
    page key rows limit (lastKey key read) = rest.take (limit + 1) := by
  unfold page
  rw [inOrder_filter h, hsplit]
  congr 1
  have hstrict := inOrder_strict h
  rw [hsplit] at hstrict
  unfold lastKey
  cases hlast : read.getLast? with
  | none =>
    obtain rfl := List.getLast?_eq_none_iff.mp hlast
    simp
  | some a =>
    obtain ⟨pre, rfl⟩ := List.getLast?_eq_some_iff.mp hlast
    rw [List.append_assoc, List.singleton_append] at hstrict ⊢
    simpa using filter_after hstrict

/-- What pages are of a list: full ones, and a last one that is not longer. -/
inductive Cut (limit : ℕ) : List α → List (List α) → Prop
  | last {rest : List α} (h : rest.length ≤ limit) : Cut limit rest [rest]
  | full {rest : List α} {pages : List (List α)} (h : limit < rest.length)
      (hrest : Cut limit (rest.drop limit) pages) : Cut limit rest (rest.take limit :: pages)

theorem Cut.flatten {limit : ℕ} {rest : List α} {pages : List (List α)} (h : Cut limit rest pages) :
    pages.flatten = rest := by
  induction h with
  | last h => simp
  | full h hrest ih => rw [List.flatten_cons, ih, List.take_append_drop]

theorem Cut.length_le {limit : ℕ} {rest : List α} {pages : List (List α)} (h : Cut limit rest pages) :
    ∀ p ∈ pages, p.length ≤ limit := by
  induction h with
  | last h => simpa using h
  | full h hrest ih =>
    intro p hp
    cases List.mem_cons.mp hp with
    | inl heq =>
      rw [heq, List.length_take]
      exact Nat.min_le_left _ _
    | inr hmem => exact ih p hmem

/-- **The walk from any place ends, and cuts what has not been read yet.** -/
theorem walk_from {rows : List α} (h : (rows.map key).Nodup) {limit : ℕ} (hlimit : 0 < limit)
    {read rest : List α} (hsplit : inOrder key rows = read ++ rest) {fuel : ℕ} (hfuel : rest.length < fuel) :
    ∃ pages, walk key rows limit fuel (lastKey key read) = some pages ∧ Cut limit rest pages := by
  induction fuel generalizing read rest with
  | zero => omega
  | succ fuel ih =>
    unfold walk
    rw [page_eq h hsplit]
    by_cases hlen : rest.length ≤ limit
    · rw [if_pos (by rw [List.length_take]; omega), List.take_of_length_le (by omega)]
      exact ⟨[rest], rfl, .last hlen⟩
    · have htake : (rest.take (limit + 1)).take limit = rest.take limit := by
        rw [List.take_take, Nat.min_eq_left (Nat.le_succ limit)]
      rw [if_neg (by rw [List.length_take]; omega), htake]
      -- the next page starts after the last row of this one
      have hnext : inOrder key rows = (read ++ rest.take limit) ++ rest.drop limit := by
        rw [List.append_assoc, List.take_append_drop, hsplit]
      obtain ⟨pages, hwalk, hcut⟩ := ih hnext (by rw [List.length_drop]; omega)
      have hne : rest.take limit ≠ [] := by
        rw [Ne, List.take_eq_nil_iff]
        rintro (rfl | rfl)
        · exact absurd rfl hlimit.ne'
        · exact hlen (Nat.zero_le _)
      have hlast : (rest.take limit).getLast? = some ((rest.take limit).getLast hne) :=
        List.getLast?_eq_getLast_of_ne_nil hne
      have hkey : lastKey key (read ++ rest.take limit) = some (key ((rest.take limit).getLast hne)) := by
        unfold lastKey
        rw [List.getLast?_append, hlast]
        rfl
      rw [hkey] at hwalk
      rw [hlast, Option.bind_some, hwalk]
      exact ⟨rest.take limit :: pages, rfl, .full (by omega) hcut⟩

/-- **Page after page, from the first one, the rows come in their order, each of them once.** -/
theorem walk_spec {rows : List α} (h : (rows.map key).Nodup) {limit : ℕ} (hlimit : 0 < limit) :
    ∃ pages, walk key rows limit (rows.length + 1) none = some pages ∧ Cut limit (inOrder key rows) pages := by
  have hlen : (inOrder key rows).length < rows.length + 1 := by
    rw [(inOrder_perm key rows).length_eq]
    exact Nat.lt_succ_self _
  have hsplit : inOrder key rows = [] ++ inOrder key rows := rfl
  exact walk_from h hlimit hsplit hlen

end RagPipeline.Lib.Keyset
