/-
  RagPipeline.Lib.Regroup — items put together under labels.

    * `get?_regroup`        — a label has the product of its items;
    * `perm_groups`         — the groups put together are the items;
    * `prod_values_regroup` — so the labels have what the items have, in another order.
-/
import RagPipeline.Lib.Groups
import RagPipeline.Lib.OrderedDict
import Mathlib.Algebra.BigOperators.Group.List.Basic
import Mathlib.Data.List.Induction

namespace RagPipeline.Lib

variable {κ M : Type} [DecidableEq κ] [Monoid M]

/-- Every item is put to what its label has so far. -/
def regroup (items : List (κ × M)) : OrderedDict κ M :=
  items.foldl (fun out p => out.set p.1 ((out.get? p.1).getD 1 * p.2)) .empty

/-- The items with a label. -/
def labelled {ν : Type} (items : List (κ × ν)) (k : κ) : List ν := (items.filter fun p => decide (p.1 = k)).map Prod.snd

theorem labelled_append {ν : Type} (items : List (κ × ν)) (p : κ × ν) (k : κ) :
    labelled (items ++ [p]) k = labelled items k ++ if p.1 = k then [p.2] else [] := by
  unfold labelled
  rw [List.filter_append, List.map_append]
  by_cases h : p.1 = k
  · simp [h]
  · simp [h]

theorem regroup_append (items : List (κ × M)) (p : κ × M) :
    regroup (items ++ [p]) = (regroup items).set p.1 (((regroup items).get? p.1).getD 1 * p.2) := by
  unfold regroup
  rw [List.foldl_append]
  rfl

/-- **A label has the product of its items.** -/
theorem getD_get?_regroup (items : List (κ × M)) (k : κ) :
    ((regroup items).get? k).getD 1 = (labelled items k).prod := by
  induction items using List.reverseRecOn with
  | nil => rfl
  | append_singleton items p ih =>
    rw [regroup_append, labelled_append]
    by_cases h : p.1 = k
    · subst h
      rw [OrderedDict.get?_set_self, if_pos rfl, List.prod_append, List.prod_singleton, ih]
      rfl
    · rw [OrderedDict.get?_set_ne _ _ (Ne.symm h), if_neg h, List.append_nil, ih]

theorem mem_keys_regroup (items : List (κ × M)) (k : κ) : k ∈ (regroup items).keys ↔ k ∈ items.map Prod.fst := by
  induction items using List.reverseRecOn with
  | nil => exact Iff.rfl
  | append_singleton items p ih =>
    rw [regroup_append, OrderedDict.mem_keys_set, ih, List.map_append, List.mem_append, List.map_singleton,
      List.mem_singleton, or_comm]

theorem values_regroup (items : List (κ × M)) :
    (regroup items).values = (regroup items).keys.map fun k => (labelled items k).prod := by
  unfold OrderedDict.values OrderedDict.keys
  rw [List.map_map]
  refine List.map_congr_left fun p hp => ?_
  have hget := getD_get?_regroup items p.1
  rw [OrderedDict.get?_eq_some.mpr (show (p.1, p.2) ∈ (regroup items).items from hp)] at hget
  exact hget

/-- **The groups put together** are the items. -/
theorem perm_groups {ν : Type} (items : List (κ × ν)) {ks : List κ} (hn : ks.Nodup)
    (hks : ∀ k, k ∈ ks ↔ k ∈ items.map Prod.fst) : (ks.map (labelled items)).flatten.Perm (items.map Prod.snd) := by
  have hgroups := (flatMap_groups Prod.fst items ks hn).map Prod.snd
  have hall : (items.filter fun p => decide (p.1 ∈ ks)) = items :=
    List.filter_eq_self.mpr fun p hp => decide_eq_true ((hks p.1).mpr (List.mem_map_of_mem hp))
  rw [hall, List.map_flatMap] at hgroups
  exact hgroups

/-- **The labels have what the items have**, group by group. -/
theorem prod_values_regroup (items : List (κ × M)) :
    (regroup items).values.prod = ((regroup items).keys.map (labelled items)).flatten.prod := by
  rw [values_regroup, List.prod_flatten, List.map_map]
  rfl

end RagPipeline.Lib
