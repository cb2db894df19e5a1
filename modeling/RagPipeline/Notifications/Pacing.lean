/-
  RagPipeline.Notifications.Pacing — `pacing.py`: how much may be sent, and in what order.

    * `channelLimit`, `allowance` — the budget of a channel;
    * `roundRobin`                — one delivery of each group in turn;
    * `roundRobin_fair`           — a prefix of an interleaving of all, balanced at every point.
-/
import Mathlib.Data.List.Induction
import RagPipeline.Lib.Interleave
import RagPipeline.Lib.OrderedDict

namespace RagPipeline.Notifications

open RagPipeline.Lib

/-! ## §1. The budget. -/

/-- `int((config or {}).get("max_per_minute"))`: what can be read there, if it is a number at all. -/
structure ChannelConfig where
  maxPerMinute : Option ℤ := none

/-- `channel_limit`: what cannot be read, or is not positive, is the default. -/
def channelLimit (default : ℤ) (config : Option ChannelConfig) : ℤ :=
  match config.bind ChannelConfig.maxPerMinute with
  | none => default
  | some value => if 0 < value then value else default

/-- `allowance`. -/
def allowance (sentInWindow limit : ℤ) : ℤ := max 0 (limit - sentInWindow)

/-! ## §2. The order. -/

variable {α κ : Type} [DecidableEq κ]

/-- `_group`. -/
def groupItems (key : α → κ) (items : List α) : OrderedDict κ (List α) :=
  items.foldl (fun groups item => groups.set (key item) (((groups.get? (key item)).getD []) ++ [item]))
    OrderedDict.empty

/-- `xs[:limit]`. -/
def slice (xs : List α) (limit : ℤ) : List α :=
  xs.take (if 0 ≤ limit then limit else xs.length + limit).toNat

/-- `round_robin`: `zip_longest` without its padding. -/
def roundRobin (key : α → κ) (limit : ℤ) (items : List α) : List α :=
  slice (interleave (groupItems key items).values) limit

/-- The items of one key. -/
def ofKey (key : α → κ) (items : List α) (k : κ) : List α := items.filter fun x => decide (key x = k)

/-- A group is the items of its key, in their order. -/
theorem groupItems_get? (key : α → κ) (items : List α) (k : κ) :
    (groupItems key items).get? k = if k ∈ items.map key then some (ofKey key items k) else none := by
  induction items using List.reverseRecOn with
  | nil => rfl
  | append_singleton items item ih =>
    have hstep : groupItems key (items ++ [item]) = (groupItems key items).set (key item)
        ((((groupItems key items).get? (key item)).getD []) ++ [item]) := List.foldl_append
    rw [hstep]
    by_cases hk : k = key item
    · subst hk
      have hgroup : ((groupItems key items).get? (key item)).getD [] = ofKey key items (key item) := by
        rw [ih]
        by_cases hmem : key item ∈ items.map key
        · rw [if_pos hmem]
          rfl
        · rw [if_neg hmem]
          refine (List.filter_eq_nil_iff.mpr fun x hx hdec => hmem ?_).symm
          exact of_decide_eq_true hdec ▸ List.mem_map_of_mem hx
      rw [OrderedDict.get?_set_self, hgroup, if_pos (List.mem_map_of_mem (List.mem_append_right _ List.mem_cons_self))]
      simp [ofKey]
    · have hother : ofKey key (items ++ [item]) k = ofKey key items k := by
        simp [ofKey, Ne.symm hk]
      rw [OrderedDict.get?_set_ne _ _ hk, ih, hother]
      simp [hk]

theorem keys_groupItems (key : α → κ) (items : List α) {k : κ} : k ∈ (groupItems key items).keys ↔ k ∈ items.map key := by
  rw [← not_iff_not, ← OrderedDict.get?_eq_none, groupItems_get?]
  simp

/-- The groups, by their keys. -/
theorem values_groupItems (key : α → κ) (items : List α) :
    (groupItems key items).values = (groupItems key items).keys.map (ofKey key items) := by
  unfold OrderedDict.values OrderedDict.keys
  rw [List.map_map]
  refine List.map_congr_left fun p hp => ?_
  have hget := OrderedDict.get?_eq_some.mpr (show (p.1, p.2) ∈ (groupItems key items).items from hp)
  rw [groupItems_get?] at hget
  split at hget
  · exact (Option.some.inj hget).symm
  · cases hget

theorem key_ofKey (key : α → κ) (items : List α) {k : κ} {x : α} (hx : x ∈ ofKey key items k) : key x = k :=
  of_decide_eq_true (List.mem_filter.mp hx).2

/-! ## §3. Fairness. -/

/-- All the items, in turn. -/
def interleaved (key : α → κ) (items : List α) : List α := interleave (groupItems key items).values

/-- A key without a group has no items. -/
theorem ofKey_eq_nil {key : α → κ} {items : List α} {k : κ} (hk : k ∉ (groupItems key items).keys) :
    ofKey key items k = [] := by
  refine List.filter_eq_nil_iff.mpr fun x hx hdec => hk ((keys_groupItems key items).mpr ?_)
  exact of_decide_eq_true hdec ▸ List.mem_map_of_mem hx

theorem filter_interleaved (key : α → κ) (items : List α) (k : κ) :
    (interleaved key items).filter (fun x => decide (key x = k)) = ofKey key items k := by
  unfold interleaved
  rw [values_groupItems]
  by_cases hk : k ∈ (groupItems key items).keys
  · exact filter_interleave (groupItems key items).nodup (fun _ _ _ hx => key_ofKey key items hx) hk
  · rw [ofKey_eq_nil hk, List.filter_eq_nil_iff]
    intro x hx hdec
    refine hk ?_
    rw [← of_decide_eq_true hdec]
    exact key_of_mem_interleave (fun _ _ _ hx => key_ofKey key items hx) hx

theorem balanced_interleaved (key : α → κ) (items : List α) {p : List α} (hp : p <+: interleaved key items)
    (k k' : κ) :
    p.countP (fun x => decide (key x = k)) ≤ p.countP (fun x => decide (key x = k')) + 1 ∨
      (ofKey key items k').length ≤ p.countP (fun x => decide (key x = k')) := by
  by_cases hk' : k' ∈ (groupItems key items).keys
  · by_cases hk : k ∈ (groupItems key items).keys
    · unfold interleaved at hp
      rw [values_groupItems] at hp
      exact interleave_balanced (groupItems key items).nodup (fun _ _ _ hx => key_ofKey key items hx) hp hk hk'
    · -- a group that has no items has none in the prefix
      have hle := hp.sublist.countP_le (p := fun x => decide (key x = k))
      rw [List.countP_eq_length_filter (l := interleaved key items), filter_interleaved] at hle
      rw [ofKey_eq_nil hk, List.length_nil] at hle
      exact Or.inl (hle.trans (Nat.zero_le _))
  · rw [ofKey_eq_nil hk']
    exact Or.inr (Nat.zero_le _)

theorem perm_interleaved (key : α → κ) (items : List α) : (interleaved key items).Perm items :=
  perm_of_filters fun k => filter_interleaved key items k

/-- **The drain is fair**: whatever the limit, what is returned is the slice at it, the beginning, of an interleaving
of all the items that keeps the order of each group, and at every point of it two groups differ by one at most,
unless the one with fewer is used up. -/
theorem roundRobin_fair (key : α → κ) (limit : ℤ) (items : List α) :
    ∃ full, roundRobin key limit items = slice full limit ∧ roundRobin key limit items <+: full ∧ full.Perm items ∧
      (∀ k, ofKey key full k = ofKey key items k) ∧
      ∀ p, p <+: full → ∀ k k',
        p.countP (fun x => decide (key x = k)) ≤ p.countP (fun x => decide (key x = k')) + 1 ∨
          p.countP (fun x => decide (key x = k')) = (ofKey key items k').length := by
  refine ⟨interleaved key items, rfl, List.take_prefix _ _, perm_interleaved key items, filter_interleaved key items,
    fun p hp k k' => ?_⟩
  refine (balanced_interleaved key items hp k k').imp_right fun hle => le_antisymm ?_ hle
  rw [← filter_interleaved, ← List.countP_eq_length_filter]
  exact hp.sublist.countP_le

/-- A flood of one tenant leaves the others their turns. -/
example : roundRobin (fun d : String × ℕ => d.1) 4 [("flood", 1), ("flood", 2), ("flood", 3), ("quiet", 4)] =
    [("flood", 1), ("quiet", 4), ("flood", 2), ("flood", 3)] := by decide

end RagPipeline.Notifications
