/-
  RagPipeline.Lib.OrderedDict — the insertion-ordered dictionary.

  A finite map whose iteration order is the order in which its keys were FIRST inserted:

    * `set` overwrites an existing key IN PLACE and appends a new one at the end;
    * `erase` (and `eraseIf`) drop keys without moving the others.

  The key-uniqueness invariant is a field, so a dictionary with two values under one key cannot be
  built.  Everything below is derived from two facts: `get?_eq_some` (lookup is membership in the
  item list) and the membership lemmas of the three updates.  `filterKeys` is the restriction to a
  set of keys, and `filterKeys_set` / `filterKeys_erase` are what a projection argument needs.
-/
import Mathlib.Data.List.Nodup
import Mathlib.Data.List.Lemmas

namespace RagPipeline.Lib

/-- What is looked for is found, where it is the only one. -/
theorem find?_only {α : Type*} {p : α → Bool} {xs : List α} {x : α} (hx : x ∈ xs) (hp : p x = true)
    (honly : ∀ y ∈ xs, p y = true → y = x) : xs.find? p = some x := by
  cases hf : xs.find? p with
  | none => exact absurd hp (List.find?_eq_none.mp hf x hx)
  | some y => rw [honly y (List.mem_of_find?_eq_some hf) (List.find?_some hf)]

/-! ## §1. The type and its operations. -/

/-- A dictionary that iterates in insertion order; no key occurs twice. -/
structure OrderedDict (κ ν : Type*) where
  items : List (κ × ν)
  nodup : (items.map Prod.fst).Nodup

namespace OrderedDict

variable {κ ν κ' ν' : Type*}

/-- The empty dictionary. -/
def empty : OrderedDict κ ν := ⟨[], List.nodup_nil⟩

/-- The keys, oldest first. -/
def keys (d : OrderedDict κ ν) : List κ := d.items.map Prod.fst

/-- The values, oldest key first. -/
def values (d : OrderedDict κ ν) : List ν := d.items.map Prod.snd

/-- Keep the items that satisfy `p`. -/
def filterItems (d : OrderedDict κ ν) (p : κ × ν → Bool) : OrderedDict κ ν :=
  ⟨d.items.filter p, d.nodup.sublist (List.filter_sublist.map _)⟩

/-- Restrict to the keys that satisfy `p`. -/
def filterKeys (d : OrderedDict κ ν) (p : κ → Bool) : OrderedDict κ ν :=
  d.filterItems (fun q => p q.1)

theorem ext_items {d d' : OrderedDict κ ν} (h : d.items = d'.items) : d = d' := by
  cases d; cases d'; cases h; rfl

/-- A key determines its value. -/
theorem mem_unique (d : OrderedDict κ ν) {k : κ} {v v' : ν}
    (h : (k, v) ∈ d.items) (h' : (k, v') ∈ d.items) : v = v' := by
  have hinj := List.inj_on_of_nodup_map d.nodup h h' rfl
  exact (Prod.mk.inj hinj).2

theorem mem_values {d : OrderedDict κ ν} {v : ν} : v ∈ d.values ↔ ∃ k, (k, v) ∈ d.items := by
  simp [values]

@[simp] theorem items_filterItems (d : OrderedDict κ ν) (p : κ × ν → Bool) :
    (d.filterItems p).items = d.items.filter p := rfl

@[simp] theorem items_filterKeys (d : OrderedDict κ ν) (p : κ → Bool) :
    (d.filterKeys p).items = d.items.filter (fun q => p q.1) := rfl

variable [DecidableEq κ]

/-- Lookup. -/
def get? (d : OrderedDict κ ν) (k : κ) : Option ν :=
  (d.items.find? (fun p => decide (p.1 = k))).map Prod.snd

/-- Remove one key. -/
def erase (d : OrderedDict κ ν) (k : κ) : OrderedDict κ ν :=
  d.filterItems (fun p => decide (p.1 ≠ k))

/-- The keys do not move when a value is overwritten in place. -/
theorem map_fst_overwrite (l : List (κ × ν)) (k : κ) (v : ν) :
    (l.map (fun p => if p.1 = k then (k, v) else p)).map Prod.fst = l.map Prod.fst := by
  rw [List.map_map]
  refine List.map_congr_left (fun p _ => ?_)
  by_cases h : p.1 = k
  · simp [h]
  · simp [h]

/-- Bind `k` to `v`: in place when `k` is there, at the end when it is not. -/
def set (d : OrderedDict κ ν) (k : κ) (v : ν) : OrderedDict κ ν :=
  if h : k ∈ d.keys then
    ⟨d.items.map (fun p => if p.1 = k then (k, v) else p), by
      rw [map_fst_overwrite]; exact d.nodup⟩
  else
    ⟨d.items ++ [(k, v)], by
      rw [List.map_append, List.nodup_append]
      refine ⟨d.nodup, by simp, ?_⟩
      intro a ha b hb hab
      simp only [List.map_cons, List.map_nil, List.mem_singleton] at hb
      exact h (hb ▸ hab ▸ ha)⟩

/-! ## §2. Membership: the one view every proof below uses. -/

/-- **Lookup is membership.** -/
theorem get?_eq_some {d : OrderedDict κ ν} {k : κ} {v : ν} :
    d.get? k = some v ↔ (k, v) ∈ d.items := by
  constructor
  · intro h
    obtain ⟨q, hq, hv⟩ := Option.map_eq_some_iff.mp h
    have hk : q.1 = k := by simpa using List.find?_some hq
    have hm := List.mem_of_find?_eq_some hq
    rw [← hk, ← hv]
    exact hm
  · intro h
    have hfind : d.items.find? (fun p => decide (p.1 = k)) = some (k, v) := by
      refine find?_only h (decide_eq_true rfl) fun q hq hk => ?_
      exact List.inj_on_of_nodup_map d.nodup hq h (of_decide_eq_true hk)
    unfold get?
    rw [hfind]
    rfl

theorem get?_eq_none {d : OrderedDict κ ν} {k : κ} : d.get? k = none ↔ k ∉ d.keys := by
  rw [get?, Option.map_eq_none_iff, List.find?_eq_none]
  simp only [decide_eq_true_eq, keys, List.mem_map, not_exists, not_and]

theorem get?_of_mem_keys {d : OrderedDict κ ν} {k : κ} (h : k ∈ d.keys) :
    ∃ v, d.get? k = some v := by
  cases hg : d.get? k with
  | none => exact absurd h (get?_eq_none.mp hg)
  | some v => exact ⟨v, rfl⟩

theorem mem_values_of_get? {d : OrderedDict κ ν} {k : κ} {v : ν} (h : d.get? k = some v) :
    v ∈ d.values := mem_values.mpr ⟨k, get?_eq_some.mp h⟩

@[simp] theorem items_erase (d : OrderedDict κ ν) (k : κ) :
    (d.erase k).items = d.items.filter (fun p => decide (p.1 ≠ k)) := rfl

theorem mem_erase {d : OrderedDict κ ν} {k k' : κ} {v : ν} :
    (k', v) ∈ (d.erase k).items ↔ (k', v) ∈ d.items ∧ k' ≠ k := by
  simp

/-- The items of an overwritten dictionary. -/
theorem mem_set {d : OrderedDict κ ν} {k k' : κ} {v v' : ν} :
    (k', v') ∈ (d.set k v).items ↔ (k' = k ∧ v' = v) ∨ (k' ≠ k ∧ (k', v') ∈ d.items) := by
  unfold set
  split
  · rename_i h
    simp only [List.mem_map]
    constructor
    · rintro ⟨q, hq, he⟩
      by_cases hk : q.1 = k
      · rw [if_pos hk] at he
        exact Or.inl ⟨(Prod.mk.inj he).1.symm, (Prod.mk.inj he).2.symm⟩
      · rw [if_neg hk] at he
        subst he
        exact Or.inr ⟨hk, hq⟩
    · rintro (⟨rfl, rfl⟩ | ⟨hne, hm⟩)
      · obtain ⟨q, hq, hqk⟩ := List.mem_map.mp h
        exact ⟨q, hq, by rw [if_pos hqk]⟩
      · exact ⟨(k', v'), hm, by rw [if_neg hne]⟩
  · rename_i h
    simp only [List.mem_append, List.mem_singleton, Prod.mk.injEq]
    constructor
    · rintro (hm | ⟨rfl, rfl⟩)
      · exact Or.inr ⟨fun hk => h (hk ▸ List.mem_map_of_mem hm), hm⟩
      · exact Or.inl ⟨rfl, rfl⟩
    · rintro (⟨rfl, rfl⟩ | ⟨_, hm⟩)
      · exact Or.inr ⟨rfl, rfl⟩
      · exact Or.inl hm

/-! ## §3. Lookup after an update. -/

@[simp] theorem get?_empty (k : κ) : (empty : OrderedDict κ ν).get? k = none := rfl

@[simp] theorem get?_set_self (d : OrderedDict κ ν) (k : κ) (v : ν) :
    (d.set k v).get? k = some v :=
  get?_eq_some.mpr (mem_set.mpr (Or.inl ⟨rfl, rfl⟩))

theorem get?_set_ne (d : OrderedDict κ ν) {k k' : κ} (v : ν) (h : k' ≠ k) :
    (d.set k v).get? k' = d.get? k' := by
  apply Option.ext
  intro w
  rw [get?_eq_some, get?_eq_some, mem_set]
  simp [h]

@[simp] theorem get?_erase_self (d : OrderedDict κ ν) (k : κ) : (d.erase k).get? k = none := by
  rw [get?_eq_none]
  intro hk
  obtain ⟨q, hq, hqk⟩ := List.mem_map.mp hk
  have hne : q.1 ≠ k := by simpa using (List.mem_filter.mp hq).2
  exact hne hqk

theorem get?_erase_ne (d : OrderedDict κ ν) {k k' : κ} (h : k' ≠ k) :
    (d.erase k).get? k' = d.get? k' := by
  apply Option.ext
  intro w
  rw [get?_eq_some, get?_eq_some, mem_erase]
  simp [h]

/-- A removal leaves the other keys. -/
theorem mem_keys_erase_of_ne (d : OrderedDict κ ν) {k k' : κ} (h : k' ≠ k) :
    k' ∈ (d.erase k).keys ↔ k' ∈ d.keys := by
  rw [← not_iff_not, ← get?_eq_none, ← get?_eq_none, get?_erase_ne d h]

/-- Nothing happens when a key that is not there is removed. -/
theorem erase_of_get?_none {d : OrderedDict κ ν} {k : κ} (h : d.get? k = none) :
    d.erase k = d := by
  apply ext_items
  rw [items_erase, List.filter_eq_self]
  intro p hp
  have hne : p.1 ≠ k := fun he => get?_eq_none.mp h (he ▸ List.mem_map_of_mem hp)
  simpa using hne

theorem mem_keys_set {d : OrderedDict κ ν} {k k' : κ} {v : ν} :
    k' ∈ (d.set k v).keys ↔ k' = k ∨ k' ∈ d.keys := by
  constructor
  · intro h
    obtain ⟨q, hq, rfl⟩ := List.mem_map.mp h
    rcases mem_set.mp hq with ⟨hk, -⟩ | ⟨-, hm⟩
    · exact Or.inl hk
    · exact Or.inr (List.mem_map_of_mem hm)
  · rintro (rfl | h)
    · exact List.mem_map_of_mem (mem_set.mpr (Or.inl ⟨rfl, rfl⟩))
    · by_cases hk : k' = k
      · subst hk
        exact List.mem_map_of_mem (mem_set.mpr (Or.inl ⟨rfl, rfl⟩))
      · obtain ⟨q, hq, rfl⟩ := List.mem_map.mp h
        exact List.mem_map_of_mem (mem_set.mpr (Or.inr ⟨hk, hq⟩))

/-- A key that is not there is appended. -/
theorem items_set_of_not_mem (d : OrderedDict κ ν) {k : κ} (v : ν) (h : k ∉ d.keys) :
    (d.set k v).items = d.items ++ [(k, v)] := by
  unfold set
  rw [dif_neg h]

/-- A key that is there is overwritten in place. -/
theorem items_set_of_mem (d : OrderedDict κ ν) {k : κ} (v : ν) (h : k ∈ d.keys) :
    (d.set k v).items = d.items.map (fun p => if p.1 = k then (k, v) else p) := by
  unfold set
  rw [dif_pos h]

/-- The last of two writes of one key is the one that counts. -/
theorem set_set (d : OrderedDict κ ν) (k : κ) (v v' : ν) : (d.set k v).set k v' = d.set k v' := by
  have hself : k ∈ (d.set k v).keys := mem_keys_set.mpr (Or.inl rfl)
  apply ext_items
  rw [items_set_of_mem _ _ hself]
  by_cases hk : k ∈ d.keys
  · rw [items_set_of_mem _ _ hk, items_set_of_mem _ _ hk, List.map_map]
    refine List.map_congr_left (fun p _ => ?_)
    by_cases hp : p.1 = k
    · simp [hp]
    · simp [hp]
  · rw [items_set_of_not_mem _ _ hk, items_set_of_not_mem _ _ hk, List.map_append]
    have hid : d.items.map (fun p => if p.1 = k then (k, v') else p) = d.items := by
      conv_rhs => rw [← List.map_id d.items]
      refine List.map_congr_left (fun p hp => ?_)
      have hne : p.1 ≠ k := fun he => hk (he ▸ List.mem_map_of_mem hp)
      simp [hne]
    rw [hid]
    simp

/-! ## §4. Restriction to a set of keys commutes with the updates. -/

omit [DecidableEq κ] in
theorem mem_keys_filterKeys {d : OrderedDict κ ν} {p : κ → Bool} {k : κ} :
    k ∈ (d.filterKeys p).keys ↔ k ∈ d.keys ∧ p k = true := by
  simp only [keys, items_filterKeys, List.mem_map, List.mem_filter]
  constructor
  · rintro ⟨q, ⟨hq, hp⟩, rfl⟩
    exact ⟨⟨q, hq, rfl⟩, hp⟩
  · rintro ⟨⟨q, hq, rfl⟩, hp⟩
    exact ⟨q, ⟨hq, hp⟩, rfl⟩

theorem get?_filterKeys (d : OrderedDict κ ν) {p : κ → Bool} {k : κ} (h : p k = true) :
    (d.filterKeys p).get? k = d.get? k := by
  apply Option.ext
  intro w
  rw [get?_eq_some, get?_eq_some]
  simp [h]

/-- An update outside the set is invisible. -/
theorem filterKeys_set_of_not (d : OrderedDict κ ν) {p : κ → Bool} {k : κ} (v : ν)
    (h : p k = false) : (d.set k v).filterKeys p = d.filterKeys p := by
  apply ext_items
  by_cases hk : k ∈ d.keys
  · simp only [items_filterKeys, d.items_set_of_mem v hk, List.filter_map]
    have hcomp : ((fun q : κ × ν => p q.1) ∘ fun q => if q.1 = k then (k, v) else q)
        = fun q => p q.1 := by
      funext q
      by_cases hq : q.1 = k
      · simp [hq]
      · simp [hq]
    rw [hcomp]
    conv_rhs => rw [← List.map_id (d.items.filter fun q => p q.1)]
    refine List.map_congr_left (fun q hq => ?_)
    have hpq : p q.1 = true := by simpa using (List.mem_filter.mp hq).2
    have hne : q.1 ≠ k := fun he => by rw [he, h] at hpq; cases hpq
    simp [hne]
  · simp [d.items_set_of_not_mem v hk, h]

/-- An update inside the set is the same update of the restriction. -/
theorem filterKeys_set_of_mem (d : OrderedDict κ ν) {p : κ → Bool} {k : κ} (v : ν)
    (h : p k = true) : (d.set k v).filterKeys p = (d.filterKeys p).set k v := by
  apply ext_items
  by_cases hk : k ∈ d.keys
  · have hk' : k ∈ (d.filterKeys p).keys := mem_keys_filterKeys.mpr ⟨hk, h⟩
    rw [items_set_of_mem _ _ hk', items_filterKeys, items_filterKeys, d.items_set_of_mem v hk,
      List.filter_map]
    congr 1
    refine List.filter_congr (fun q _ => ?_)
    by_cases hq : q.1 = k
    · simp [hq]
    · simp [hq]
  · have hk' : k ∉ (d.filterKeys p).keys := fun hm => hk (mem_keys_filterKeys.mp hm).1
    rw [items_set_of_not_mem _ _ hk', items_filterKeys, items_filterKeys,
      d.items_set_of_not_mem v hk]
    simp [h]

omit [DecidableEq κ] in
/-- Restrictions to items commute. -/
theorem filterItems_comm (d : OrderedDict κ ν) (p q : κ × ν → Bool) :
    (d.filterItems p).filterItems q = (d.filterItems q).filterItems p :=
  ext_items (by simp [Bool.and_comm])

omit [DecidableEq κ] in
/-- Two restrictions are the one that tests both. -/
theorem filterItems_filterItems (d : OrderedDict κ ν) {p q r : κ × ν → Bool}
    (h : ∀ x, (q x && p x) = r x) : (d.filterItems p).filterItems q = d.filterItems r := by
  apply ext_items
  rw [items_filterItems, items_filterItems, items_filterItems, List.filter_filter]
  exact List.filter_congr (fun x _ => h x)

/-- Removing a key and then a list of keys removes the longer list. -/
theorem filterItems_erase_cons (d : OrderedDict κ ν) (k : κ) (ks : List κ)
    [∀ p : κ × ν, Decidable (p.1 ∉ ks)] [∀ p : κ × ν, Decidable (p.1 ∉ k :: ks)] :
    (d.erase k).filterItems (fun p => decide (p.1 ∉ ks))
      = d.filterItems (fun p => decide (p.1 ∉ k :: ks)) := by
  refine d.filterItems_filterItems (fun p => ?_)
  rw [Bool.eq_iff_iff, Bool.and_eq_true, decide_eq_true_iff, decide_eq_true_iff, decide_eq_true_iff,
    List.mem_cons, not_or, and_comm]

omit [DecidableEq κ] in
theorem filterKeys_filterItems (d : OrderedDict κ ν) (p : κ → Bool) (q : κ × ν → Bool) :
    (d.filterItems q).filterKeys p = (d.filterKeys p).filterItems q :=
  d.filterItems_comm q _

theorem filterKeys_erase (d : OrderedDict κ ν) (p : κ → Bool) (k : κ) :
    (d.erase k).filterKeys p = (d.filterKeys p).erase k :=
  d.filterKeys_filterItems p _

omit [DecidableEq κ] in
/-- A filter that keeps everything inside the set is invisible. -/
theorem filterKeys_filterItems_of_all {d : OrderedDict κ ν} {p : κ → Bool} {q : κ × ν → Bool}
    (h : ∀ x ∈ d.items, p x.1 = true → q x = true) :
    (d.filterItems q).filterKeys p = d.filterKeys p := by
  apply ext_items
  rw [items_filterKeys, items_filterItems, items_filterKeys, List.filter_filter]
  refine List.filter_congr (fun x hx => ?_)
  cases hp : p x.1 with
  | false => rfl
  | true => rw [h x hx hp]; rfl

/-- A removal outside the set is invisible. -/
theorem filterKeys_erase_of_not {d : OrderedDict κ ν} {p : κ → Bool} {k : κ} (h : p k = false) :
    (d.erase k).filterKeys p = d.filterKeys p := by
  refine filterKeys_filterItems_of_all (fun x _ hp => ?_)
  have hne : x.1 ≠ k := fun he => by rw [he, h] at hp; cases hp
  simpa using hne

/-! ## §5. Renaming keys and values. -/

section Map

variable [DecidableEq κ'] {f : κ → κ'} (hf : Function.Injective f) (g : ν → ν')

omit [DecidableEq κ] [DecidableEq κ'] in
include hf in
theorem nodup_mapKV (d : OrderedDict κ ν) :
    ((d.items.map (Prod.map f g)).map Prod.fst).Nodup := by
  have hcomp : (d.items.map (Prod.map f g)).map Prod.fst = (d.items.map Prod.fst).map f := by
    rw [List.map_map, List.map_map]
    rfl
  rw [hcomp]
  exact d.nodup.map hf

/-- Rename the keys by an injection, and the values by any map. -/
def mapKV (d : OrderedDict κ ν) : OrderedDict κ' ν' :=
  ⟨d.items.map (Prod.map f g), nodup_mapKV hf g d⟩

omit [DecidableEq κ] [DecidableEq κ'] in
@[simp] theorem items_mapKV (d : OrderedDict κ ν) :
    (d.mapKV hf g).items = d.items.map (Prod.map f g) := rfl

theorem get?_mapKV (d : OrderedDict κ ν) (k : κ) :
    (d.mapKV hf g).get? (f k) = (d.get? k).map g := by
  apply Option.ext
  intro w
  rw [get?_eq_some, Option.map_eq_some_iff, items_mapKV, List.mem_map]
  constructor
  · rintro ⟨p, hp, he⟩
    obtain ⟨h1, h2⟩ := Prod.mk.inj he
    exact ⟨p.2, get?_eq_some.mpr (hf h1 ▸ hp), h2⟩
  · rintro ⟨v, hv, rfl⟩
    exact ⟨(k, v), get?_eq_some.mp hv, rfl⟩

omit [DecidableEq κ] [DecidableEq κ'] in
theorem mem_keys_mapKV {d : OrderedDict κ ν} {k : κ} :
    f k ∈ (d.mapKV hf g).keys ↔ k ∈ d.keys := by
  unfold keys
  rw [items_mapKV, List.map_map, List.mem_map, List.mem_map]
  constructor
  · rintro ⟨p, hp, he⟩
    exact ⟨p, hp, hf he⟩
  · rintro ⟨p, hp, he⟩
    exact ⟨p, hp, congrArg f he⟩

theorem set_mapKV (d : OrderedDict κ ν) (k : κ) (v : ν) :
    (d.mapKV hf g).set (f k) (g v) = (d.set k v).mapKV hf g := by
  apply ext_items
  by_cases hk : k ∈ d.keys
  · rw [items_set_of_mem _ _ ((mem_keys_mapKV hf g).mpr hk), items_mapKV, items_mapKV,
      items_set_of_mem _ _ hk, List.map_map, List.map_map]
    refine List.map_congr_left (fun p _ => ?_)
    by_cases hp : p.1 = k
    · simp [hp]
    · have hne : f p.1 ≠ f k := fun he => hp (hf he)
      simp [hp, hne]
  · rw [items_set_of_not_mem _ _ (fun h => hk ((mem_keys_mapKV hf g).mp h)), items_mapKV,
      items_mapKV, items_set_of_not_mem _ _ hk, List.map_append]
    rfl

omit [DecidableEq κ] [DecidableEq κ'] in
theorem filterItems_mapKV (d : OrderedDict κ ν) (p : κ' × ν' → Bool) :
    (d.mapKV hf g).filterItems p
      = (d.filterItems (fun q => p (f q.1, g q.2))).mapKV hf g := by
  apply ext_items
  rw [items_filterItems, items_mapKV, items_mapKV, items_filterItems, List.filter_map]
  rfl

theorem erase_mapKV (d : OrderedDict κ ν) (k : κ) :
    (d.mapKV hf g).erase (f k) = (d.erase k).mapKV hf g := by
  unfold erase
  rw [filterItems_mapKV]
  congr 1
  apply ext_items
  rw [items_filterItems, items_filterItems]
  refine List.filter_congr (fun p _ => ?_)
  simp [hf.eq_iff]

/-- A write to a dictionary whose restriction is the renaming of another one. -/
theorem set_of_filterKeys_eq_mapKV {d : OrderedDict κ' ν'} {d' : OrderedDict κ ν} {p : κ' → Bool}
    (h : d.filterKeys p = d'.mapKV hf g) {k : κ} (hk : p (f k) = true) (v : ν) :
    (d.set (f k) (g v)).filterKeys p = (d'.set k v).mapKV hf g := by
  rw [filterKeys_set_of_mem _ _ hk, h, set_mapKV]

theorem erase_of_filterKeys_eq_mapKV {d : OrderedDict κ' ν'} {d' : OrderedDict κ ν}
    {p : κ' → Bool} (h : d.filterKeys p = d'.mapKV hf g) (k : κ) :
    (d.erase (f k)).filterKeys p = (d'.erase k).mapKV hf g := by
  rw [filterKeys_erase, h, erase_mapKV]

omit [DecidableEq κ] [DecidableEq κ'] in
theorem filterItems_of_filterKeys_eq_mapKV {d : OrderedDict κ' ν'} {d' : OrderedDict κ ν}
    {p : κ' → Bool} (h : d.filterKeys p = d'.mapKV hf g) {q : κ' × ν' → Bool} {q' : κ × ν → Bool}
    (hq : ∀ x ∈ d'.items, q (f x.1, g x.2) = q' x) :
    (d.filterItems q).filterKeys p = (d'.filterItems q').mapKV hf g := by
  rw [filterKeys_filterItems, h, filterItems_mapKV]
  apply ext_items
  rw [items_mapKV, items_mapKV, items_filterItems, items_filterItems]
  congr 1
  exact List.filter_congr hq

/-- Lookup in a dictionary whose restriction is the renaming of another one. -/
theorem get?_of_filterKeys_eq_mapKV {d : OrderedDict κ' ν'} {d' : OrderedDict κ ν} {p : κ' → Bool}
    (h : d.filterKeys p = d'.mapKV hf g) {k : κ} (hk : p (f k) = true) :
    d.get? (f k) = (d'.get? k).map g := by
  rw [← get?_filterKeys d hk, h, get?_mapKV]

omit [DecidableEq κ] [DecidableEq κ'] in
/-- The keys of the other one are all in the set. -/
theorem key_of_filterKeys_eq_mapKV {d : OrderedDict κ' ν'} {d' : OrderedDict κ ν} {p : κ' → Bool}
    (h : d.filterKeys p = d'.mapKV hf g) {x : κ × ν} (hx : x ∈ d'.items) : p (f x.1) = true := by
  have hm : (f x.1, g x.2) ∈ (d.filterKeys p).items := by
    rw [h, items_mapKV]
    exact List.mem_map.mpr ⟨x, hx, rfl⟩
  exact (List.mem_filter.mp hm).2

end Map

end OrderedDict

end RagPipeline.Lib
