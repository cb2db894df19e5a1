/-
  RagPipeline.Lib.RangeDiff — a table with a uniqueness constraint, and the diff that keeps a part of it
  equal to a source.

    * `Table key`     — rows no two of which have one key: `insert?` FAILS on a key that is there;
    * `diff`          — one verdict for each key of the stored part or of the source: insert, update,
                        unchanged, reverse;
    * `applyAll`      — the verdicts in order; the first insert that fails fails the whole.

  `applyAll_diff_eq_none` says when the application fails, `find_applyAll_diff` what every key holds
  when it does not.  The stored part may be ANY part of the table (`Within`): a filter on the stored
  side that the source side does not share is where the two differ.
-/
import Mathlib.Algebra.GroupWithZero.Nat
import Mathlib.Data.List.Induction
import Mathlib.Data.List.Nodup
import RagPipeline.Lib.OrderedDict

namespace RagPipeline.Lib

/-! ## §1. Tables. -/

/-- Rows with a uniqueness constraint on `key`. -/
structure Table {κ ν : Type*} (key : ν → κ) where
  rows : List ν
  unique : (rows.map key).Nodup

namespace Table

variable {κ ν : Type*} {key : ν → κ}

/-- The table without rows. -/
def empty : Table key := ⟨[], List.nodup_nil⟩

variable [DecidableEq κ]

/-- The row of a key. -/
def find (t : Table key) (k : κ) : Option ν := t.rows.find? fun v => decide (key v = k)

/-- `INSERT`: fails on a key that is there. -/
def insert? (t : Table key) (v : ν) : Option (Table key) :=
  if h : key v ∈ t.rows.map key then none
  else
    some
      ⟨t.rows ++ [v], by
        rw [List.map_append, List.nodup_append]
        refine ⟨t.unique, by simp, ?_⟩
        intro a ha b hb hab
        simp only [List.map_cons, List.map_nil, List.mem_singleton] at hb
        exact h (hb ▸ hab ▸ ha)⟩

/-- `UPDATE … WHERE key`: no row, no effect. -/
def update (t : Table key) (v : ν) : Table key :=
  ⟨t.rows.map fun r => if key r = key v then v else r, by
    have hkeys : (t.rows.map fun r => if key r = key v then v else r).map key = t.rows.map key := by
      rw [List.map_map]
      refine List.map_congr_left fun r _ => ?_
      by_cases h : key r = key v
      · simp [h]
      · simp [h]
    rw [hkeys]
    exact t.unique⟩

/-- `DELETE … WHERE key`. -/
def delete (t : Table key) (k : κ) : Table key :=
  ⟨t.rows.filter fun r => decide (key r ≠ k), t.unique.sublist (List.filter_sublist.map _)⟩

/-- **Lookup is membership.** -/
theorem find_eq_some {t : Table key} {k : κ} {v : ν} : t.find k = some v ↔ v ∈ t.rows ∧ key v = k := by
  constructor
  · intro h
    exact ⟨List.mem_of_find?_eq_some h, by simpa using List.find?_some h⟩
  · rintro ⟨hv, rfl⟩
    refine find?_only hv (decide_eq_true rfl) fun u hu hk => ?_
    exact List.inj_on_of_nodup_map t.unique hu hv (of_decide_eq_true hk)

theorem find_eq_none {t : Table key} {k : κ} : t.find k = none ↔ k ∉ t.rows.map key := by
  rw [find, List.find?_eq_none]
  simp only [decide_eq_true_eq, List.mem_map, not_exists, not_and]

theorem find_of_mem {t : Table key} {v : ν} (h : v ∈ t.rows) : t.find (key v) = some v :=
  find_eq_some.mpr ⟨h, rfl⟩

@[simp] theorem find_empty (k : κ) : (empty : Table key).find k = none := rfl

/-- An insert fails on exactly the keys that are there. -/
theorem insert?_eq_none {t : Table key} {v : ν} : t.insert? v = none ↔ t.find (key v) ≠ none := by
  unfold insert?
  split
  · next h => simpa [find_eq_none] using h
  · next h => simpa [find_eq_none] using h

theorem find_insert? {t t' : Table key} {v : ν} (h : t.insert? v = some t') (k : κ) :
    t'.find k = if k = key v then some v else t.find k := by
  unfold insert? at h
  split at h
  · exact absurd h (by simp)
  · next hv =>
    obtain rfl := Option.some.inj h
    by_cases hk : k = key v
    · subst hk
      rw [if_pos rfl]
      exact find_eq_some.mpr ⟨by simp, rfl⟩
    · rw [if_neg hk]
      have hne : ¬ key v = k := fun he => hk he.symm
      show (t.rows ++ [v]).find? _ = t.rows.find? _
      rw [List.find?_append]
      simp [hne]

theorem find_update_of_ne {t : Table key} {v : ν} {k : κ} (h : k ≠ key v) :
    (t.update v).find k = t.find k := by
  apply Option.ext
  intro u
  rw [find_eq_some, find_eq_some]
  constructor
  · rintro ⟨hu, hk⟩
    obtain ⟨r, hr, hru⟩ := List.mem_map.mp hu
    by_cases hkr : key r = key v
    · rw [if_pos hkr] at hru
      exact absurd (hk.symm.trans (congrArg key hru.symm)) h
    · rw [if_neg hkr] at hru
      exact ⟨hru ▸ hr, hk⟩
  · rintro ⟨hu, hk⟩
    refine ⟨List.mem_map.mpr ⟨u, hu, ?_⟩, hk⟩
    exact if_neg fun he => h (hk.symm.trans he)

theorem find_update_self {t : Table key} {v : ν} (h : t.find (key v) ≠ none) :
    (t.update v).find (key v) = some v := by
  obtain ⟨u, hu⟩ := Option.ne_none_iff_exists'.mp h
  obtain ⟨hmem, hkey⟩ := find_eq_some.mp hu
  exact find_eq_some.mpr ⟨List.mem_map.mpr ⟨u, hmem, if_pos hkey⟩, rfl⟩

theorem find_delete (t : Table key) (k k' : κ) :
    (t.delete k).find k' = if k' = k then none else t.find k' := by
  by_cases h : k' = k
  · subst h
    rw [if_pos rfl]
    exact find_eq_none.mpr (by simp [delete])
  · rw [if_neg h]
    apply Option.ext
    intro u
    rw [find_eq_some, find_eq_some]
    constructor
    · rintro ⟨hu, hk⟩
      exact ⟨(List.mem_filter.mp hu).1, hk⟩
    · rintro ⟨hu, hk⟩
      refine ⟨List.mem_filter.mpr ⟨hu, ?_⟩, hk⟩
      simpa [hk] using h

end Table

/-! ## §2. Verdicts. -/

/-- What the diff decides about one key, with both sides. -/
inductive Outcome (κ ν ω : Type*) where
  | insert (k : κ) (new : ω)
  | update (k : κ) (old : ν) (new : ω)
  | unchanged (k : κ) (old : ν)
  | reverse (k : κ) (old : ν)

/-- How a source value becomes a row. -/
structure Folding {κ ν ω : Type*} (key : ν → κ) (skey : ω → κ) where
  /-- The fingerprints match. -/
  same : ν → ω → Bool
  /-- The first version of a row. -/
  fresh : ω → ν
  /-- The next version of a row. -/
  revise : ν → ω → ν
  key_fresh : ∀ w, key (fresh w) = skey w
  key_revise : ∀ o w, key (revise o w) = skey w

variable {κ ν ω : Type*} {key : ν → κ} {skey : ω → κ}

namespace Outcome

/-- The key a verdict is about. -/
def target : Outcome κ ν ω → κ
  | insert k _ | update k _ _ | unchanged k _ | reverse k _ => k

/-- What the key holds afterwards. -/
def result (F : Folding key skey) : Outcome κ ν ω → Option ν
  | insert _ w => some (F.fresh w)
  | update _ o w => some (F.revise o w)
  | unchanged _ o => some o
  | reverse _ _ => none

end Outcome

variable [DecidableEq κ]

/-- `_by_key`: the last of the values of one key. -/
def byKey (f : ω → κ) (ws : List ω) : OrderedDict κ ω :=
  ws.foldl (fun d w => d.set (f w) w) OrderedDict.empty

/-- The verdict on a key of the source. -/
def verdict (F : Folding key skey) (have_ : OrderedDict κ ν) (p : κ × ω) : Outcome κ ν ω :=
  match have_.get? p.1 with
  | none => .insert p.1 p.2
  | some o => if F.same o p.2 then .unchanged p.1 o else .update p.1 o p.2

/-- `diff`: every key of the source, then the stored keys the source does not have. -/
def diff (F : Folding key skey) (have_ : OrderedDict κ ν) (want : OrderedDict κ ω) :
    List (Outcome κ ν ω) :=
  want.items.map (verdict F have_) ++
    (have_.items.filter fun p => decide (p.1 ∉ want.keys)).map fun p => .reverse p.1 p.2

/-- One verdict, carried out. -/
def Outcome.apply (F : Folding key skey) (t : Table key) : Outcome κ ν ω → Option (Table key)
  | .insert _ w => t.insert? (F.fresh w)
  | .update _ o w => some (t.update (F.revise o w))
  | .unchanged _ _ => some t
  | .reverse k _ => some (t.delete k)

/-- `_apply`: all of them, or none. -/
def applyAll (F : Folding key skey) (t : Table key) : List (Outcome κ ν ω) → Option (Table key)
  | [] => some t
  | o :: os => (o.apply F t).bind fun t' => applyAll F t' os

/-! ## §3. `byKey`. -/

theorem byKey_append (f : ω → κ) (ws : List ω) (w : ω) :
    byKey f (ws ++ [w]) = (byKey f ws).set (f w) w := by
  simp [byKey]

/-- What is bound to a key has that key and is one of the values. -/
theorem byKey_sound {f : ω → κ} {ws : List ω} {k : κ} {w : ω} (h : (byKey f ws).get? k = some w) :
    w ∈ ws ∧ f w = k := by
  induction ws using List.reverseRecOn with
  | nil => simp [byKey] at h
  | append_singleton ws v ih =>
      rw [byKey_append] at h
      by_cases hk : k = f v
      · rw [hk, OrderedDict.get?_set_self] at h
        obtain rfl := Option.some.inj h
        exact ⟨by simp, hk.symm⟩
      · rw [OrderedDict.get?_set_ne _ _ hk] at h
        obtain ⟨hmem, hkey⟩ := ih h
        exact ⟨by simp [hmem], hkey⟩

/-- The key of every value is bound. -/
theorem byKey_complete {f : ω → κ} {ws : List ω} {w : ω} (h : w ∈ ws) :
    (byKey f ws).get? (f w) ≠ none := by
  induction ws using List.reverseRecOn with
  | nil => simp at h
  | append_singleton ws v ih =>
      rw [byKey_append]
      by_cases hk : f w = f v
      · rw [hk, OrderedDict.get?_set_self]
        exact Option.some_ne_none _
      · rw [OrderedDict.get?_set_ne _ _ hk]
        rcases List.mem_append.mp h with hw | hw
        · exact ih hw
        · exact absurd (congrArg f (List.mem_singleton.mp hw)) hk

/-- With distinct keys, lookup is membership. -/
theorem byKey_of_nodup {f : ω → κ} {ws : List ω} (hn : (ws.map f).Nodup) {w : ω} (h : w ∈ ws) :
    (byKey f ws).get? (f w) = some w := by
  obtain ⟨v, hv⟩ := Option.ne_none_iff_exists'.mp (byKey_complete (f := f) h)
  obtain ⟨hmem, hkey⟩ := byKey_sound hv
  rw [hv, List.inj_on_of_nodup_map hn hmem h hkey]

/-! ## §4. Application. -/

/-- The verdict agrees with the table: an inserted key is free, an old row is the stored one. -/
def Outcome.Fits (t : Table key) : Outcome κ ν ω → Prop
  | .insert k _ => t.find k = none
  | .update k o _ => t.find k = some o
  | .unchanged k o => t.find k = some o
  | .reverse k o => t.find k = some o

/-- The verdict writes under its own key. -/
def Outcome.Keyed (skey : ω → κ) : Outcome κ ν ω → Prop
  | .insert k w => skey w = k
  | .update k _ w => skey w = k
  | .unchanged _ _ => True
  | .reverse _ _ => True

/-- **One verdict changes its own key only**, to its result. -/
theorem Outcome.find_apply {F : Folding key skey} {t : Table key} {o : Outcome κ ν ω} (hk : o.Keyed skey)
    (hf : o.Fits t) :
    ∃ t', o.apply F t = some t' ∧ ∀ k, t'.find k = if k = o.target then o.result F else t.find k := by
  cases o with
  | insert k w =>
      -- the verdict fits the table, so the insert finds its key free
      have hkey : key (F.fresh w) = k := (F.key_fresh w).trans hk
      have hfree : t.insert? (F.fresh w) ≠ none := by
        intro hnone
        exact Table.insert?_eq_none.mp hnone (hkey ▸ hf)
      obtain ⟨t', ht'⟩ := Option.ne_none_iff_exists'.mp hfree
      refine ⟨t', ht', fun k' => ?_⟩
      rw [Table.find_insert? ht', hkey]
      rfl
  | update k old w =>
      have hkey : key (F.revise old w) = k := (F.key_revise old w).trans hk
      refine ⟨_, rfl, fun k' => ?_⟩
      by_cases h : k' = k
      · subst h
        show _ = if k' = k' then _ else _
        rw [if_pos rfl]
        have hthere : t.find (key (F.revise old w)) ≠ none := by
          rw [hkey, show t.find k' = some old from hf]
          exact Option.some_ne_none _
        have := Table.find_update_self hthere
        rwa [hkey] at this
      · show _ = if k' = k then _ else _
        rw [if_neg h]
        exact Table.find_update_of_ne (hkey ▸ h)
  | unchanged k old =>
      refine ⟨t, rfl, fun k' => ?_⟩
      by_cases h : k' = k
      · subst h
        show t.find k' = if k' = k' then some old else _
        rw [if_pos rfl]
        exact hf
      · show t.find k' = if k' = k then some old else _
        rw [if_neg h]
  | reverse k old => exact ⟨_, rfl, fun k' => Table.find_delete t k k'⟩

/-- A verdict on another key still fits. -/
theorem Outcome.Fits.of_find_eq {t t' : Table key} {o : Outcome κ ν ω} (hf : o.Fits t)
    (h : t'.find o.target = t.find o.target) : o.Fits t' := by
  cases o <;> exact h.trans hf

/-- **All verdicts that fit**: every key holds the result of its verdict, every other key what it
    held. -/
theorem find_applyAll {F : Folding key skey} {os : List (Outcome κ ν ω)} :
    ∀ {t : Table key}, (os.map Outcome.target).Nodup → (∀ o ∈ os, o.Keyed skey) → (∀ o ∈ os, o.Fits t) →
      ∃ t', applyAll F t os = some t' ∧
        (∀ o ∈ os, t'.find o.target = o.result F) ∧
        ∀ k, k ∉ os.map Outcome.target → t'.find k = t.find k := by
  induction os with
  | nil =>
      intro t _ _ _
      exact ⟨t, rfl, by simp, fun _ _ => rfl⟩
  | cons o os ih =>
      intro t hn hkeyed hfits
      rw [List.map_cons, List.nodup_cons] at hn
      obtain ⟨t₁, h₁, hfind₁⟩ :=
        Outcome.find_apply (F := F) (hkeyed o List.mem_cons_self) (hfits o List.mem_cons_self)
      have hne : ∀ o' ∈ os, o'.target ≠ o.target := by
        intro o' ho' he
        exact hn.1 (he ▸ List.mem_map.mpr ⟨o', ho', rfl⟩)
      -- the targets differ, so the verdicts that follow fit the new table as they fitted the old one
      have hfits₁ : ∀ o' ∈ os, o'.Fits t₁ := by
        intro o' ho'
        refine (hfits o' (List.mem_cons_of_mem _ ho')).of_find_eq ?_
        rw [hfind₁, if_neg (hne o' ho')]
      obtain ⟨t', h', hin, hout⟩ :=
        ih hn.2 (fun o' ho' => hkeyed o' (List.mem_cons_of_mem _ ho')) hfits₁
      refine ⟨t', ?_, ?_, ?_⟩
      · show (o.apply F t).bind _ = _
        rw [h₁]
        exact h'
      · intro o' ho'
        rcases List.mem_cons.mp ho' with rfl | ho'
        · rw [hout _ hn.1, hfind₁, if_pos rfl]
        · exact hin o' ho'
      · intro k hk
        rw [List.map_cons, List.mem_cons, not_or] at hk
        rw [hout k hk.2, hfind₁, if_neg hk.1]

/-- Whether it fits or not, a verdict leaves the other keys alone. -/
theorem Outcome.find_apply_of_ne {F : Folding key skey} {t t' : Table key} {o : Outcome κ ν ω} {k : κ}
    (hk : o.Keyed skey) (h : o.apply F t = some t') (hne : k ≠ o.target) : t'.find k = t.find k := by
  cases o with
  | insert k' w =>
      have hkey : key (F.fresh w) = k' := (F.key_fresh w).trans hk
      rw [Table.find_insert? h, hkey]
      exact if_neg hne
  | update k' old w =>
      have hkey : key (F.revise old w) = k' := (F.key_revise old w).trans hk
      obtain rfl := Option.some.inj h
      exact Table.find_update_of_ne (hkey ▸ hne)
  | unchanged k' old =>
      obtain rfl := Option.some.inj h
      rfl
  | reverse k' old =>
      obtain rfl := Option.some.inj h
      rw [Table.find_delete]
      exact if_neg hne

/-- What a verdict leaves behind still fits the later ones. -/
theorem fits_of_cons {F : Folding key skey} {t t₁ : Table key} {o : Outcome κ ν ω} {os : List (Outcome κ ν ω)}
    (hn : ((o :: os).map Outcome.target).Nodup) (hkeyed : ∀ o' ∈ o :: os, o'.Keyed skey)
    (hfits : ∀ o' ∈ o :: os, o'.Fits t) (h : o.apply F t = some t₁) : ∀ o' ∈ os, o'.Fits t₁ := by
  intro o' ho'
  refine (hfits o' (List.mem_cons_of_mem _ ho')).of_find_eq ?_
  apply Outcome.find_apply_of_ne (hkeyed o List.mem_cons_self) h
  rw [List.map_cons, List.nodup_cons] at hn
  exact fun he => hn.1 (he ▸ List.mem_map_of_mem ho')

/-- **An insert on a key that is there fails the whole.** -/
theorem applyAll_eq_none {F : Folding key skey} {os : List (Outcome κ ν ω)} {k : κ} {w : ω} :
    ∀ {t : Table key}, (os.map Outcome.target).Nodup → (∀ o ∈ os, o.Keyed skey) →
      Outcome.insert k w ∈ os → t.find k ≠ none → applyAll F t os = none := by
  induction os with
  | nil =>
      intro t _ _ hmem _
      exact absurd hmem (by simp)
  | cons o os ih =>
      intro t hn hkeyed hmem hthere
      rw [List.map_cons, List.nodup_cons] at hn
      show (o.apply F t).bind _ = _
      rcases List.mem_cons.mp hmem with rfl | hmem
      · have hkey : key (F.fresh w) = k :=
          (F.key_fresh w).trans (hkeyed (.insert k w) List.mem_cons_self)
        have hfail : t.insert? (F.fresh w) = none := Table.insert?_eq_none.mpr (hkey ▸ hthere)
        show (t.insert? (F.fresh w)).bind _ = none
        rw [hfail]
        rfl
      · have hne : k ≠ o.target := by
          intro he
          exact hn.1 (he ▸ List.mem_map.mpr ⟨_, hmem, rfl⟩)
        cases hap : o.apply F t with
        | none => rfl
        | some t₁ =>
            have hsame : t₁.find k = t.find k :=
              Outcome.find_apply_of_ne (hkeyed o List.mem_cons_self) hap hne
            exact ih hn.2 (fun o' ho' => hkeyed o' (List.mem_cons_of_mem _ ho')) hmem
              (hsame ▸ hthere)

/-! ## §5. The diff. -/

/-- The stored side is a part of the table. -/
def Within (have_ : OrderedDict κ ν) (t : Table key) : Prop :=
  ∀ k o, have_.get? k = some o → t.find k = some o

/-- What a key holds after a diff that did not fail. -/
def resolved (F : Folding key skey) (have_ : OrderedDict κ ν) (want : OrderedDict κ ω) (t : Table key)
    (k : κ) : Option ν :=
  match want.get? k, have_.get? k with
  | some w, none => some (F.fresh w)
  | some w, some o => if F.same o w then some o else some (F.revise o w)
  | none, some _ => none
  | none, none => t.find k

@[simp] theorem verdict_target (F : Folding key skey) (have_ : OrderedDict κ ν) (p : κ × ω) :
    (verdict F have_ p).target = p.1 := by
  unfold verdict
  split
  · rfl
  · split <;> rfl

section Diff

variable {F : Folding key skey} {have_ : OrderedDict κ ν} {want : OrderedDict κ ω}

theorem diff_keys :
    (diff F have_ want).map Outcome.target =
      want.keys ++ (have_.items.filter fun p => decide (p.1 ∉ want.keys)).map Prod.fst := by
  rw [diff, List.map_append, List.map_map, List.map_map]
  congr 1
  refine List.map_congr_left fun p _ => ?_
  exact verdict_target F have_ p

theorem diff_nodup : ((diff F have_ want).map Outcome.target).Nodup := by
  rw [diff_keys, List.nodup_append]
  refine ⟨want.nodup, have_.nodup.sublist (List.filter_sublist.map _), ?_⟩
  intro a ha b hb hab
  obtain ⟨p, hp, rfl⟩ := List.mem_map.mp hb
  have := (List.mem_filter.mp hp).2
  simp only [decide_eq_true_eq] at this
  exact this (hab ▸ ha)

theorem diff_keyed (hw : ∀ k w, want.get? k = some w → skey w = k) :
    ∀ o ∈ diff F have_ want, o.Keyed skey := by
  intro o ho
  rcases List.mem_append.mp ho with ho | ho
  · obtain ⟨⟨k, w⟩, hp, rfl⟩ := List.mem_map.mp ho
    have hkey := hw k w (OrderedDict.get?_eq_some.mpr hp)
    unfold verdict
    split
    · exact hkey
    · split
      · trivial
      · exact hkey
  · obtain ⟨p, _, rfl⟩ := List.mem_map.mp ho
    trivial

/-- The keys the diff inserts. -/
theorem mem_diff_insert {k : κ} {w : ω} :
    Outcome.insert k w ∈ diff F have_ want ↔ want.get? k = some w ∧ have_.get? k = none := by
  constructor
  · intro h
    rcases List.mem_append.mp h with h | h
    · obtain ⟨⟨k', w'⟩, hp, he⟩ := List.mem_map.mp h
      unfold verdict at he
      split at he
      · next hnone =>
        obtain ⟨rfl, rfl⟩ := Outcome.insert.inj he
        exact ⟨OrderedDict.get?_eq_some.mpr hp, hnone⟩
      · split at he
        · exact absurd he (by simp)
        · exact absurd he (by simp)
    · obtain ⟨p, _, he⟩ := List.mem_map.mp h
      exact absurd he (by simp)
  · rintro ⟨hw, hnone⟩
    refine List.mem_append.mpr (Or.inl (List.mem_map.mpr ⟨(k, w), OrderedDict.get?_eq_some.mp hw, ?_⟩))
    simp [verdict, hnone]

/-- The keys the diff updates. -/
theorem mem_diff_update {k : κ} {o : ν} {w : ω} (h : Outcome.update k o w ∈ diff F have_ want) :
    want.get? k = some w ∧ have_.get? k = some o ∧ F.same o w = false := by
  cases List.mem_append.mp h with
  | inl h =>
    obtain ⟨⟨k', w'⟩, hp, he⟩ := List.mem_map.mp h
    unfold verdict at he
    split at he
    · cases he
    · next old hold =>
      split at he
      · cases he
      · next hdiff =>
        cases he
        exact ⟨OrderedDict.get?_eq_some.mpr hp, hold, Bool.not_eq_true _ ▸ hdiff⟩
  | inr h =>
    obtain ⟨p, -, he⟩ := List.mem_map.mp h
    cases he

/-- Every verdict fits when no key of the source is taken by a row the stored side does not show. -/
theorem diff_fits {t : Table key} (hin : Within have_ t)
    (hfree : ∀ k, want.get? k ≠ none → have_.get? k = none → t.find k = none) :
    ∀ o ∈ diff F have_ want, o.Fits t := by
  intro o ho
  rcases List.mem_append.mp ho with ho | ho
  · obtain ⟨⟨k, w⟩, hp, rfl⟩ := List.mem_map.mp ho
    have hgot : want.get? k = some w := OrderedDict.get?_eq_some.mpr hp
    unfold verdict
    split
    · next h => exact hfree k (by simp [hgot]) h
    · next old h =>
      split
      · exact hin k old h
      · exact hin k old h
  · obtain ⟨p, hp, rfl⟩ := List.mem_map.mp ho
    exact hin p.1 p.2 (OrderedDict.get?_eq_some.mpr (List.mem_filter.mp hp).1)

/-- **When the diff can be applied**: no key the stored side did not show is taken. -/
theorem applyAll_diff_eq_none {t : Table key} (hin : Within have_ t)
    (hw : ∀ k w, want.get? k = some w → skey w = k) :
    applyAll F t (diff F have_ want) = none ↔
      ∃ k, want.get? k ≠ none ∧ have_.get? k = none ∧ t.find k ≠ none := by
  constructor
  · intro hnone
    by_contra hno
    push Not at hno
    have hfits : ∀ o ∈ diff F have_ want, o.Fits t := diff_fits hin fun k hk hh => hno k hk hh
    obtain ⟨t', ht', -, -⟩ := find_applyAll (F := F) diff_nodup (diff_keyed hw) hfits
    rw [ht'] at hnone
    exact absurd hnone (by simp)
  · rintro ⟨k, hk, hh, ht⟩
    obtain ⟨w, hw'⟩ := Option.ne_none_iff_exists'.mp hk
    exact applyAll_eq_none diff_nodup (diff_keyed hw) (mem_diff_insert.mpr ⟨hw', hh⟩) ht

/-- **What every key holds afterwards.** -/
theorem find_applyAll_diff {t t' : Table key} (hin : Within have_ t)
    (hw : ∀ k w, want.get? k = some w → skey w = k)
    (h : applyAll F t (diff F have_ want) = some t') (k : κ) :
    t'.find k = resolved F have_ want t k := by
  -- the diff was applied, so no wanted key outside the range is taken
  have hfree : ∀ k, want.get? k ≠ none → have_.get? k = none → t.find k = none := by
    intro k hk hh
    by_contra ht
    have := (applyAll_diff_eq_none (F := F) hin hw).mpr ⟨k, hk, hh, ht⟩
    rw [this] at h
    exact absurd h (by simp)
  obtain ⟨t₁, h₁, hres, hrest⟩ := find_applyAll (F := F) diff_nodup (diff_keyed hw)
    (diff_fits hin hfree)
  obtain rfl : t₁ = t' := Option.some.inj (h₁.symm.trans h)
  unfold resolved
  cases hwk : want.get? k with
  | some w =>
      -- a wanted key has its own verdict
      have hmem : verdict F have_ (k, w) ∈ diff F have_ want :=
        List.mem_append.mpr
          (Or.inl (List.mem_map.mpr ⟨(k, w), OrderedDict.get?_eq_some.mp hwk, rfl⟩))
      have := hres _ hmem
      rw [verdict_target] at this
      rw [this]
      unfold verdict
      cases hhk : have_.get? k with
      | none => simp [Outcome.result]
      | some o => by_cases hs : F.same o w = true <;> simp [hs, Outcome.result]
  | none =>
      cases hhk : have_.get? k with
      | some o =>
          -- a key that is not wanted any more is reversed
          have hmem : Outcome.reverse k o ∈ diff F have_ want := by
            refine List.mem_append.mpr (Or.inr (List.mem_map.mpr ⟨(k, o), ?_, rfl⟩))
            refine List.mem_filter.mpr ⟨OrderedDict.get?_eq_some.mp hhk, ?_⟩
            simpa using OrderedDict.get?_eq_none.mp hwk
          exact hres _ hmem
      | none =>
          refine hrest k ?_
          rw [diff_keys, List.mem_append, not_or]
          refine ⟨OrderedDict.get?_eq_none.mp hwk, fun hmem => ?_⟩
          obtain ⟨p, hp, hpk⟩ := List.mem_map.mp hmem
          exact OrderedDict.get?_eq_none.mp hhk
            (hpk ▸ List.mem_map.mpr ⟨p, (List.mem_filter.mp hp).1, rfl⟩)

end Diff

/-! ## §6. Rows of a kind. -/

/-- The row a verdict takes away. -/
def Outcome.removed : Outcome κ ν ω → Option ν
  | .update _ o _ | .reverse _ o => some o
  | .insert _ _ | .unchanged _ _ => none

/-- The row it puts there. -/
def Outcome.written (F : Folding key skey) : Outcome κ ν ω → Option ν
  | .insert _ w => some (F.fresh w)
  | .update _ o w => some (F.revise o w)
  | .unchanged _ _ | .reverse _ _ => none

/-- **One verdict that fits**: the rows of a kind that neither side is of stay as they are, and in order. -/
theorem Outcome.filter_apply {F : Folding key skey} {t t' : Table key} {o : Outcome κ ν ω} {p : ν → Bool}
    (hk : o.Keyed skey) (hf : o.Fits t) (h : o.apply F t = some t')
    (hold : ∀ v, o.removed = some v → p v = false) (hnew : ∀ v, o.written F = some v → p v = false) :
    t'.rows.filter p = t.rows.filter p := by
  cases o with
  | insert k w =>
    have hw : p (F.fresh w) = false := hnew _ rfl
    have hins : t.insert? (F.fresh w) = some t' := h
    unfold Table.insert? at hins
    split at hins
    · cases hins
    · cases hins
      show (t.rows ++ [F.fresh w]).filter p = t.rows.filter p
      simp [hw]
  | update k old w =>
    have hw : p (F.revise old w) = false := hnew _ rfl
    have ho : p old = false := hold _ rfl
    obtain rfl := Option.some.inj h
    have hkey : key (F.revise old w) = k := (F.key_revise old w).trans hk
    -- the one row that is replaced is the old one
    have hrow : ∀ r ∈ t.rows, key r = k → r = old := by
      intro r hr he
      have hfind : t.find k = some old := hf
      have := Table.find_of_mem hr
      rw [he, hfind] at this
      exact (Option.some.inj this).symm
    show (t.rows.map fun r => if key r = key (F.revise old w) then F.revise old w else r).filter p = _
    rw [hkey]
    have hlist : ∀ rs : List ν, (∀ r ∈ rs, key r = k → r = old) →
        (rs.map fun r => if key r = k then F.revise old w else r).filter p = rs.filter p := by
      intro rs
      induction rs with
      | nil => exact fun _ => rfl
      | cons r rs ih =>
        intro hrs
        rw [List.map_cons, List.filter_cons, List.filter_cons, ih fun x hx => hrs x (List.mem_cons_of_mem _ hx)]
        by_cases he : key r = k
        · rw [if_pos he, hw, hrs r List.mem_cons_self he, ho]
          rfl
        · rw [if_neg he]
    exact hlist t.rows hrow
  | unchanged k old =>
    obtain rfl := Option.some.inj h
    rfl
  | reverse k old =>
    have ho : p old = false := hold _ rfl
    obtain rfl := Option.some.inj h
    show (t.rows.filter fun r => decide (key r ≠ k)).filter p = t.rows.filter p
    rw [List.filter_filter]
    refine List.filter_congr fun r hr => ?_
    by_cases he : key r = k
    · have hfind : t.find k = some old := hf
      have hr' := Table.find_of_mem hr
      rw [he, hfind] at hr'
      rw [← Option.some.inj hr', ho]
      rfl
    · simp [he]

/-- **All verdicts that fit.** -/
theorem filter_applyAll {F : Folding key skey} {p : ν → Bool} {os : List (Outcome κ ν ω)} :
    ∀ {t t' : Table key}, (os.map Outcome.target).Nodup → (∀ o ∈ os, o.Keyed skey) → (∀ o ∈ os, o.Fits t) →
      (∀ o ∈ os, ∀ v, o.removed = some v → p v = false) → (∀ o ∈ os, ∀ v, o.written F = some v → p v = false) →
      applyAll F t os = some t' → t'.rows.filter p = t.rows.filter p := by
  induction os with
  | nil =>
    intro t t' _ _ _ _ _ h
    cases h
    rfl
  | cons o os ih =>
    intro t t' hn hkeyed hfits hold hnew h
    have hf := hfits o List.mem_cons_self
    obtain ⟨t₁, h₁, hrest⟩ := Option.bind_eq_some_iff.mp h
    have hlater := ih (List.nodup_cons.mp hn).2 (fun o' ho' => hkeyed o' (List.mem_cons_of_mem _ ho'))
      (fits_of_cons hn hkeyed hfits h₁) (fun o' ho' => hold o' (List.mem_cons_of_mem _ ho'))
      (fun o' ho' => hnew o' (List.mem_cons_of_mem _ ho')) hrest
    rw [hlater]
    exact Outcome.filter_apply (hkeyed o List.mem_cons_self) hf h₁ (hold o List.mem_cons_self)
      (hnew o List.mem_cons_self)

/-! ## §7. Counting. -/

theorem Table.length_insert? {t t' : Table key} {v : ν} (h : t.insert? v = some t') :
    t'.rows.length = t.rows.length + 1 := by
  unfold Table.insert? at h
  split at h
  · cases h
  · cases h
    exact List.length_append

theorem Table.length_delete {t : Table key} {k : κ} {o : ν} (h : t.find k = some o) :
    (t.delete k).rows.length + 1 = t.rows.length := by
  obtain ⟨hmem, hkey⟩ := Table.find_eq_some.mp h
  have hone : (t.rows.filter fun r => decide (key r = k)).length = 1 := by
    have hcount : (t.rows.map key).count k = 1 :=
      List.count_eq_one_of_mem t.unique (hkey ▸ List.mem_map_of_mem hmem)
    rw [List.count, List.countP_map, List.countP_eq_length_filter] at hcount
    exact hcount
  have hsplit := List.length_eq_length_filter_add (fun r => decide (key r = k)) (l := t.rows)
  have hrest : (t.rows.filter fun r => !decide (key r = k)) = (t.delete k).rows := by
    refine List.filter_congr fun r _ => ?_
    exact (decide_not ..).symm
  rw [hone, hrest] at hsplit
  omega

/-- How many rows a verdict adds. -/
def Outcome.inserts : Outcome κ ν ω → ℕ
  | .insert _ _ => 1
  | .update _ _ _ | .unchanged _ _ | .reverse _ _ => 0

/-- How many it takes away. -/
def Outcome.reverses : Outcome κ ν ω → ℕ
  | .reverse _ _ => 1
  | .insert _ _ | .update _ _ _ | .unchanged _ _ => 0

/-- **One verdict that fits** adds and takes away what it says. -/
theorem Outcome.length_apply {F : Folding key skey} {t t' : Table key} {o : Outcome κ ν ω} (hf : o.Fits t)
    (h : o.apply F t = some t') : t'.rows.length + o.reverses = t.rows.length + o.inserts := by
  cases o with
  | insert k w => exact Table.length_insert? h
  | update k old w =>
    cases h
    exact List.length_map ..
  | unchanged k old =>
    cases h
    rfl
  | reverse k old =>
    cases h
    exact Table.length_delete hf

/-- **All verdicts that fit.** -/
theorem length_applyAll {F : Folding key skey} {os : List (Outcome κ ν ω)} :
    ∀ {t t' : Table key}, (os.map Outcome.target).Nodup → (∀ o ∈ os, o.Keyed skey) → (∀ o ∈ os, o.Fits t) →
      applyAll F t os = some t' →
        t'.rows.length + (os.map Outcome.reverses).sum = t.rows.length + (os.map Outcome.inserts).sum := by
  induction os with
  | nil =>
    intro t t' _ _ _ h
    cases h
    rfl
  | cons o os ih =>
    intro t t' hn hkeyed hfits h
    rw [List.map_cons, List.nodup_cons] at hn
    have hf := hfits o List.mem_cons_self
    obtain ⟨t₁, h₁, hfind₁⟩ := Outcome.find_apply (F := F) (hkeyed o List.mem_cons_self) hf
    have hfits₁ : ∀ o' ∈ os, o'.Fits t₁ := by
      intro o' ho'
      refine (hfits o' (List.mem_cons_of_mem _ ho')).of_find_eq ?_
      rw [hfind₁, if_neg]
      exact fun he => hn.1 (he ▸ List.mem_map_of_mem ho')
    have hrest : applyAll F t₁ os = some t' := by
      have hbind : (o.apply F t).bind (fun t₁ => applyAll F t₁ os) = some t' := h
      rwa [h₁] at hbind
    have hfirst := Outcome.length_apply hf h₁
    have hlater := ih hn.2 (fun o' ho' => hkeyed o' (List.mem_cons_of_mem _ ho')) hfits₁ hrest
    rw [List.map_cons, List.map_cons, List.sum_cons, List.sum_cons]
    omega

end RagPipeline.Lib
