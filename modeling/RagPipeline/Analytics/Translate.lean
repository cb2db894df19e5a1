/-
  RagPipeline.Analytics.Translate — an answer re-keyed from stored keys to looked-up values.

    * `plan`, `translate`    — the grouping that the rollups can answer, and the way back;
    * `mergeAll_exact`       — where no addition rounds, merging is a product of exact buckets;
    * `latest_spec`          — the latest reading of many buckets is the newest of them;
    * `translate_preserves`  — so the translated groups have what the stored ones have.
-/
import RagPipeline.Analytics.ExactFold
import RagPipeline.Analytics.Lookups
import RagPipeline.Analytics.Reads
import RagPipeline.Lib.Regroup

namespace RagPipeline.Analytics

open RagPipeline.Stage2 RagPipeline.Lib

/-! ## §1. The plan and the translation. -/

/-- `LOOKUP_PREFIX`. -/
def lookupMark : List Char := "lookup:".toList

/-- `is_lookup_path`. -/
def isLookupPath (name : String) : Bool := lookupMark.isPrefixOf name.toList

/-- `split_path`: on the first dot. -/
def splitPath (name : String) : Option (String × String) :=
  if isLookupPath name then
    let body := name.toList.drop lookupMark.length
    let lookup := body.takeWhile fun c => decide (c ≠ '.')
    let looked := (body.dropWhile fun c => decide (c ≠ '.')).drop 1
    if lookup = [] ∨ looked = [] then none else some (String.ofList lookup, String.ofList looked)
  else none

/-- `Plan`. -/
structure TranslationPlan where
  requested : List String
  storedGroupBy : List String
  steps : List (Option (String × String))

/-- One position of `plan`: what is stored, and the step back. -/
def planStep (lookups : String → Option Lookups.Lookup) (keyField : String → String) (name : String) :
    Option (String × Option (String × String)) :=
  if isLookupPath name then do
    let path ← splitPath name
    let lookup ← lookups path.1
    let _ ← lookup.attribute path.2
    some (keyField path.1, some path)
  else some (name, none)

/-- `plan`, `keyField` being the key field of each lookup. -/
def plan (lookups : String → Option Lookups.Lookup) (keyField : String → String) (groupBy : List String) :
    Option TranslationPlan :=
  (groupBy.mapM (planStep lookups keyField)).map fun steps => ⟨groupBy, steps.map Prod.fst, steps.map Prod.snd⟩

/-- `Plan.translates`. -/
def TranslationPlan.translates (p : TranslationPlan) : Bool := p.steps.any Option.isSome

/-- `_as_datetime`: a date is its midnight in UTC. -/
def Bucket.asDatetime : Bucket → Instant
  | .hour start => start
  | .day date => date * (86400 * second)

/-- `Resolver.value`. -/
def resolverValue (resolver : Lookups.LookupStore) (lookup : String) (key : Option String) (looked : String)
    (bucket : Bucket) : Option String :=
  key.bind fun key => Lookups.resolve resolver (lookup, key, looked) (some bucket.asDatetime)

/-- A bucket and the values of the grouping. -/
abbrev GroupKey := Bucket × List (Option String)

/-- The key under which `translate` puts a point: a key that is not known has the label `None`. -/
def translateKey (p : TranslationPlan) (resolver : Lookups.LookupStore) (key : GroupKey) : GroupKey :=
  (key.1, p.steps.zipIdx.map fun x =>
    let value := (key.2[x.2]?).join
    match x.1 with
    | none => value
    | some (lookup, looked) => resolverValue resolver lookup value looked key.1)

/-- `translate`, with `add_roles` as the merge. -/
def translate (points : OrderedDict GroupKey Roles) (p : TranslationPlan) (resolver : Lookups.LookupStore) :
    Option (OrderedDict GroupKey Roles) :=
  if p.translates then
    points.items.foldlM (fun out x =>
      let key := translateKey p resolver x.1
      (addRoles ((out.get? key).getD {}) x.2).map (out.set key)) .empty
  else some points

/-! ## §2. Exact buckets. -/

instance : Mul (RolesOf ℚ) := ⟨mergeRoles⟩

instance : One (RolesOf ℚ) := ⟨{}⟩

/-- Exact buckets under `add_roles`. -/
instance : Monoid (RolesOf ℚ) where
  mul_assoc := (inferInstance : Std.Associative mergeRoles).assoc
  one_mul a := (mergeRoles_nothing a).2
  mul_one a := (mergeRoles_nothing a).1

/-- The reading as the code has it. -/
def ReadingOf.wrap (r : ReadingOf ℚ) : Reading := ⟨r.at_, r.value.map .finite⟩

/-- The bucket as the code has it. -/
def RolesOf.wrap (e : RolesOf ℚ) : Roles where
  sumValue := e.sumValue.map .finite
  countValue := e.countValue
  sumSq := e.sumSq.map .finite
  minValue := e.minValue.map (·.map .finite)
  maxValue := e.maxValue.map (·.map .finite)
  histogram := e.histogram
  distinctSketch := e.distinctSketch
  latest := e.latest.map (·.map ReadingOf.wrap)

/-- A role of a product is the merge of the role. -/
theorem prod_role {α : Type} {role : RolesOf ℚ → Option α} {f : α → α → α} (hone : role 1 = none)
    (hmul : ∀ a b, role (a * b) = (role a).merge f (role b)) (es : List (RolesOf ℚ)) :
    role es.prod = (es.map role).foldr (Option.merge f) none := by
  induction es with
  | nil => exact hone
  | cons e es ih =>
    rw [List.prod_cons, hmul, ih]
    rfl

/-- It does not depend on the order, if the merge does not. -/
theorem prod_role_perm {α : Type} (role : RolesOf ℚ → Option α) {f : α → α → α} [Std.Commutative f] [Std.Associative f]
    (hone : role 1 = none) (hmul : ∀ a b, role (a * b) = (role a).merge f (role b)) {es es' : List (RolesOf ℚ)}
    (h : es.Perm es') : role es.prod = role es'.prod := by
  rw [prod_role hone hmul, prod_role hone hmul]
  exact (h.map role).foldr_eq none

/-- The total of the values that are there. -/
def optionSum : List ℚ → Option ℚ
  | [] => none
  | v :: vs => some (v :: vs).sum

theorem merge_optionSum (v : Option ℚ) (vs : List ℚ) :
    v.merge (· + ·) (optionSum vs) = optionSum (v.toList ++ vs) := by
  cases v with
  | none => exact Option.merge_none_left
  | some v =>
    cases vs with
    | nil => simp [optionSum]
    | cons u vs => simp [optionSum]

/-- A sum of a product is the sum of the sums. -/
theorem prod_sum {role : RolesOf ℚ → Option ℚ} (hone : role 1 = none)
    (hmul : ∀ a b, role (a * b) = (role a).merge (· + ·) (role b)) (es : List (RolesOf ℚ)) :
    role es.prod = optionSum (es.filterMap role) := by
  induction es with
  | nil => exact hone
  | cons e es ih =>
    rw [List.prod_cons, hmul, ih, merge_optionSum, List.filterMap_cons]
    cases role e <;> rfl

theorem sumValue_mul (a b : RolesOf ℚ) : (a * b).sumValue = a.sumValue.merge (· + ·) b.sumValue := rfl

theorem sumSq_mul (a b : RolesOf ℚ) : (a * b).sumSq = a.sumSq.merge (· + ·) b.sumSq := rfl

/-! ## §3. Buckets that add exactly. -/

/-- The sums leave room for each other, in any order. -/
structure HasRoomFor (es : List (RolesOf ℚ)) : Prop where
  sum : Fits decimalContext (es.filterMap RolesOf.sumValue)
  sumSq : Fits decimalContext (es.filterMap RolesOf.sumSq)

theorem fits_sublist {f : Format} {vs vs' : List ℚ} (hsub : vs'.Sublist vs) (h : Fits f vs) : Fits f vs' := by
  obtain ⟨rest, hperm⟩ := hsub.exists_perm_append
  exact (h.perm hperm).left

theorem HasRoomFor.sublist {es es' : List (RolesOf ℚ)} (h : HasRoomFor es) (hsub : es'.Sublist es) :
    HasRoomFor es' where
  sum := fits_sublist (hsub.filterMap _) h.sum
  sumSq := fits_sublist (hsub.filterMap _) h.sumSq

theorem HasRoomFor.perm {es es' : List (RolesOf ℚ)} (h : HasRoomFor es) (hp : es.Perm es') : HasRoomFor es' where
  sum := h.sum.perm (hp.filterMap _)
  sumSq := h.sumSq.perm (hp.filterMap _)

/-- Sums of blocks have room where what is in them has. -/
theorem fits_blocks {f : Format} {vss : List (List ℚ)} (h : Fits f vss.flatten) : Fits f (vss.filterMap optionSum) := by
  obtain ⟨k, htiny, htop, hgrid, hlt⟩ := h
  refine ⟨k, htiny, htop, ?_, lt_of_le_of_lt ?_ hlt⟩
  · intro v hv
    obtain ⟨vs, hvs, hsum⟩ := List.mem_filterMap.mp hv
    cases vs with
    | nil => cases hsum
    | cons u us =>
      rw [← Option.some.inj hsum]
      exact onGrid_sum fun x hx => hgrid x (List.mem_flatten.mpr ⟨u :: us, hvs, hx⟩)
  · clear hgrid hlt
    induction vss with
    | nil => rfl
    | cons vs vss ih =>
      rw [List.flatten_cons, List.map_append, List.sum_append, List.filterMap_cons]
      cases vs with
      | nil => simpa [optionSum] using ih
      | cons u us =>
        show |(u :: us).sum| + _ ≤ _
        exact add_le_add (abs_sum_le (u :: us)) ih

theorem HasRoomFor.blocks {ess : List (List (RolesOf ℚ))} (h : HasRoomFor ess.flatten) :
    HasRoomFor (ess.map List.prod) := by
  have hblocks : ∀ {role : RolesOf ℚ → Option ℚ}, role 1 = none →
      (∀ a b, role (a * b) = (role a).merge (· + ·) (role b)) → Fits decimalContext (ess.flatten.filterMap role) →
      Fits decimalContext ((ess.map List.prod).filterMap role) := by
    intro role hone hmul hfits
    have hsums : (ess.map List.prod).filterMap role = (ess.map (List.filterMap role)).filterMap optionSum := by
      rw [List.filterMap_map, List.filterMap_map]
      exact congrArg (fun g => ess.filterMap g) (funext fun es => prod_sum hone hmul es)
    rw [hsums]
    refine fits_blocks ?_
    rwa [List.filterMap_flatten] at hfits
  exact ⟨hblocks rfl sumValue_mul h.sum, hblocks rfl sumSq_mul h.sumSq⟩

/-- A sum that has room is added exactly. -/
theorem addSums_wrap {es : List (RolesOf ℚ)} {e : RolesOf ℚ} {role : RolesOf ℚ → Option ℚ} (hone : role 1 = none)
    (hmul : ∀ a b, role (a * b) = (role a).merge (· + ·) (role b))
    (hfits : Fits decimalContext ((es ++ [e]).filterMap role)) :
    addSums ((role es.prod).map .finite) ((role e).map .finite) = some ((role (es.prod * e)).map .finite) := by
  rw [hmul, prod_sum hone hmul]
  rw [List.filterMap_append] at hfits
  have hadd := hfits.add_sum
  -- an empty role counts as zero on the one side and is absent on the other, so the two are compared case by case
  cases he : role e with
  | none =>
    rw [show [e].filterMap role = [] by simp [he], List.append_nil] at hadd
    cases hes : es.filterMap role with
    | nil => rfl
    | cons u us =>
      rw [hes] at hadd
      show (Number.add decimalContext (.finite (u :: us).sum) Number.zero).map some = _
      rw [show Number.zero = .finite ([] : List ℚ).sum from rfl, hadd]
      rfl
  | some v =>
    rw [show [e].filterMap role = [v] by simp [he]] at hadd
    cases hes : es.filterMap role with
    | nil =>
      rw [hes] at hadd
      show (Number.add decimalContext (.finite ([] : List ℚ).sum) (.finite v)).map some = _
      rw [show Number.finite v = .finite [v].sum by simp, hadd]
      simp [optionSum]
    | cons u us =>
      rw [hes] at hadd
      show (Number.add decimalContext (.finite (u :: us).sum) (.finite v)).map some = _
      rw [show Number.finite v = .finite [v].sum by simp, hadd]
      simp [optionSum, add_assoc]

/-- Both extremes, by the operation that keeps them: decimals are compared as the numbers they are. -/
theorem addExtremes_wrap {takes : Number → Number → Option Bool} {exact : ℚ → ℚ → Option Bool} {op : ℚ → ℚ → ℚ}
    (htakes : ∀ v c, takes (.finite v) (.finite c) = exact v c)
    (hop : ∀ v c, (exact v c).map (fun t => if t then some v else some c) = some (some (op c v)))
    (x y : Option (Option ℚ)) : addExtremes takes (x.map (·.map .finite)) (y.map (·.map .finite)) =
      some ((x.merge (Option.merge op) y).map (·.map .finite)) := by
  rcases x with _ | _ | x <;> rcases y with _ | _ | y <;> try rfl
  -- both have one
  show (takes (.finite y) (.finite x)).map (fun t => some (if t then some (Number.finite y) else some (.finite x))) = _
  have hboth := congrArg (Option.map fun z : Option ℚ => some (z.map Number.finite)) (hop y x)
  rw [Option.map_map] at hboth
  rw [htakes]
  refine Eq.trans (congrArg (fun g => Option.map g (exact y x)) (funext fun t => ?_)) hboth
  cases t <;> rfl

theorem addLatest_wrap (x y : Option (Option (ReadingOf ℚ))) :
    addLatest (x.map (·.map ReadingOf.wrap)) (y.map (·.map ReadingOf.wrap)) =
      (addLatestOf x y).map (·.map ReadingOf.wrap) := by
  rcases x with _ | _ | x <;> rcases y with _ | _ | y <;> try rfl
  show some (if x.at_ < y.at_ then some y.wrap else some x.wrap) =
    some ((if x.at_ < y.at_ then some y else some x).map ReadingOf.wrap)
  split <;> rfl

/-- **A bucket that has room is added exactly.** -/
theorem addRoles_wrap {es : List (RolesOf ℚ)} {e : RolesOf ℚ} (h : HasRoomFor (es ++ [e])) :
    addRoles es.prod.wrap e.wrap = some (es.prod * e).wrap := by
  have hmin := @addExtremes_wrap takesMin _ _ (fun _ _ => rfl) takes_min es.prod.minValue e.minValue
  have hmax := @addExtremes_wrap takesMax _ _ (fun _ _ => rfl) takes_max es.prod.maxValue e.maxValue
  -- what has no decimals is added as with exact numbers
  have hexact := addRoles_rationals es.prod e
  unfold Arithmetic.addRoles at hexact
  simp only [Option.bind_eq_bind, Option.bind_eq_some_iff, Option.pure_def, Option.some.injEq] at hexact
  obtain ⟨_, _, _, _, _, _, _, _, heq⟩ := hexact
  have hcount := congrArg RolesOf.countValue heq
  have hbands := congrArg RolesOf.histogram heq
  have hsketch := congrArg RolesOf.distinctSketch heq
  have hreading := congrArg RolesOf.latest heq
  simp only at hcount hbands hsketch hreading
  unfold addRoles
  simp only [RolesOf.wrap, addSums_wrap rfl sumValue_mul h.sum, addSums_wrap rfl sumSq_mul h.sumSq, hmin, hmax, hcount,
    hbands, hsketch, addLatest_wrap, hreading, Option.bind_eq_bind, Option.bind_some, Option.pure_def]
  rfl

/-- **Where there is room**, merging is the product of the exact buckets. -/
theorem mergeAll_exact {es : List (RolesOf ℚ)} (h : HasRoomFor es) :
    mergeAll (es.map RolesOf.wrap) = some es.prod.wrap := by
  unfold mergeAll
  induction es using List.reverseRecOn with
  | nil => rfl
  | append_singleton es e ih =>
    have hfirst := ih (h.sublist (List.sublist_append_left es [e]))
    rw [List.map_append, List.foldlM_append, hfirst]
    show (addRoles es.prod.wrap e.wrap).bind some = _
    rw [addRoles_wrap h, List.prod_append, List.prod_singleton]
    rfl

/-! ## §4. The latest reading. -/

/-- The readings of the buckets. -/
def readingsOf (es : List (RolesOf ℚ)) : List (ReadingOf ℚ) := es.filterMap fun e => e.latest.join

/-- None of the readings is later. -/
def IsNewest (rs : List (ReadingOf ℚ)) (r : ReadingOf ℚ) : Prop := r ∈ rs ∧ ∀ x ∈ rs, x.at_ ≤ r.at_

/-- The newest readings are one. -/
def NewestAgree (es : List (RolesOf ℚ)) : Prop :=
  ∀ r r', IsNewest (readingsOf es) r → IsNewest (readingsOf es) r' → r = r'

theorem join_merge {α : Type} (f : α → α → α) (x y : Option (Option α)) :
    (x.merge (Option.merge f) y).join = x.join.merge f y.join := by
  rcases x with _ | _ | x <;> rcases y with _ | _ | y <;> rfl

theorem IsNewest.cons {rs : List (ReadingOf ℚ)} {r p : ReadingOf ℚ} (h : IsNewest rs p) :
    IsNewest (r :: rs) (laterReading r p) := by
  unfold laterReading
  split
  · next hlt => exact ⟨List.mem_cons_of_mem _ h.1, List.forall_mem_cons.mpr ⟨hlt.le, h.2⟩⟩
  · next hge =>
    have hle := not_lt.mp hge
    exact ⟨List.mem_cons_self, List.forall_mem_cons.mpr ⟨le_rfl, fun x hx => (h.2 x hx).trans hle⟩⟩

/-- **The latest reading** of many buckets is the newest of them. -/
theorem latest_spec (es : List (RolesOf ℚ)) :
    (es.prod.latest.isSome ↔ ∃ e ∈ es, e.latest.isSome) ∧
      ((es.prod.latest.join = none ∧ readingsOf es = []) ∨
        ∃ r, es.prod.latest.join = some r ∧ IsNewest (readingsOf es) r) := by
  induction es with
  | nil => exact ⟨⟨nofun, fun ⟨e, he, _⟩ => absurd he List.not_mem_nil⟩, Or.inl ⟨rfl, rfl⟩⟩
  | cons e es ih =>
    obtain ⟨hsome, hnewest⟩ := ih
    have hmul : (e :: es).prod.latest = e.latest.merge (Option.merge laterReading) es.prod.latest := by
      rw [List.prod_cons]
      rfl
    have hreadings : readingsOf (e :: es) = e.latest.join.toList ++ readingsOf es := by
      unfold readingsOf
      rw [List.filterMap_cons]
      cases e.latest.join <;> rfl
    constructor
    · -- a slot is there when either side has one
      have hmerge : (e :: es).prod.latest.isSome ↔ e.latest.isSome ∨ es.prod.latest.isSome := by
        rw [hmul]
        cases e.latest <;> cases es.prod.latest <;> simp
      rw [hmerge, hsome]
      simp
    · rw [hreadings, hmul, join_merge]
      cases he : e.latest.join with
      | none =>
        rw [Option.merge_none_left]
        exact hnewest
      | some r =>
        right
        cases hnewest with
        | inl hnone =>
          rw [hnone.1, hnone.2, Option.merge_none_right]
          exact ⟨r, rfl, List.mem_cons_self, fun x hx => (List.mem_singleton.mp hx ▸ le_rfl)⟩
        | inr hsomeOne =>
          obtain ⟨p, hp, hnew⟩ := hsomeOne
          rw [hp]
          exact ⟨laterReading r p, rfl, hnew.cons⟩

/-- The newest of the same readings. -/
theorem latest_perm {es es' : List (RolesOf ℚ)} (h : es.Perm es') (hagree : NewestAgree es) :
    es.prod.latest = es'.prod.latest := by
  obtain ⟨hsome, hnewest⟩ := latest_spec es
  obtain ⟨hsome', hnewest'⟩ := latest_spec es'
  have hreadings : (readingsOf es).Perm (readingsOf es') := h.filterMap _
  have hboth : es.prod.latest.isSome ↔ es'.prod.latest.isSome := by
    rw [hsome, hsome']
    exact exists_congr fun e => by rw [h.mem_iff]
  have hjoin : es.prod.latest.join = es'.prod.latest.join := by
    rcases hnewest with ⟨hnone, hempty⟩ | ⟨r, hr, hnew⟩ <;> rcases hnewest' with ⟨hnone', hempty'⟩ | ⟨r', hr', hnew'⟩
    · rw [hnone, hnone']
    · rw [hempty] at hreadings
      rw [List.nil_perm.mp hreadings] at hnew'
      exact absurd hnew'.1 List.not_mem_nil
    · rw [hempty'] at hreadings
      rw [List.perm_nil.mp hreadings] at hnew
      exact absurd hnew.1 List.not_mem_nil
    · have hback : IsNewest (readingsOf es) r' :=
        ⟨hreadings.mem_iff.mpr hnew'.1, fun x hx => hnew'.2 x (hreadings.mem_iff.mp hx)⟩
      rw [hr, hr', hagree r r' hnew hback]
  rcases hx : es.prod.latest with _ | x <;> rcases hy : es'.prod.latest with _ | y
  · rfl
  · rw [hx, hy] at hboth
    cases hboth.mpr rfl
  · rw [hx, hy] at hboth
    cases hboth.mp rfl
  · rw [hx, hy] at hjoin
    exact congrArg some hjoin

instance : Std.Commutative plusBands where
  comm xs ys := by
    refine counts_ext (by simp only [length_plusBands]; omega) fun i => ?_
    rw [getD_plusBands, getD_plusBands, Nat.add_comm]

instance : Std.Commutative Sketch.union where
  comm a b := by
    rw [Sketch.union_eq, Sketch.union_eq]
    exact funext fun i => Nat.max_comm _ _

/-- **The order of the buckets does not matter**, where the newest readings agree. -/
theorem prod_perm {es es' : List (RolesOf ℚ)} (h : es.Perm es') (hagree : NewestAgree es) : es.prod = es'.prod := by
  ext1
  · exact prod_role_perm RolesOf.sumValue rfl (fun _ _ => rfl) h
  · exact prod_role_perm RolesOf.countValue rfl (fun _ _ => rfl) h
  · exact prod_role_perm RolesOf.sumSq rfl (fun _ _ => rfl) h
  · exact prod_role_perm RolesOf.minValue rfl (fun _ _ => rfl) h
  · exact prod_role_perm RolesOf.maxValue rfl (fun _ _ => rfl) h
  · exact prod_role_perm RolesOf.histogram rfl (fun _ _ => rfl) h
  · exact prod_role_perm RolesOf.distinctSketch rfl (fun _ _ => rfl) h
  · exact latest_perm h hagree

/-! ## §5. Translation. -/

/-- The bucket as the code has it, under its key. -/
def wrapItem {κ : Type} (x : κ × RolesOf ℚ) : κ × Roles := (x.1, x.2.wrap)

theorem labelled_sublist {κ ν : Type} [DecidableEq κ] (items : List (κ × ν)) (k : κ) :
    (labelled items k).Sublist (items.map Prod.snd) := List.filter_sublist.map _

theorem labelled_wrapItem {κ : Type} [DecidableEq κ] (items : List (κ × RolesOf ℚ)) (k : κ) :
    labelled (items.map wrapItem) k = (labelled items k).map RolesOf.wrap := by
  unfold labelled
  rw [List.filter_map, List.map_map, List.map_map]
  rfl

/-- The loop of `translate`, over items with their new keys. -/
theorem translate_loop (items : List (GroupKey × RolesOf ℚ)) (h : HasRoomFor (items.map Prod.snd)) :
    (items.map wrapItem).foldlM (fun out x => (addRoles ((out.get? x.1).getD {}) x.2).map (out.set x.1))
      OrderedDict.empty = some ((regroup items).mapKV Function.injective_id RolesOf.wrap) := by
  induction items using List.reverseRecOn with
  | nil => rfl
  | append_singleton items x ih =>
    rw [List.map_append] at h
    have hfirst := ih (h.sublist (List.sublist_append_left _ _))
    have hget : ((((regroup items).mapKV Function.injective_id RolesOf.wrap).get? x.1).getD {}) =
        (labelled items x.1).prod.wrap := by
      have hmap : ((regroup items).mapKV Function.injective_id RolesOf.wrap).get? x.1 =
          ((regroup items).get? x.1).map RolesOf.wrap :=
        (regroup items).get?_mapKV Function.injective_id RolesOf.wrap x.1
      rw [← getD_get?_regroup, hmap]
      cases (regroup items).get? x.1 <;> rfl
    have hroom : HasRoomFor (labelled items x.1 ++ [x.2]) :=
      h.sublist ((labelled_sublist items x.1).append (List.Sublist.refl _))
    have hset := (regroup items).set_mapKV Function.injective_id RolesOf.wrap x.1 ((labelled items x.1).prod * x.2)
    rw [List.map_append, List.foldlM_append, hfirst]
    show ((addRoles ((((regroup items).mapKV Function.injective_id RolesOf.wrap).get? x.1).getD {}) x.2.wrap).map
      (((regroup items).mapKV Function.injective_id RolesOf.wrap).set x.1)).bind some = _
    rw [hget, addRoles_wrap hroom, regroup_append, getD_get?_regroup]
    exact congrArg some hset

/-- The buckets have finite numbers that add without rounding, in any order, and the newest of their readings agree. -/
structure AddsExactly (rs : List Roles) (es : List (RolesOf ℚ)) : Prop where
  finite : rs = es.map RolesOf.wrap
  room : HasRoomFor es
  newest : NewestAgree es

/-- The points with their new keys. -/
def relabelled {ν : Type} (p : TranslationPlan) (resolver : Lookups.LookupStore) (items : List (GroupKey × ν)) :
    List (GroupKey × ν) := items.map fun x => (translateKey p resolver x.1, x.2)

/-- A label that is not known is `None`. -/
theorem translateKey_unknown (p : TranslationPlan) (resolver : Lookups.LookupStore) (key : GroupKey) {i : ℕ}
    {step : String × String} (hstep : p.steps[i]? = some (some step))
    (hnone : resolverValue resolver step.1 (key.2[i]?).join step.2 key.1 = none) :
    (translateKey p resolver key).2[i]? = some none := by
  unfold translateKey
  rw [List.getElem?_map, List.getElem?_zipIdx, hstep, Nat.zero_add]
  exact congrArg some hnone

/-- Points that are wrapped buckets. -/
theorem exists_wrapped {κ : Type} {items : List (κ × Roles)} {es : List (RolesOf ℚ)}
    (h : items.map Prod.snd = es.map RolesOf.wrap) :
    ∃ exact : List (κ × RolesOf ℚ), items = exact.map wrapItem ∧ exact.map Prod.snd = es := by
  induction items generalizing es with
  | nil => exact ⟨[], rfl, (List.map_eq_nil_iff.mp h.symm).symm⟩
  | cons x items ih =>
    cases es with
    | nil => cases h
    | cons e es =>
      obtain ⟨hx, hrest⟩ := List.cons.inj h
      obtain ⟨exact, hexact, hes⟩ := ih hrest
      refine ⟨(x.1, e) :: exact, ?_, ?_⟩
      · rw [hexact, List.map_cons]
        exact congrArg (· :: exact.map wrapItem) (Prod.ext rfl hx)
      · rw [List.map_cons, hes]

/-- **Translation preserves totals**: nothing is lost and nothing counted twice, a group has what its points have, and
the points that are not known are under the label `None`. -/
theorem translate_preserves (points : OrderedDict GroupKey Roles) (p : TranslationPlan) (resolver : Lookups.LookupStore)
    (h : ∃ es, AddsExactly points.values es) :
    ∃ out total, translate points p resolver = some out ∧
      mergeAll points.values = some total ∧ mergeAll out.values = some total ∧
      (p.translates = true → ∀ k,
        (k ∈ out.keys ↔ ∃ key ∈ points.keys, translateKey p resolver key = k) ∧
        ∀ roles, out.get? k = some roles → mergeAll (labelled (relabelled p resolver points.items) k) = some roles) ∧
      ∀ key ∈ points.keys, ∀ (i : ℕ) (step : String × String), p.steps[i]? = some (some step) →
        resolverValue resolver step.1 (key.2[i]?).join step.2 key.1 = none →
        translateKey p resolver key ∈ out.keys ∧ (translateKey p resolver key).2[i]? = some none := by
  obtain ⟨es, hfinite, hroom, hnewest⟩ := h
  obtain ⟨exact, hitems, rfl⟩ := exists_wrapped (show points.items.map Prod.snd = _ from hfinite)
  have htotal : mergeAll points.values = some (exact.map Prod.snd).prod.wrap := by
    rw [hfinite, mergeAll_exact hroom]
  -- a position that is translated makes the plan one that translates
  have htranslates : ∀ {i step}, p.steps[i]? = some (some step) → p.translates = true := fun hstep =>
    List.any_eq_true.mpr ⟨_, List.mem_of_getElem? hstep, rfl⟩
  by_cases hp : p.translates = true
  · have hsnd : (relabelled p resolver exact).map Prod.snd = exact.map Prod.snd := by
      unfold relabelled
      rw [List.map_map]
      rfl
    have hrelabelled : relabelled p resolver points.items = (relabelled p resolver exact).map wrapItem := by
      unfold relabelled
      rw [hitems, List.map_map, List.map_map]
      rfl
    have hout : translate points p resolver =
        some ((regroup (relabelled p resolver exact)).mapKV Function.injective_id RolesOf.wrap) := by
      have hloop := translate_loop (relabelled p resolver exact) (hsnd ▸ hroom)
      unfold translate
      rw [if_pos hp, ← hloop, ← hrelabelled]
      unfold relabelled
      rw [List.foldlM_map]
    have hkeys : ∀ k, k ∈ ((regroup (relabelled p resolver exact)).mapKV Function.injective_id RolesOf.wrap).keys ↔
        ∃ key ∈ points.keys, translateKey p resolver key = k := by
      intro k
      have hmap : k ∈ ((regroup (relabelled p resolver exact)).mapKV Function.injective_id RolesOf.wrap).keys ↔
          k ∈ (regroup (relabelled p resolver exact)).keys :=
        OrderedDict.mem_keys_mapKV Function.injective_id RolesOf.wrap
      rw [hmap, mem_keys_regroup]
      unfold OrderedDict.keys relabelled
      rw [hitems, List.map_map, List.map_map]
      simp [wrapItem]
    refine ⟨_, _, hout, htotal, ?_, fun _ k => ⟨hkeys k, ?_⟩, fun key hkey i step hstep hnone => ?_⟩
    · -- the groups put together are the points in another order
      have hperm := perm_groups (relabelled p resolver exact) (regroup (relabelled p resolver exact)).nodup
        (mem_keys_regroup (relabelled p resolver exact))
      rw [hsnd] at hperm
      have hblocks : HasRoomFor (regroup (relabelled p resolver exact)).values := by
        have hflat := (hroom.perm hperm.symm).blocks
        rw [List.map_map] at hflat
        rw [values_regroup]
        exact hflat
      have hvalues : ((regroup (relabelled p resolver exact)).mapKV Function.injective_id RolesOf.wrap).values =
          (regroup (relabelled p resolver exact)).values.map RolesOf.wrap := by
        unfold OrderedDict.values
        rw [OrderedDict.items_mapKV, List.map_map, List.map_map]
        rfl
      rw [hvalues, mergeAll_exact hblocks, prod_values_regroup]
      exact congrArg (fun e : RolesOf ℚ => some e.wrap) (prod_perm hperm.symm hnewest).symm
    · intro roles hroles
      have hmap : ((regroup (relabelled p resolver exact)).mapKV Function.injective_id RolesOf.wrap).get? k =
          ((regroup (relabelled p resolver exact)).get? k).map RolesOf.wrap :=
        (regroup (relabelled p resolver exact)).get?_mapKV Function.injective_id RolesOf.wrap k
      rw [hmap] at hroles
      obtain ⟨e, he, rfl⟩ := Option.map_eq_some_iff.mp hroles
      have hget := getD_get?_regroup (relabelled p resolver exact) k
      rw [he, Option.getD_some] at hget
      rw [hrelabelled, labelled_wrapItem, mergeAll_exact, hget]
      exact (hsnd ▸ hroom).sublist (labelled_sublist (relabelled p resolver exact) k)
    · exact ⟨(hkeys _).mpr ⟨key, hkey, rfl⟩, translateKey_unknown p resolver key hstep hnone⟩
  · refine ⟨points, _, ?_, htotal, htotal, fun h => absurd h hp, fun key hkey i step hstep _ => ?_⟩
    · unfold translate
      rw [if_neg hp]
    · exact absurd (htranslates hstep) hp

/-- One group in one bucket. -/
def pointOf (label : String) (roles : Roles) : GroupKey × Roles := ((.day 0, [some label]), roles)

/-- The deliveries A and C are of one customer, and B is of another. -/
def deliveryCustomers : Lookups.LookupStore
  | ("delivery", "A", "customer") => [{ value := "North", validFrom := 0, firstSeenAt := 0, lastSeenAt := 0 }]
  | ("delivery", "B", "customer") => [{ value := "South", validFrom := 0, firstSeenAt := 0, lastSeenAt := 0 }]
  | ("delivery", "C", "customer") => [{ value := "North", validFrom := 0, firstSeenAt := 0, lastSeenAt := 0 }]
  | _ => []

/-- By customer of the delivery. -/
def byCustomer : TranslationPlan := ⟨["lookup:delivery.customer"], ["delivery"], [some ("delivery", "customer")]⟩

/-- Rows of a sum, as wide as the column is. -/
def wideSums : OrderedDict GroupKey Roles :=
  ⟨[pointOf "A" { sumValue := some (.finite (10 ^ 23)) }, pointOf "B" { sumValue := some (.finite (-10 ^ 23)) },
    pointOf "C" { sumValue := some (.finite (1 / 10 ^ 6)) }], by decide⟩

/-- Rows of a count and a sum, one of them with a key that is not known. -/
def countedRows : OrderedDict GroupKey Roles :=
  ⟨[pointOf "A" { sumValue := some (.finite 7), countValue := some 2 },
    pointOf "D" { sumValue := some (.finite (-4)), countValue := some 1 },
    pointOf "C" { sumValue := some (.finite 5), countValue := some 3 }], by decide⟩

theorem translate_preserves_counted : ∃ out total, translate countedRows byCustomer deliveryCustomers = some out ∧
    mergeAll countedRows.values = some total ∧ mergeAll out.values = some total := by
  have hsums : Fits decimalContext [7, -4, 5] := by
    refine ⟨0, by decide, by decide, ?_, by norm_num [decimalContext]⟩
    intro v hv
    fin_cases hv
    · exact ⟨7, by norm_num⟩
    · exact ⟨-4, by norm_num⟩
    · exact ⟨5, by norm_num⟩
  have hsquares : Fits decimalContext [] :=
    ⟨0, by decide, by decide, fun v hv => absurd hv List.not_mem_nil, by norm_num [decimalContext]⟩
  have hexact : AddsExactly countedRows.values
      [{ sumValue := some 7, countValue := some 2 }, { sumValue := some (-4), countValue := some 1 },
        { sumValue := some 5, countValue := some 3 }] :=
    ⟨rfl, ⟨hsums, hsquares⟩, fun r r' h => absurd h.1 List.not_mem_nil⟩
  obtain ⟨out, total, hout, hbefore, hafter, -⟩ :=
    translate_preserves countedRows byCustomer deliveryCustomers ⟨_, hexact⟩
  exact ⟨out, total, hout, hbefore, hafter⟩

/-- A customer's two sums of 29 digits together are rounded, and what is left differs from the total of the rows. -/
theorem wideSums_rounded : ¬∀ (points : OrderedDict GroupKey Roles) (p : TranslationPlan)
    (resolver : Lookups.LookupStore) (out : OrderedDict GroupKey Roles), translate points p resolver = some out →
    mergeAll out.values = mergeAll points.values := by
  intro h
  have hsums := congrArg (fun total => total.bind Roles.sumValue)
    (h wideSums byCustomer deliveryCustomers _ (Option.some_get (by decide +kernel)).symm)
  revert hsums
  decide +kernel

end RagPipeline.Analytics
