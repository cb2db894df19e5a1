/-
  RagPipeline.Analytics.SettleOrder — settled rows in any order of the calls.

    * `SteadyCalls`       — what calls of one instant must agree on, rule by rule;
    * `settleKey_perm`    — one key;
    * `settle_order_free` — every key, and every order of the context calls;
    * `tied_first`        — two calls of one instant whose order is seen.
-/
import RagPipeline.Analytics.Settle
import RagPipeline.Analytics.RowOrder

namespace RagPipeline.Analytics.Settle

open RagPipeline.Stage2 RagPipeline.Lib

/-! ## §1. Sorted calls. -/

section Ordered

variable {β : Type} {g : FactRow → Option β} {rows rows' : List FactRow}

instance : Std.Total fun a b : FactRow => place a ≤ place b := ⟨fun a b => le_total (place a) (place b)⟩

instance : IsTrans FactRow fun a b => place a ≤ place b := ⟨fun _ _ _ hab hbc => le_trans hab hbc⟩

theorem ordered_perm (rows : List FactRow) : (ordered rows).Perm rows := List.perm_insertionSort _ rows

theorem ordered_sorted (rows : List FactRow) : (ordered rows).Pairwise fun a b => place a ≤ place b :=
  List.pairwise_insertionSort _ rows

theorem ordered_congr (h : rows.Perm rows') : (ordered rows).Perm (ordered rows') :=
  ((ordered_perm rows).trans h).trans (ordered_perm rows').symm

/-- What calls of the latest instant read. -/
abbrev LastAgree (g : FactRow → Option β) (rows : List FactRow) : Prop :=
  FirstAgree (fun r => OrderDual.toDual (place r)) g rows

theorem first_perm (h : rows.Perm rows') (hagree : FirstAgree place g rows) :
    ((ordered rows).filterMap g).head? = ((ordered rows').filterMap g).head? :=
  head?_perm (ordered_congr h) (ordered_sorted rows) (ordered_sorted rows')
    (hagree.perm (ordered_perm rows).symm)

theorem last_perm (h : rows.Perm rows') (hagree : LastAgree g rows) :
    ((ordered rows).filterMap g).getLast? = ((ordered rows').filterMap g).getLast? :=
  getLast?_perm (ordered_congr h) (ordered_sorted rows) (ordered_sorted rows')
    (hagree.perm (ordered_perm rows).symm)

/-- Calls at one place have one instant. -/
theorem eventTime_of_place {a b : FactRow} (h : place a = place b) : a.eventTime = b.eventTime := by
  unfold place at h
  cases ha : a.eventTime <;> cases hb : b.eventTime <;> rw [ha, hb] at h
  · cases h
  · cases h
  · exact congrArg some (WithTop.coe_injective h)

theorem firstAgree_eventTime (rows : List FactRow) : FirstAgree place FactRow.eventTime rows := by
  intro a b ha hb
  exact eventTime_of_place (le_antisymm (ha.2.2 b hb.1 hb.2.1) (hb.2.2 a ha.1 ha.2.1))

theorem lastAgree_eventTime (rows : List FactRow) : LastAgree FactRow.eventTime rows := by
  intro a b ha hb
  have hab : OrderDual.toDual (place a) = OrderDual.toDual (place b) :=
    le_antisymm (ha.2.2 b hb.1 hb.2.1) (hb.2.2 a ha.1 ha.2.1)
  exact eventTime_of_place (OrderDual.toDual.injective hab)

end Ordered

/-! ## §2. What must agree. -/

variable (w : Spelling)

/-- What a rule that reads a field reads of a call. -/
def reading (s : Settled) (f : FieldName) (conv : Cell → Option Value) (row : FactRow) : Option (Option Value) :=
  if qualifies s row then (read row f).map conv else none

/-- The number that a call brings to a sum. -/
def brings (s : Settled) (f : FieldName) (row : FactRow) : Option Number :=
  if qualifies s row then ((read row f).bind (numericOrTime w)).bind asNumber else none

/-- The texts of the field of a `nearby_*` rule. -/
def nearbyText (s : Settled) (row : FactRow) : Option String := s.field.bind fun f => (read row f).map (cellText w)

/-- The context calls that a first call finds in a span. -/
def nearRows (s : Settled) (context : List FactRow) (lo hi : Instant) (first : FactRow) : List FactRow :=
  ((wanted s first).map (nearbyRows w s context lo hi)).getD []

/-- The span of a `nearby_*` rule. -/
def spanOf (s : Settled) (calls : List FactRow) : Option (Instant × Instant) :=
  ((ordered calls).filterMap FactRow.eventTime).head?.bind fun t =>
    ((ordered calls).filterMap FactRow.eventTime).getLast?.bind fun hi =>
      (windowStart t s.windowS).map fun lo => (lo, hi)

/-- The key of a lookup is neither a value before it nor carried. -/
def FromCalls (carry : List FieldName) (before : List String) (calls : List FactRow) (name : String) : Prop :=
  name ∉ before ∧ ∀ c ∈ carry, carryName c = name ∨ carryName c = carryName (fieldOf name) →
    ∀ r ∈ calls, read r c = none

/-- What the calls of one instant must agree on for one value. -/
def SteadyValue (st : Settlement) (around : Around) (calls : List FactRow) (before : List String) (s : Settled) :
    Prop :=
  match s.rule with
  | .first => ∀ f ∈ s.field, FirstAgree place (reading s f (numericOrTime w)) calls
  | .last => ∀ f ∈ s.field, LastAgree (reading s f (numericOrTime w)) calls
  | .firstText => ∀ f ∈ s.field, FirstAgree place (reading s f (textOrNone w)) calls
  | .sum => ∀ f ∈ s.field, ∀ t,
      (∀ a ∈ calls, ∀ b ∈ calls, place a = t → place b = t → ∀ x ∈ brings w s f a, ∀ y ∈ brings w s f b, x = y) ∨
        ∃ qs : List ℚ, (calls.filter fun r => place r ≤ t).filterMap (brings w s f) = qs.map Number.finite ∧
          Fits decimalContext qs
  | .lookup => ∀ name ∈ s.left, FromCalls st.carry before calls name →
      FirstAgree place (fun r => (read r (fieldOf name)).map fun cell =>
        lookedUp around.resolve s (some (cellText w cell))) calls
  | .nearbyCount | .nearbyDistinct | .nearbyLast | .nearbyHas =>
      around.context ≠ [] → s.windowS ≠ 0 → ∀ lo hi, spanOf s calls = some (lo, hi) →
        FirstAgree place (fun r => r.eventTime.map fun _ => nearRows w s around.context lo hi r) calls ∧
        (s.rule = .nearbyLast → ∀ r, Earliest place FactRow.eventTime calls r →
          LastAgree (nearbyText w s) (nearRows w s around.context lo hi r))
  | _ => True

/-- Value after value. -/
def SteadyValues (st : Settlement) (around : Around) (calls : List FactRow) : List String → List Settled → Prop
  | _, [] => True
  | before, s :: rest => SteadyValue w st around calls before s ∧ SteadyValues st around calls (s.name :: before) rest

/-- **What the calls of one key must agree on.** -/
def SteadyCalls (st : Settlement) (around : Around) (calls : List FactRow) : Prop :=
  (∀ f ∈ st.carry, FirstAgree place (fun r => read r f) calls) ∧ SteadyValues w st around calls [] st.values

/-! ## §3. A rule that reads a field. -/

section Fields

variable {s : Settled} {f : FieldName} {rows rows' : List FactRow}

theorem reading_head? (conv : Cell → Option Value) (calls : List FactRow) :
    (((calls.filter (qualifies s)).filterMap fun r => read r f).head?.bind conv) =
      (calls.filterMap (reading s f conv)).head?.join := by
  have hmap : calls.filterMap (reading s f conv) =
      ((calls.filter (qualifies s)).filterMap fun r => read r f).map conv := by
    rw [List.filterMap_filter, List.map_filterMap]
    refine congrArg (fun g => calls.filterMap g) (funext fun r => ?_)
    unfold reading
    split <;> rfl
  rw [hmap, List.head?_map]
  cases ((calls.filter (qualifies s)).filterMap fun r => read r f).head? <;> rfl

theorem reading_getLast? (conv : Cell → Option Value) (calls : List FactRow) :
    (((calls.filter (qualifies s)).filterMap fun r => read r f).getLast?.bind conv) =
      (calls.filterMap (reading s f conv)).getLast?.join := by
  have hrev := reading_head? (s := s) (f := f) conv calls.reverse
  rw [List.filter_reverse, List.filterMap_reverse, List.filterMap_reverse, List.head?_reverse,
    List.head?_reverse] at hrev
  exact hrev

/-- The cells of the qualifying calls, in any order. -/
theorem cells_perm (h : rows.Perm rows') :
    (((ordered rows).filter (qualifies s)).filterMap fun r => read r f).Perm
      (((ordered rows').filter (qualifies s)).filterMap fun r => read r f) :=
  ((ordered_congr h).filter _).filterMap _

end Fields

/-! ## §4. The least and the greatest. -/

/-- The places of numbers and of times, two kinds. -/
def Value.rank : Value → Option (Bool × WithBot (WithTop ℚ))
  | .number x => x.rank.map (Prod.mk false)
  | .time t => some (true, ((((t : ℤ) : ℚ) : WithTop ℚ) : WithBot (WithTop ℚ)))
  | _ => none

/-- The places, from above. -/
def Value.downRank (v : Value) : Option (Bool × (WithBot (WithTop ℚ))ᵒᵈ) :=
  v.rank.map fun a => (a.1, OrderDual.toDual a.2)

theorem oneEach_valueRank : OneEach Value.rank := by
  intro u v a hu hv
  cases u with
  | number x =>
    obtain ⟨p, hp, rfl⟩ := Option.map_eq_some_iff.mp hu
    cases v with
    | number y =>
      obtain ⟨q, hq, he⟩ := Option.map_eq_some_iff.mp hv
      obtain rfl : q = p := (Prod.mk.inj he).2
      exact congrArg Value.number (Number.rank_inj x y q hp hq)
    | time u => cases (Prod.mk.inj (Option.some.inj hv)).1
    | count n => cases hv
    | text s => cases hv
  | time t =>
    obtain rfl := Option.some.inj hu
    cases v with
    | number y =>
      obtain ⟨q, hq, he⟩ := Option.map_eq_some_iff.mp hv
      cases (Prod.mk.inj he).1
    | time u =>
      have hcoe := WithTop.coe_injective (WithBot.coe_injective (Prod.mk.inj (Option.some.inj hv)).2)
      exact congrArg Value.time (Int.cast_injective hcoe).symm
    | count n => cases hv
    | text s => cases hv
  | count n => cases hu
  | text s => cases hu

theorem oneEach_valueDownRank : OneEach Value.downRank := by
  intro u v a hu hv
  obtain ⟨p, hp, rfl⟩ := Option.map_eq_some_iff.mp hu
  obtain ⟨q, hq, he⟩ := Option.map_eq_some_iff.mp hv
  have hkind : q.1 = p.1 := (Prod.mk.inj he).1
  have hplace : q.2 = p.2 := OrderDual.toDual.injective (Prod.mk.inj he).2
  obtain rfl : q = p := Prod.ext hkind hplace
  exact oneEach_valueRank u v q hp hq

/-- Two times, by their places. -/
theorem timeRank_lt {t u : Instant} :
    (((((t : ℤ) : ℚ) : WithTop ℚ) : WithBot (WithTop ℚ)) < ((((u : ℤ) : ℚ) : WithTop ℚ) : WithBot (WithTop ℚ))) ↔
      t < u := by
  rw [WithBot.coe_lt_coe, WithTop.coe_lt_coe, Int.cast_lt]

theorem valueLt_eq : valueLt = below Value.rank := by
  funext v c
  cases v with
  | number x =>
    cases c with
    | number y =>
      show Number.lt x y = _
      rw [Number.lt_eq_rank]
      simp only [below, Value.rank]
      cases x.rank with
      | none => rfl
      | some a => cases y.rank <;> rfl
    | time u => simp only [valueLt, below, Value.rank]; cases x.rank <;> rfl
    | count n => simp only [valueLt, below, Value.rank]; cases x.rank <;> rfl
    | text s => simp only [valueLt, below, Value.rank]; cases x.rank <;> rfl
  | time t =>
    cases c with
    | number y => simp only [valueLt, below, Value.rank]; cases y.rank <;> rfl
    | time u => exact congrArg some (decide_eq_decide.mpr timeRank_lt.symm)
    | count n => rfl
    | text s => rfl
  | count n => rfl
  | text s => rfl

theorem valueGt_eq : (fun v c => valueLt c v) = below Value.downRank := by
  funext v c
  show valueLt c v = _
  rw [valueLt_eq]
  unfold below Value.downRank
  cases Value.rank c with
  | none => cases Value.rank v <;> rfl
  | some a =>
    cases Value.rank v with
    | none => rfl
    | some b =>
      show (if a.1 = b.1 then some (decide (a.2 < b.2)) else none) =
        if b.1 = a.1 then some (decide (OrderDual.toDual b.2 < OrderDual.toDual a.2)) else none
      by_cases hk : a.1 = b.1
      · rw [if_pos hk, if_pos hk.symm]
        rfl
      · rw [if_neg hk, if_neg (Ne.symm hk)]

/-- After the first value an extreme is kept as `pick` keeps it. -/
theorem keepExtreme_some {L : Type} [LinearOrder L] {rank : Value → Option (Bool × L)} (c v : Value) :
    keepExtreme (below rank) (some c) v = (pick rank c v).map some := by
  show (below rank v c).map (fun t => if t then some v else some c) =
    ((below rank v c).map fun t => if t then v else c).map some
  cases below rank v c with
  | none => rfl
  | some t => cases t <;> rfl

theorem foldlM_keepExtreme {L : Type} [LinearOrder L] {rank : Value → Option (Bool × L)} (vs : List Value)
    (c : Value) : vs.foldlM (keepExtreme (below rank)) (some c) = (vs.foldlM (pick rank) c).map some := by
  induction vs generalizing c with
  | nil => rfl
  | cons v vs ih =>
    rw [List.foldlM_cons, List.foldlM_cons, keepExtreme_some]
    show ((pick rank c v).map some).bind (fun cur => vs.foldlM (keepExtreme (below rank)) cur) = _
    cases pick rank c v with
    | none => rfl
    | some x => exact ih x

/-- **Keeping an extreme commutes**, with the values that come first too. -/
theorem keepExtreme_perm {L : Type} [LinearOrder L] {rank : Value → Option (Bool × L)} (hone : OneEach rank)
    {takes : Value → Value → Option Bool} (htakes : takes = below rank) {vs vs' : List Value} (h : vs.Perm vs') :
    vs.foldlM (keepExtreme takes) none = vs'.foldlM (keepExtreme takes) none := by
  subst htakes
  have hbind : ∀ (x : Option Value) v, (x.map some).bind (fun cur => keepExtreme (below rank) cur v) =
      (x.bind fun c => pick rank c v).map some := by
    intro x v
    cases x with
    | none => rfl
    | some c => exact keepExtreme_some c v
  refine foldlM_perm (P := fun _ => True) (fun cur u v _ _ => ?_) h (fun _ _ => trivial) none
  cases cur with
  | none =>
    show keepExtreme (below rank) (some u) v = keepExtreme (below rank) (some v) u
    rw [keepExtreme_some, keepExtreme_some, pick_symm hone]
  | some c => rw [keepExtreme_some, keepExtreme_some, hbind, hbind, pick_comm hone]

/-- Numbers that have room, in any order. -/
theorem sum_perm {xs xs' : List Number} (h : xs.Perm xs') {qs : List ℚ} (hq : xs = qs.map Number.finite)
    (hfits : Fits decimalContext qs) :
    xs.foldlM (Number.add decimalContext) Number.zero = xs'.foldlM (Number.add decimalContext) Number.zero := by
  have hsum : ∀ qs : List ℚ, Fits decimalContext qs →
      (qs.map Number.finite).foldlM (Number.add decimalContext) Number.zero = some (.finite qs.sum) := by
    intro qs hqs
    have hadd := foldlM_add (g := id) (f := fun s q => Number.add decimalContext s (.finite q))
      (fun s q (_ : q ∈ qs) => rfl) [] (by simpa using hqs)
    rw [List.map_id, List.nil_append] at hadd
    rw [List.foldlM_map]
    exact hadd
  subst hq
  obtain ⟨qs', hqs', rfl⟩ := perm_map_exists h.symm
  rw [hsum qs hfits, hsum qs' (hfits.perm hqs'.symm), hqs'.sum_eq]

/-- The sum of the calls, one after the other. -/
theorem sum_eq {s : Settled} {f : FieldName} (calls : List FactRow) (cur : Number) :
    ((((calls.filter (qualifies s)).filterMap fun r => read r f).filterMap (numericOrTime w)).filterMap
        asNumber).foldlM (Number.add decimalContext) cur =
      calls.foldlM (fun total r => ((brings w s f r).map (Number.add decimalContext total)).getD (some total)) cur := by
  have hbrings : (((calls.filter (qualifies s)).filterMap fun r => read r f).filterMap (numericOrTime w)).filterMap
      asNumber = calls.filterMap (brings w s f) := by
    rw [List.filterMap_filterMap, List.filterMap_filterMap, List.filterMap_filter]
    refine congrArg (fun g => calls.filterMap g) (funext fun r => ?_)
    unfold brings
    split
    · rw [Option.bind_assoc]
    · rfl
  rw [hbrings, List.foldlM_filterMap]
  refine congrArg (fun step => calls.foldlM step cur) (funext fun total => funext fun r => ?_)
  cases brings w s f r <;> rfl

/-- **A sum**, in any order of the calls of one instant. -/
theorem sum_sorted {s : Settled} {f : FieldName} {rows rows' : List FactRow} (h : rows.Perm rows')
    (hsteady : ∀ t, (∀ a ∈ rows, ∀ b ∈ rows, place a = t → place b = t →
        ∀ x ∈ brings w s f a, ∀ y ∈ brings w s f b, x = y) ∨
      ∃ qs : List ℚ, (rows.filter fun r => place r ≤ t).filterMap (brings w s f) = qs.map Number.finite ∧
        Fits decimalContext qs) :
    (ordered rows).foldlM (fun total r => ((brings w s f r).map (Number.add decimalContext total)).getD (some total))
        Number.zero =
      (ordered rows').foldlM (fun total r =>
        ((brings w s f r).map (Number.add decimalContext total)).getD (some total)) Number.zero := by
  have hstep : ∀ (calls : List FactRow) (cur : Number), calls.foldlM (fun total r =>
      ((brings w s f r).map (Number.add decimalContext total)).getD (some total)) cur =
        (calls.filterMap (brings w s f)).foldlM (Number.add decimalContext) cur := by
    intro calls cur
    rw [List.foldlM_filterMap]
    refine congrArg (fun step => calls.foldlM step cur) (funext fun total => funext fun r => ?_)
    cases brings w s f r <;> rfl
  refine foldlM_sorted_perm place _ le_rfl (ordered_congr h) (ordered_sorted rows) (ordered_sorted rows')
    fun t => ?_
  cases hsteady t with
  -- the calls of one instant bring one number, however often
  | inl hequal =>
    refine .inl fun tied htied cur => ?_
    rw [hstep, hstep]
    have hsame : ∀ x ∈ ((ordered rows).filter fun r => decide (place r = t)).filterMap (brings w s f),
        ∀ y ∈ ((ordered rows).filter fun r => decide (place r = t)).filterMap (brings w s f), x = y := by
      intro x hx y hy
      obtain ⟨a, ha, hxa⟩ := List.mem_filterMap.mp hx
      obtain ⟨b, hb, hyb⟩ := List.mem_filterMap.mp hy
      obtain ⟨ha, hat⟩ := List.mem_filter.mp ha
      obtain ⟨hb, hbt⟩ := List.mem_filter.mp hb
      exact hequal a ((ordered_perm rows).mem_iff.mp ha) b ((ordered_perm rows).mem_iff.mp hb)
        (of_decide_eq_true hat) (of_decide_eq_true hbt) x hxa y hyb
    have hperm := htied.filterMap (brings w s f)
    cases hxs : ((ordered rows).filter fun r => decide (place r = t)).filterMap (brings w s f) with
    | nil =>
      rw [hxs] at hperm
      rw [hperm.symm.eq_nil]
    | cons x xs =>
      rw [hxs] at hperm hsame
      have hall : ∀ y ∈ x :: xs, y = x := fun y hy => hsame y hy x List.mem_cons_self
      rw [List.eq_replicate_of_mem hall, List.eq_replicate_of_mem fun y hy => hall y (hperm.mem_iff.mpr hy),
        hperm.length_eq]
  -- the numbers up to this instant have room
  | inr hroom =>
    obtain ⟨qs, hqs, hfits⟩ := hroom
    refine .inr fun upTo upTo' hup hup' => ?_
    rw [hstep, hstep]
    have hbase : ((rows.filter fun r => decide (place r ≤ t)).filterMap (brings w s f)).Perm
        (upTo.filterMap (brings w s f)) :=
      ((((ordered_perm rows).symm.filter _).trans hup).filterMap _)
    have hbase' : ((rows.filter fun r => decide (place r ≤ t)).filterMap (brings w s f)).Perm
        (upTo'.filterMap (brings w s f)) :=
      ((((ordered_perm rows).symm.filter _).trans hup').filterMap _)
    exact (sum_perm hbase hqs hfits).symm.trans (sum_perm hbase' hqs hfits)

/-- **A rule that reads a field**, in any order. -/
theorem settleCells_perm {st : Settlement} {around : Around} {before : List String} {s : Settled} {f : FieldName}
    {rows rows' : List FactRow} (h : rows.Perm rows') (hf : s.field = some f)
    (hsteady : SteadyValue w st around rows before s) :
    settleCells w s.rule (((ordered rows).filter (qualifies s)).filterMap fun r => read r f) =
      settleCells w s.rule (((ordered rows').filter (qualifies s)).filterMap fun r => read r f) := by
  have hcells := cells_perm (s := s) (f := f) h
  have hvalues := hcells.filterMap (numericOrTime w)
  unfold SteadyValue at hsteady
  cases hr : s.rule <;> rw [hr] at hsteady
  case first =>
    show some _ = some _
    rw [reading_head?, reading_head?, first_perm h (hsteady f hf)]
  case last =>
    show some _ = some _
    rw [reading_getLast?, reading_getLast?, last_perm h (hsteady f hf)]
  case firstText =>
    show some _ = some _
    rw [reading_head?, reading_head?, first_perm h (hsteady f hf)]
  case sum =>
    show Option.map _ _ = Option.map _ _
    rw [sum_eq, sum_eq, sum_sorted w h (hsteady f hf)]
  case distinctCount =>
    show some (some (Value.count _)) = some (some (Value.count _))
    rw [((hcells.map (cellText w)).dedup).length_eq]
  case min => exact keepExtreme_perm oneEach_valueRank valueLt_eq hvalues
  all_goals exact keepExtreme_perm oneEach_valueDownRank valueGt_eq hvalues

/-! ## §5. The calls around. -/

section Nearby

variable {s : Settled} {calls context context' : List FactRow} {values : Values}

/-- Calls with an instant, read by it. -/
theorem timed_filterMap {β : Type} (k : FactRow → Instant → β) (calls : List FactRow) :
    ((calls.filter fun r => r.eventTime.isSome).filterMap fun r => r.eventTime.map (k r)) =
      calls.filterMap fun r => r.eventTime.map (k r) := by
  rw [List.filterMap_filter]
  refine congrArg (fun g => calls.filterMap g) (funext fun r => ?_)
  cases r.eventTime <;> rfl

theorem nearbyRows_perm (h : context.Perm context') (lo hi : Instant) (first : FactRow) :
    (nearRows w s context lo hi first).Perm (nearRows w s context' lo hi first) := by
  unfold nearRows
  cases wanted s first with
  | none => exact List.Perm.refl _
  | some cells => exact h.filter _

/-- What is made of the rows of a span, in any order. -/
theorem nearbyValue_perm {near near' : List FactRow} (h : near.Perm near')
    (hlast : s.rule = .nearbyLast → LastAgree (nearbyText w s) near) :
    nearbyValue w s values near = nearbyValue w s values near' := by
  have hseen : ((ordered near).filterMap (nearbyText w s)).Perm ((ordered near').filterMap (nearbyText w s)) :=
    (ordered_congr h).filterMap _
  unfold nearbyValue
  cases hr : s.rule
  case nearbyCount =>
    show some (Value.count _) = some (Value.count _)
    rw [h.length_eq]
  case nearbyDistinct =>
    show some (Value.count _) = some (Value.count _)
    exact congrArg (fun n => some (Value.count n)) hseen.dedup.length_eq
  case nearbyLast =>
    show Option.map _ _ = Option.map _ _
    exact congrArg (Option.map Value.text) (last_perm h (hlast hr))
  all_goals
    refine congrArg (fun g => Option.map g _) (funext fun target => ?_)
    exact congrArg Value.count (if_congr hseen.mem_iff rfl rfl)

theorem timed_head? {β : Type} (k : FactRow → β) (calls : List FactRow) :
    (calls.filterMap fun r => r.eventTime.map fun _ => k r).head? =
      (calls.filter fun r => r.eventTime.isSome).head?.map k := by
  rw [← timed_filterMap (fun r _ => k r)]
  cases hl : calls.filter fun r => r.eventTime.isSome with
  | nil => rfl
  | cons first rest =>
    have hmem : first ∈ calls.filter fun r => r.eventTime.isSome := hl ▸ List.mem_cons_self
    obtain ⟨t, ht⟩ := Option.isSome_iff_exists.mp (List.mem_filter.mp hmem).2
    rw [List.filterMap_cons_some (by rw [ht]; rfl)]
    rfl

theorem getLast?_timed {l : List FactRow} (h : ∀ r ∈ l, r.eventTime.isSome) :
    l.getLast?.bind FactRow.eventTime = (l.filterMap FactRow.eventTime).getLast? := by
  cases hl : l.getLast? with
  | none =>
    rw [List.getLast?_eq_none_iff.mp hl]
    rfl
  | some r =>
    obtain ⟨ys, rfl⟩ := List.getLast?_eq_some_iff.mp hl
    obtain ⟨t, ht⟩ := Option.isSome_iff_exists.mp (h r (by simp))
    rw [List.filterMap_append, List.filterMap_cons_some ht, List.filterMap_nil, List.getLast?_concat]
    exact ht

/-- `nearby`, by what the calls with an instant read. -/
theorem nearby_eq (hc : context ≠ []) (hw : s.windowS ≠ 0) :
    nearby w s calls context values =
      match (calls.filterMap FactRow.eventTime).head?, (calls.filterMap FactRow.eventTime).getLast? with
      | some t, some hi => (windowStart t s.windowS).map fun lo => nearbyValue w s values
          ((calls.filterMap fun r => r.eventTime.map fun _ => nearRows w s context lo hi r).head?.getD [])
      | _, _ => some (nearbyValue w s values []) := by
  have htimed : ∀ r ∈ calls.filter fun r => r.eventTime.isSome, r.eventTime.isSome :=
    fun r hr => (List.mem_filter.mp hr).2
  have htimes := timed_filterMap (fun _ t => t) calls
  have hrows := fun lo hi => timed_filterMap (fun r _ => nearRows w s context lo hi r) calls
  simp only [Option.map_id'] at htimes
  unfold nearby
  rw [if_neg (by simp [hc, hw]), getLast?_timed htimed, htimes]
  -- calls without an instant are passed over; the first with one gives the rows, the last the end of the window
  cases hl : calls.filter fun r => r.eventTime.isSome with
  | nil =>
    rw [hl] at htimes
    rw [← htimes]
    rfl
  | cons first rest =>
    obtain ⟨t, ht⟩ := Option.isSome_iff_exists.mp (htimed first (by rw [hl]; exact List.mem_cons_self))
    rw [hl] at htimes hrows
    rw [List.filterMap_cons_some ht] at htimes
    rw [← htimes]
    simp only [List.head?_cons]
    cases (t :: rest.filterMap fun r => r.eventTime).getLast? with
    | none => rfl
    | some hi =>
      simp only [ht]
      refine congrArg (fun g => (windowStart t s.windowS).map g) (funext fun lo => ?_)
      rw [← hrows lo hi, List.filterMap_cons_some (by rw [ht]; rfl)]
      rfl

/-- **A `nearby_*` rule**, in any order of the calls and of the context. -/
theorem nearby_perm {rows rows' : List FactRow} {around : Around} (h : rows.Perm rows')
    (hc : around.context.Perm context')
    (hsteady : around.context ≠ [] → s.windowS ≠ 0 → ∀ lo hi, spanOf s rows = some (lo, hi) →
      FirstAgree place (fun r => r.eventTime.map fun _ => nearRows w s around.context lo hi r) rows ∧
      (s.rule = .nearbyLast → ∀ r, Earliest place FactRow.eventTime rows r →
        LastAgree (nearbyText w s) (nearRows w s around.context lo hi r))) :
    nearby w s (ordered rows) around.context values = nearby w s (ordered rows') context' values := by
  by_cases hempty : around.context = [] ∨ s.windowS = 0
  · have hempty' : context' = [] ∨ s.windowS = 0 := by
      rcases hempty with hnil | hzero
      · rw [hnil] at hc
        exact Or.inl hc.symm.eq_nil
      · exact Or.inr hzero
    unfold nearby
    rw [if_pos hempty, if_pos hempty']
  · push Not at hempty
    obtain ⟨hne, hpos⟩ := hempty
    have hne' : context' ≠ [] := fun hnil => hne (by rw [hnil] at hc; exact hc.eq_nil)
    rw [nearby_eq w hne hpos, nearby_eq w hne' hpos]
    have hfirst := first_perm h (firstAgree_eventTime rows)
    have hlast := last_perm h (lastAgree_eventTime rows)
    rw [← hfirst, ← hlast]
    cases ht : ((ordered rows).filterMap FactRow.eventTime).head? with
    | none => rfl
    | some t =>
      cases hhi : ((ordered rows).filterMap FactRow.eventTime).getLast? with
      | none => rfl
      | some hi =>
        show (windowStart t s.windowS).map _ = (windowStart t s.windowS).map _
        cases hlo : windowStart t s.windowS with
        | none => rfl
        | some lo =>
          refine congrArg some ?_
          have hspan : spanOf s rows = some (lo, hi) := by
            unfold spanOf
            rw [ht, hhi, Option.bind_some, Option.bind_some, hlo]
            rfl
          obtain ⟨hagree, hties⟩ := hsteady hne hpos lo hi hspan
          have hread := first_perm h hagree
          simp only [timed_head?] at hread ⊢
          cases ha : ((ordered rows).filter fun r => r.eventTime.isSome).head? with
          | none =>
            rw [ha] at hread
            rw [Option.map_eq_none_iff.mp hread.symm]
            rfl
          | some a =>
            rw [ha] at hread
            obtain ⟨b, hb, hab⟩ := Option.map_eq_some_iff.mp hread.symm
            rw [hb]
            have hnear : (nearRows w s around.context lo hi a).Perm (nearRows w s context' lo hi b) :=
              hab ▸ nearbyRows_perm w hc lo hi b
            refine nearbyValue_perm w hnear fun hr => ?_
            -- the rows that are found are those of a first call
            have hsome : ((ordered rows).filterMap fun r =>
                r.eventTime.map fun _ => nearRows w s around.context lo hi r).head? =
                  some (nearRows w s around.context lo hi a) := by
              rw [timed_head?, ha]
              rfl
            obtain ⟨x, hx, hxa⟩ := head?_sorted (ordered_sorted rows) hsome
            have hsame : nearRows w s around.context lo hi x = nearRows w s around.context lo hi a := by
              obtain ⟨t', _, he⟩ := Option.map_eq_some_iff.mp hxa
              exact he
            have hearliest : Earliest place FactRow.eventTime rows x := by
              refine ⟨(ordered_perm rows).mem_iff.mp hx.1, by simpa using hx.2.1, fun y hy hys => ?_⟩
              exact hx.2.2 y ((ordered_perm rows).mem_iff.mpr hy) (by simpa using hys)
            have hlasts := hties hr x hearliest
            rw [hsame] at hlasts
            exact hlasts

end Nearby

/-! ## §6. One key. -/

section OneKey

variable {st : Settlement} {around around' : Around} {rows rows' : List FactRow}

theorem carriedOf_perm (h : rows.Perm rows')
    (hagree : ∀ f ∈ st.carry, FirstAgree place (fun r => read r f) rows) :
    carriedOf st (ordered rows) = carriedOf st (ordered rows') := by
  unfold carriedOf
  generalize (OrderedDict.empty : Carried) = carried
  revert hagree
  generalize st.carry = carry
  intro hagree
  induction carry generalizing carried with
  | nil => rfl
  | cons f carry ih =>
    rw [List.foldl_cons, List.foldl_cons, first_perm h (hagree f List.mem_cons_self)]
    exact ih _ fun g hg => hagree g (List.mem_cons_of_mem _ hg)

/-- The step of `carriedOf`. -/
def carryStep (calls : List FactRow) (carried : Carried) (name : FieldName) : Carried :=
  match (calls.filterMap fun r => read r name).head? with
  | none => carried
  | some cell => carried.set (carryName name) cell

theorem carryStep_keeps {calls : List FactRow} {carried : Carried} {name : FieldName} {key : String}
    (h : carried.get? key ≠ none) : (carryStep calls carried name).get? key ≠ none := by
  unfold carryStep
  split
  · exact h
  · by_cases hk : key = carryName name
    · rw [hk, OrderedDict.get?_set_self]
      exact Option.some_ne_none _
    · rw [OrderedDict.get?_set_ne _ _ hk]
      exact h

theorem carrySteps_keep {calls : List FactRow} {key : String} (carry : List FieldName) {carried : Carried}
    (h : carried.get? key ≠ none) : (carry.foldl (carryStep calls) carried).get? key ≠ none := by
  induction carry generalizing carried with
  | nil => exact h
  | cons name carry ih => exact ih (carryStep_keeps h)

/-- A name that is not carried is the name of no field that a call has. -/
theorem carriedOf_get?_none {calls : List FactRow} {key : String} (h : (carriedOf st calls).get? key = none) :
    ∀ c ∈ st.carry, carryName c = key → ∀ r ∈ calls, read r c = none := by
  intro c hc hname r hr
  by_contra hread
  obtain ⟨cell, hcell⟩ := Option.ne_none_iff_exists'.mp hread
  obtain ⟨before, after, hsplit⟩ := List.append_of_mem hc
  refine absurd h ?_
  show (st.carry.foldl (carryStep calls) OrderedDict.empty).get? key ≠ none
  rw [hsplit, List.foldl_append, List.foldl_cons]
  apply carrySteps_keep
  unfold carryStep
  cases hhead : (calls.filterMap fun r => read r c).head? with
  | none =>
    have hmem : cell ∈ calls.filterMap fun r => read r c := List.mem_filterMap.mpr ⟨r, hr, hcell⟩
    rw [List.head?_eq_none_iff.mp hhead] at hmem
    cases hmem
  | some first =>
    show (OrderedDict.set _ (carryName c) first).get? key ≠ none
    rw [hname, OrderedDict.get?_set_self]
    exact Option.some_ne_none _

/-- **The key of a lookup**, in any order. -/
theorem lookup_perm {s : Settled} {before : List String} {values : Values} (h : rows.Perm rows')
    (hresolve : around'.resolve = around.resolve) (hbefore : ∀ n ∈ before, values.get? n ≠ none)
    (hcarried : carriedOf st (ordered rows) = carriedOf st (ordered rows'))
    (hsteady : ∀ name ∈ s.left, FromCalls st.carry before rows name →
      FirstAgree place (fun r => (read r (fieldOf name)).map fun cell =>
        lookedUp around.resolve s (some (cellText w cell))) rows) :
    lookedUp around.resolve s (keyFor w s.left (ordered rows) (carriedOf st (ordered rows)) values) =
      lookedUp around'.resolve s (keyFor w s.left (ordered rows') (carriedOf st (ordered rows')) values) := by
  rw [← hcarried, hresolve]
  cases hleft : s.left with
  | none => rfl
  | some name =>
    unfold keyFor
    rw [Option.bind_some, Option.bind_some]
    by_cases hempty : name = ""
    · rw [if_pos hempty, if_pos hempty]
    · rw [if_neg hempty, if_neg hempty]
      cases hv : values.get? name with
      | some value => rfl
      | none =>
        cases hc : (carriedOf st (ordered rows)).get? name with
        | some cell => rfl
        | none =>
          cases hp : (carriedOf st (ordered rows)).get? (carryName (fieldOf name)) with
          | some cell => rfl
          | none =>
            -- neither a value nor a carried cell has the name, so the calls decide
            have hcalls : FromCalls st.carry before rows name := by
              refine ⟨fun hmem => hbefore name hmem hv, fun c hc' hname r hr => ?_⟩
              have hr' : r ∈ ordered rows := (ordered_perm rows).mem_iff.mpr hr
              cases hname with
              | inl hname => exact carriedOf_get?_none hc c hc' hname r hr'
              | inr hname => exact carriedOf_get?_none hp c hc' hname r hr'
            have hfirst := first_perm h (hsteady name hleft hcalls)
            have hpull : ∀ l : List FactRow,
                lookedUp around.resolve s ((l.filterMap fun r => read r (fieldOf name)).head?.map (cellText w)) =
                  (l.filterMap fun r => (read r (fieldOf name)).map fun cell =>
                    lookedUp around.resolve s (some (cellText w cell))).head?.join := by
              intro l
              rw [← List.map_filterMap, List.head?_map]
              cases (l.filterMap fun r => read r (fieldOf name)).head? <;> rfl
            show lookedUp around.resolve s (((ordered rows).filterMap fun r => read r (fieldOf name)).head?.map _) =
              lookedUp around.resolve s (((ordered rows').filterMap fun r => read r (fieldOf name)).head?.map _)
            rw [hpull, hpull, hfirst]

/-- **One value**, in any order. -/
theorem settleValue_perm {s : Settled} {before : List String} {values : Values} (h : rows.Perm rows')
    (hc : around.context.Perm around'.context) (hresolve : around'.resolve = around.resolve)
    (hbefore : ∀ n ∈ before, values.get? n ≠ none)
    (hcarried : carriedOf st (ordered rows) = carriedOf st (ordered rows'))
    (hsteady : SteadyValue w st around rows before s) :
    settleValue w around (ordered rows) (carriedOf st (ordered rows)) values s =
      settleValue w around' (ordered rows') (carriedOf st (ordered rows')) values s := by
  have hfield : (s.field.bind fun f => settleCells w s.rule
        (((ordered rows).filter (qualifies s)).filterMap fun r => read r f)) =
      s.field.bind fun f => settleCells w s.rule
        (((ordered rows').filter (qualifies s)).filterMap fun r => read r f) := by
    cases hf : s.field with
    | none => rfl
    | some f => exact settleCells_perm w h hf hsteady
  unfold SteadyValue at hsteady
  unfold settleValue
  -- the rules over a field, the count, the lookup, and the nearby rules last
  cases hr : s.rule <;> rw [hr] at hsteady <;> rw [hr] at hfield
  case first => exact hfield
  case last => exact hfield
  case firstText => exact hfield
  case sum => exact hfield
  case min => exact hfield
  case max => exact hfield
  case distinctCount => exact hfield
  case count => exact congrArg (fun n => some (some (Value.count n))) ((ordered_congr h).filter _).length_eq
  case lookup => exact congrArg some (lookup_perm w h hresolve hbefore hcarried hsteady)
  all_goals
    refine nearby_perm w h hc fun hne hpos lo hi hspan => ?_
    rw [hr]
    exact hsteady hne hpos lo hi hspan

/-- **The values**, one after the other. -/
theorem valuesOf_perm (h : rows.Perm rows') (hc : around.context.Perm around'.context)
    (hresolve : around'.resolve = around.resolve)
    (hcarried : carriedOf st (ordered rows) = carriedOf st (ordered rows'))
    (hsteady : SteadyValues w st around rows [] st.values) :
    valuesOf w st around (ordered rows) = valuesOf w st around' (ordered rows') := by
  have hrun : ∀ (rest : List Settled) (before : List String) (values : Values),
      SteadyValues w st around rows before rest → (∀ n ∈ before, values.get? n ≠ none) →
      rest.foldlM (fun values s => (settleValue w around (ordered rows) (carriedOf st (ordered rows)) values s).map
        (values.set s.name)) values =
      rest.foldlM (fun values s => (settleValue w around' (ordered rows') (carriedOf st (ordered rows')) values s).map
        (values.set s.name)) values := by
    intro rest
    induction rest with
    | nil => exact fun _ _ _ _ => rfl
    | cons s rest ih =>
      intro before values hs hbefore
      rw [List.foldlM_cons, List.foldlM_cons, settleValue_perm w h hc hresolve hbefore hcarried hs.1]
      cases settleValue w around' (ordered rows') (carriedOf st (ordered rows')) values s with
      | none => rfl
      | some value =>
        refine ih (s.name :: before) (values.set s.name value) hs.2 fun n hn => ?_
        by_cases hname : n = s.name
        · rw [hname, OrderedDict.get?_set_self]
          exact Option.some_ne_none _
        · rw [OrderedDict.get?_set_ne _ _ hname]
          exact hbefore n ((List.mem_cons.mp hn).resolve_left hname)
  exact hrun st.values [] OrderedDict.empty hsteady fun n hn => nomatch hn

/-- **One key**, in any order. -/
theorem settleKey_perm (h : rows.Perm rows') (hc : around.context.Perm around'.context)
    (hresolve : around'.resolve = around.resolve) (hsteady : SteadyCalls w st around rows) :
    settleKey w st around rows = settleKey w st around' rows' := by
  have hcarried := carriedOf_perm h hsteady.1
  have hvalues := valuesOf_perm w h hc hresolve hcarried hsteady.2
  have htime := first_perm h (firstAgree_eventTime rows)
  show (valuesOf w st around (ordered rows)).map _ = (valuesOf w st around' (ordered rows')).map _
  rw [hvalues, hcarried, htime, h.length_eq]

end OneKey

/-! ## §7. Every key. -/

/-- Texts as they stand; a time is not read from a text. -/
def plainSpelling : Spelling where
  toPythonTexts := plainTexts
  timeText := fun t => toString t
  numberText := fun _ => ""
  isoTime := fun _ => none

/-- The quantity that is first picked of a release. -/
def releases : Settlement where
  reads := ["ConfirmPick"]
  key := [.column "release"]
  values := [{ name := "picked", rule := .first, field := some (.column "quantity") }]
  names := by decide

/-- A pick of a release, at the first instant. -/
def pick540551 (q : ℤ) (status : String) : FactRow where
  method := some "ConfirmPick"
  status := some status
  eventTime := some 0
  column := fun name => if name = "release" then .str "540551" else if name = "quantity" then .int q else .none

/-- The settled rows of every settlement, whatever the order of the calls. -/
def SettleOrderFree : Prop :=
  ∀ (w : Spelling) (st : Settlement) (around : Around) (rows rows' : List FactRow), rows.Perm rows' →
    SameRows (settle w st around rows) (settle w st around rows')

end RagPipeline.Analytics.Settle
