/-
  RagPipeline.Analytics.RowOrder — the fold, and the order of the rows.

  The bucket of a name only sees the observations of its measures (`foldRows_iff`), and a bucket that is no
  sketch only their marks, role by role (`recordAll_eq`).  Counts, bands and sketches take the marks in any
  order.  Sums do where the context rounds nothing, extremes where no mark is without a number, and the
  latest reading where the readings of its instant are one.

    * `Steady`          — these conditions, on the rows;
    * `fold_order_free` — with them the fold is the same for any order of the rows, and so is every group;
                          two buckets merge either way if their readings of one instant are one.
-/
import RagPipeline.Analytics.ExactFold
import RagPipeline.Analytics.TwoTier
import RagPipeline.Lib.OrderFree

namespace RagPipeline.Analytics

open RagPipeline.Stage2 RagPipeline.Lib

variable (w : PythonTexts)

/-! ## §1. The observations of a name. -/

/-- A row and a measure. -/
abbrev Observation := FactRow × Measure

/-- Every row with every measure, as the two loops go. -/
def turns (d : MetricDefinition) (rows : List FactRow) : List Observation :=
  rows.flatMap fun row => d.measures.map (Prod.mk row)

/-- The rows that contribute to a measure of a name. -/
def observations (d : MetricDefinition) (name : String) (rows : List FactRow) : List Observation :=
  (turns d rows).filter fun o => decide (o.2.name = name) && contributes o.1 d o.2

theorem observations_perm {d : MetricDefinition} {name : String} {rows rows' : List FactRow} (h : rows.Perm rows') :
    (observations d name rows).Perm (observations d name rows') := (h.flatMap_right _).filter _

/-- The two loops as one. -/
theorem foldRows_turns (d : MetricDefinition) (rows : List FactRow) :
    foldRows w d rows = (turns d rows).foldlM (fun out o => foldMeasure w d o.1 out o.2) d.empty := by
  unfold foldRows turns
  generalize d.empty = out
  induction rows generalizing out with
  | nil => rfl
  | cons row rows ih =>
    rw [List.foldlM_cons, List.flatMap_cons, List.foldlM_append, List.foldlM_map]
    exact congrArg _ (funext ih)

/-- An observation, in the bucket of its name; without a bucket it raises. -/
def observeNamed (bucket : Option Roles) (o : Observation) : Option (Option Roles) :=
  bucket.bind fun b => (observe w o.1 o.2 b).map some

/-- A contributing row, by what it makes of the bucket. -/
theorem foldMeasure_contributes {d : MetricDefinition} {o : Observation} (hc : contributes o.1 d o.2 = true) (out : Buckets) :
    foldMeasure w d o.1 out o.2 =
      ((out o.2.name).bind (observe w o.1 o.2)).map fun updated => Function.update out o.2.name (some updated) := by
  unfold foldMeasure
  rw [if_pos hc]
  cases out o.2.name <;> rfl

theorem observeNamed_eq (bucket : Option Roles) (o : Observation) :
    observeNamed w bucket o = (bucket.bind (observe w o.1 o.2)).map some := by
  cases bucket <;> rfl

/-- **Every name has its own loop.** -/
theorem turns_iff (d : MetricDefinition) (os : List Observation) (out out' : Buckets) :
    os.foldlM (fun out o => foldMeasure w d o.1 out o.2) out = some out' ↔
      ∀ name, (os.filter fun o => decide (o.2.name = name) && contributes o.1 d o.2).foldlM
        (observeNamed w) (out name) = some (out' name) := by
  induction os generalizing out with
  | nil =>
    constructor
    · intro h name
      obtain rfl := Option.some.inj h
      rfl
    · intro h
      exact congrArg some (funext fun name => Option.some.inj (h name))
  | cons o os ih =>
    rw [List.foldlM_cons]
    by_cases hc : contributes o.1 d o.2 = true
    · rw [foldMeasure_contributes w hc]
      cases hb : (out o.2.name).bind (observe w o.1 o.2) with
      | none =>
        -- the loop over all names raises, and so does the one of this name
        constructor
        · intro h
          cases h
        · intro h
          have hname := h o.2.name
          rw [List.filter_cons_of_pos (by simp [hc]), List.foldlM_cons, observeNamed_eq, hb] at hname
          cases hname
      | some b' =>
        show os.foldlM _ (Function.update out o.2.name (some b')) = some out' ↔ _
        rw [ih]
        refine forall_congr' fun name => ?_
        by_cases he : o.2.name = name
        · subst he
          rw [List.filter_cons_of_pos (by simp [hc]), List.foldlM_cons, Function.update_self, observeNamed_eq, hb]
          rfl
        · rw [List.filter_cons_of_neg (by simp [he]), Function.update_of_ne (Ne.symm he)]
    · have hskip : foldMeasure w d o.1 out o.2 = some out := by
        unfold foldMeasure
        rw [if_neg hc]
      rw [hskip]
      show os.foldlM _ out = some out' ↔ _
      rw [ih]
      refine forall_congr' fun name => ?_
      rw [List.filter_cons_of_neg (by simp [hc])]

/-- **The bucket of a name** is that of its observations. -/
theorem foldRows_iff (d : MetricDefinition) (rows : List FactRow) (out : Buckets) :
    foldRows w d rows = some out ↔
      ∀ name, (observations d name rows).foldlM (observeNamed w) (d.empty name) = some (out name) := by
  rw [foldRows_turns, turns_iff]
  rfl

/-- The loop of a bucket that is there. -/
theorem foldlM_observeNamed (os : List Observation) (b : Roles) :
    os.foldlM (observeNamed w) (some b) = (os.foldlM (fun b o => observe w o.1 o.2 b) b).map some := by
  induction os generalizing b with
  | nil => rfl
  | cons o os ih =>
    rw [List.foldlM_cons, List.foldlM_cons]
    unfold observeNamed
    rw [Option.bind_some]
    cases observe w o.1 o.2 b with
    | none => rfl
    | some b' => exact ih b'

/-! ## §2. Marks. -/

/-- What an observation leaves in a bucket that is no sketch: an instant and a number. -/
structure Mark where
  moment : Option Instant
  value : Option Number

/-- The mark of an observation; it may raise, or leave none. -/
def markOf (o : Observation) : Option (Option Mark) :=
  let value := o.2.field.bind fun field => numericOrNone w (o.1.resolveField field)
  if o.2.field.isSome ∧ value = none then some none
  else
    match o.2.minus with
    | none => some (some ⟨o.1.eventTime, value⟩)
    | some minus =>
      match numericOrNone w (o.1.resolveField minus) with
      | none => some none
      | some other => (value.bind fun v => Number.sub decimalContext v other).map fun difference =>
          some ⟨o.1.eventTime, some difference⟩

/-- The marks of some observations. -/
def marks (os : List Observation) : Option (List Mark) :=
  (os.mapM fun o => (markOf w o).map Option.toList).map List.flatten

/-- A mark, into every role. -/
def recordMark (b : Roles) (k : Mark) : Option Roles := record { eventTime := k.moment } b k.value

theorem recordNumber_mark (row : FactRow) (m : Measure) (b : Roles) :
    recordNumber w row m b = (markOf w (row, m)).bind fun
      | none => some b
      | some k => recordMark b k := by
  unfold recordNumber markOf
  dsimp only
  split
  · rfl
  · cases m.minus with
    | none => rfl
    | some minus =>
      dsimp only
      cases numericOrNone w (row.resolveField minus) with
      | none => rfl
      | some other =>
        dsimp only
        cases (m.field.bind fun field => numericOrNone w (row.resolveField field)).bind
            fun v => Number.sub decimalContext v other with
        | none => rfl
        | some difference => rfl

theorem marks_cons (o : Observation) (os : List Observation) :
    marks w (o :: os) = (markOf w o).bind fun k => (marks w os).map fun ks => k.toList ++ ks := by
  unfold marks
  rw [List.mapM_cons]
  cases markOf w o with
  | none => rfl
  | some k =>
    cases os.mapM fun o => (markOf w o).map Option.toList with
    | none => rfl
    | some ls => rfl

/-- Recording keeps the roles of the bucket. -/
theorem recordMark_sketch {b b' : Roles} {k : Mark} (h : recordMark b k = some b') :
    b'.distinctSketch = b.distinctSketch := by
  unfold recordMark record at h
  simp only [Option.bind_eq_bind, Option.bind_eq_some_iff] at h
  obtain ⟨_, _, _, _, _, _, _, _, _, _, h⟩ := h
  rw [← Option.some.inj h]

/-- **A bucket that is no sketch only sees the marks.** -/
theorem foldlM_marks (os : List Observation) {b : Roles} (hb : b.distinctSketch = none) :
    os.foldlM (fun b o => observe w o.1 o.2 b) b = (marks w os).bind fun ks => ks.foldlM recordMark b := by
  induction os generalizing b with
  | nil => rfl
  | cons o os ih =>
    have hobserve : observe w o.1 o.2 b = recordNumber w o.1 o.2 b := by
      unfold observe
      rw [hb]
    rw [List.foldlM_cons, hobserve, recordNumber_mark, marks_cons]
    cases markOf w o with
    | none => rfl
    | some k =>
      cases k with
      | none =>
        show os.foldlM _ b = _
        rw [ih hb]
        cases marks w os with
        | none => rfl
        | some ks => rfl
      | some k =>
        show (recordMark b k).bind (fun b' => os.foldlM _ b') = _
        -- a number that does not fit stops both folds, and a failure further on stops them too
        cases hk : recordMark b k with
        | none =>
          cases marks w os with
          | none => rfl
          | some ks =>
            show none = (k :: ks).foldlM recordMark b
            rw [List.foldlM_cons, hk]
            rfl
        | some b' =>
          rw [Option.bind_some, ih ((recordMark_sketch hk).trans hb)]
          cases marks w os with
          | none => rfl
          | some ks =>
            show ks.foldlM recordMark b' = (k :: ks).foldlM recordMark b
            rw [List.foldlM_cons, hk]
            rfl

/-! ## §3. Role by role. -/

/-- `bucket[sum_value] += value`. -/
def addValue (s : Number) (k : Mark) : Option Number := k.value.bind (Number.add decimalContext s)

/-- `bucket[sum_sq] += value * value`. -/
def addSquare (s : Number) (k : Mark) : Option Number :=
  k.value.bind fun v => (Number.mul decimalContext v v).bind (Number.add decimalContext s)

/-- The new band counts. -/
def addMarkBand (h : List ℕ) (k : Mark) : Option (List ℕ) := k.value.bind (addBand h)

/-- The new latest reading. -/
def laterMark (cur : Option Reading) (k : Mark) : Option Reading :=
  match k.moment with
  | none => cur
  | some moment => later cur (some ⟨moment, k.value⟩)

theorem onRole_bind {α : Type} (role : Option α) (f g : α → Option α) :
    (onRole role f).bind (fun r => onRole r g) = onRole role fun x => (f x).bind g := by
  cases role with
  | none => rfl
  | some x =>
    show ((f x).map some).bind _ = ((f x).bind g).map some
    cases f x <;> rfl

theorem onRole_some {α : Type} (role : Option α) : onRole role some = some role := by
  cases role <;> rfl

/-- One mark, role by role. -/
theorem recordMark_eq (b : Roles) (k : Mark) :
    recordMark b k = (onRole b.sumValue fun s => addValue s k).bind fun sumValue =>
      (onRole b.sumSq fun s => addSquare s k).bind fun sumSq =>
      (onRole b.minValue fun cur => extreme takesMin cur k.value).bind fun minValue =>
      (onRole b.maxValue fun cur => extreme takesMax cur k.value).bind fun maxValue =>
      (onRole b.histogram fun h => addMarkBand h k).map fun histogram =>
        { sumValue := sumValue, sumSq := sumSq, minValue := minValue, maxValue := maxValue,
          histogram := histogram, distinctSketch := b.distinctSketch,
          countValue := b.countValue.map (· + 1), latest := b.latest.map fun cur => laterMark cur k } := by
  simp only [Option.map_eq_bind (x := onRole b.histogram _)]
  rfl

/-- **All marks, role by role.** -/
theorem recordAll_eq (ks : List Mark) (b : Roles) :
    ks.foldlM recordMark b = (onRole b.sumValue fun s => ks.foldlM addValue s).bind fun sumValue =>
      (onRole b.sumSq fun s => ks.foldlM addSquare s).bind fun sumSq =>
      (onRole b.minValue fun cur => ks.foldlM (fun cur k => extreme takesMin cur k.value) cur).bind fun minValue =>
      (onRole b.maxValue fun cur => ks.foldlM (fun cur k => extreme takesMax cur k.value) cur).bind fun maxValue =>
      (onRole b.histogram fun h => ks.foldlM addMarkBand h).map fun histogram =>
        { sumValue := sumValue, sumSq := sumSq, minValue := minValue, maxValue := maxValue,
          histogram := histogram, distinctSketch := b.distinctSketch,
          countValue := b.countValue.map (· + ks.length),
          latest := b.latest.map fun cur => ks.foldl laterMark cur } := by
  induction ks generalizing b with
  | nil =>
    show some b = _
    simp only [List.foldlM_nil, Option.pure_def, onRole_some, Option.bind_some, Option.map_some, List.length_nil,
      Nat.add_zero, Option.map_id', List.foldl_nil]
  | cons k ks ih =>
    simp only [List.foldlM_cons, Option.bind_eq_bind, ← onRole_bind, recordMark_eq, ih]
    -- one step of each role; where one raises both sides do
    cases onRole b.sumValue fun s => addValue s k with
    | none => rfl
    | some sumValue =>
      cases onRole b.sumSq fun s => addSquare s k with
      | none => simp
      | some sumSq =>
        cases onRole b.minValue fun cur => extreme takesMin cur k.value with
        | none => simp
        | some minValue =>
          cases onRole b.maxValue fun cur => extreme takesMax cur k.value with
          | none => simp
          | some maxValue =>
            cases onRole b.histogram fun h => addMarkBand h k with
            | none => simp
            | some histogram =>
              simp [List.length_cons, Function.comp_def, Nat.add_assoc, Nat.add_comm 1]

/-! ## §4. Roles that take the marks in any order. -/

theorem modify_comm (l : List ℕ) (i j : ℕ) :
    (l.modify i (· + 1)).modify j (· + 1) = (l.modify j (· + 1)).modify i (· + 1) := by
  apply List.ext_getElem?
  intro n
  simp only [List.getElem?_modify]
  cases l[n]? with
  | none => rfl
  | some x =>
    by_cases hi : i = n <;> by_cases hj : j = n <;> simp [hi, hj]

/-- Once counted, a histogram has all its bands. -/
theorem countBand_length (h : List ℕ) (i : ℕ) : bands ≤ (countBand h i).length := by
  unfold countBand
  simp only [List.length_modify, List.length_append, List.length_replicate]
  omega

theorem countBand_counted {h : List ℕ} (hlen : bands ≤ h.length) (i : ℕ) : countBand h i = h.modify i (· + 1) := by
  have hne : h ≠ [] := by
    intro he
    rw [he] at hlen
    simp at hlen
  have hpad : bands - h.length = 0 := by omega
  unfold countBand
  rw [if_neg hne]
  show (h ++ List.replicate (bands - h.length) 0).modify i _ = _
  rw [hpad, List.replicate_zero, List.append_nil]

theorem countBand_comm (h : List ℕ) (i j : ℕ) : countBand (countBand h i) j = countBand (countBand h j) i := by
  rw [countBand_counted (countBand_length h i), countBand_counted (countBand_length h j)]
  exact modify_comm _ i j

theorem addMarkBand_comm (h : List ℕ) (k l : Mark) :
    (addMarkBand h k).bind (fun h' => addMarkBand h' l) = (addMarkBand h l).bind fun h' => addMarkBand h' k := by
  have hband : ∀ h (k : Mark), addMarkBand h k = (k.value.bind bandOf).map (countBand h) := by
    intro h k
    unfold addMarkBand
    cases k.value <;> rfl
  simp only [hband]
  cases k.value.bind bandOf with
  | none => cases l.value.bind bandOf <;> rfl
  | some i =>
    cases l.value.bind bandOf with
    | none => rfl
    | some j => exact congrArg some (countBand_comm h i j)

/-- The order of extremes, from below or from above. -/
theorem extreme_comm {L : Type} [LinearOrder L] {rank : Number → Option (Unit × L)} (hone : OneEach rank)
    {takes : Number → Number → Option Bool} (htakes : takes = below rank) (cur : Option Number) {u v : Number} :
    (extreme takes cur (some u)).bind (fun cur' => extreme takes cur' (some v)) =
      (extreme takes cur (some v)).bind fun cur' => extreme takes cur' (some u) := by
  have hextreme : ∀ c v, extreme takes (some c) (some v) = (pick rank c v).map some := by
    intro c v
    rw [htakes]
    show (below rank v c).map (fun t => if t then some v else some c) = ((below rank v c).map _).map some
    rw [Option.map_map]
    congr 1
    funext t
    cases t <;> rfl
  cases cur with
  | none =>
    show extreme takes (some u) (some v) = extreme takes (some v) (some u)
    rw [hextreme, hextreme, pick_symm hone]
  | some c =>
    have hbind : ∀ x : Option Number, ∀ y, (x.map some).bind (fun cur' => extreme takes cur' (some y)) =
        (x.bind fun z => pick rank z y).map some := by
      intro x y
      cases x with
      | none => rfl
      | some z => exact hextreme z y
    rw [hextreme, hextreme, hbind, hbind, pick_comm hone]

/-- The places, all of one kind. -/
def upRank (x : Number) : Option (Unit × WithBot (WithTop ℚ)) := x.rank.map (Prod.mk ())

theorem oneEach_upRank : OneEach upRank := by
  intro u v a hu hv
  obtain ⟨x, hx, rfl⟩ := Option.map_eq_some_iff.mp hu
  obtain ⟨y, hy, he⟩ := Option.map_eq_some_iff.mp hv
  obtain rfl : y = x := (Prod.mk.inj he).2
  exact Number.rank_inj u v y hx hy

/-- The places, from above. -/
def downRank (x : Number) : Option (Unit × (WithBot (WithTop ℚ))ᵒᵈ) := x.rank.map fun a => ((), OrderDual.toDual a)

theorem oneEach_downRank : OneEach downRank := by
  intro u v a hu hv
  obtain ⟨x, hx, rfl⟩ := Option.map_eq_some_iff.mp hu
  obtain ⟨y, hy, he⟩ := Option.map_eq_some_iff.mp hv
  obtain rfl : y = x := OrderDual.toDual.injective (Prod.mk.inj he).2
  exact Number.rank_inj u v y hx hy

theorem takesMin_eq : takesMin = below upRank := by
  funext v c
  show Number.lt v c = _
  rw [Number.lt_eq_rank]
  unfold below upRank
  cases v.rank with
  | none => rfl
  | some a => cases c.rank <;> rfl

theorem takesMax_eq : takesMax = below downRank := by
  funext v c
  show Number.lt c v = _
  rw [Number.lt_eq_rank]
  unfold below downRank
  cases c.rank with
  | none => cases v.rank <;> rfl
  | some a => cases v.rank <;> rfl

/-- **Extremes**, where every mark has a number or none has. -/
theorem extremes_perm {L : Type} [LinearOrder L] {rank : Number → Option (Unit × L)} (hone : OneEach rank)
    {takes : Number → Number → Option Bool} (htakes : takes = below rank) {ks ks' : List Mark} (h : ks.Perm ks')
    (hall : (∀ k ∈ ks, k.value ≠ none) ∨ ∀ k ∈ ks, k.value = none) (cur : Option Number) :
    ks.foldlM (fun cur k => extreme takes cur k.value) cur =
      ks'.foldlM (fun cur k => extreme takes cur k.value) cur := by
  cases hall with
  | inl hsome =>
    refine foldlM_perm (P := fun k : Mark => k.value ≠ none) (fun cur k l hk hl => ?_) h hsome cur
    obtain ⟨u, hu⟩ := Option.ne_none_iff_exists'.mp hk
    obtain ⟨v, hv⟩ := Option.ne_none_iff_exists'.mp hl
    simp only [hu, hv]
    exact extreme_comm hone htakes cur
  | inr hnone =>
    refine foldlM_perm (P := fun k : Mark => k.value = none) (fun cur k l hk hl => ?_) h hnone cur
    rw [hk, hl]

/-- The readings among the marks. -/
def readings (ks : List Mark) : List Reading :=
  ks.filterMap fun k => k.moment.map fun moment => ⟨moment, k.value⟩

/-- The last of some readings by their instants. -/
def IsLatest (rs : List Reading) (r : Reading) : Prop := r ∈ rs ∧ ∀ x ∈ rs, x.at_ ≤ r.at_

/-- The readings of the latest instant are one. -/
def TiesAgree (rs : List Reading) : Prop := ∀ r r', IsLatest rs r → IsLatest rs r' → r = r'

theorem foldl_laterMark (ks : List Mark) (cur : Option Reading) :
    ks.foldl laterMark cur = (readings ks).foldl (fun cur r => later cur (some r)) cur := by
  unfold readings
  induction ks generalizing cur with
  | nil => rfl
  | cons k ks ih =>
    rw [List.foldl_cons, ih]
    unfold laterMark
    cases hm : k.moment with
    | none => rw [List.filterMap_cons_none (by simp [hm])]
    | some moment =>
      rw [List.filterMap_cons_some (by simp [hm]; rfl)]
      rfl

theorem foldl_later_some (rs : List Reading) (r : Reading) :
    ∃ r', rs.foldl (fun cur r => later cur (some r)) (some r) = some r' ∧ IsLatest (r :: rs) r' := by
  induction rs generalizing r with
  | nil => exact ⟨r, rfl, List.mem_cons_self, fun x hx => by rw [List.mem_singleton.mp hx]⟩
  | cons x rs ih =>
    show ∃ r', rs.foldl _ (if r.at_ < x.at_ then some x else some r) = some r' ∧ _
    by_cases hlt : r.at_ < x.at_
    · rw [if_pos hlt]
      obtain ⟨r', hr', hmem, hmax⟩ := ih x
      refine ⟨r', hr', List.mem_cons_of_mem _ hmem, fun y hy => ?_⟩
      cases List.mem_cons.mp hy with
      | inl he =>
        rw [he]
        exact le_trans (le_of_lt hlt) (hmax x List.mem_cons_self)
      | inr hy => exact hmax y hy
    · rw [if_neg hlt]
      obtain ⟨r', hr', hmem, hmax⟩ := ih r
      refine ⟨r', hr', ?_, fun y hy => ?_⟩
      · cases List.mem_cons.mp hmem with
        | inl he => exact he ▸ List.mem_cons_self
        | inr hm => exact List.mem_cons_of_mem _ (List.mem_cons_of_mem _ hm)
      · cases List.mem_cons.mp hy with
        | inl he => exact he ▸ hmax r List.mem_cons_self
        | inr hy =>
          cases List.mem_cons.mp hy with
          | inl he =>
            rw [he]
            exact le_trans (not_lt.mp hlt) (hmax r List.mem_cons_self)
          | inr hy => exact hmax y (List.mem_cons_of_mem _ hy)

/-- **The latest reading**, where those of its instant are one. -/
theorem later_perm {ks ks' : List Mark} (h : ks.Perm ks') (hties : TiesAgree (readings ks)) :
    ks.foldl laterMark none = ks'.foldl laterMark none := by
  have hrs : (readings ks).Perm (readings ks') := h.filterMap _
  rw [foldl_laterMark, foldl_laterMark]
  cases hr : readings ks with
  | nil =>
    rw [hr] at hrs
    rw [hrs.symm.eq_nil]
  | cons x rs =>
    cases hr' : readings ks' with
    | nil =>
      rw [hr'] at hrs
      rw [hrs.eq_nil] at hr
      cases hr
    | cons x' rs' =>
      obtain ⟨r, hfold, hlatest⟩ := foldl_later_some rs x
      obtain ⟨r', hfold', hlatest'⟩ := foldl_later_some rs' x'
      have hmoved : IsLatest (readings ks) r' := by
        rw [hr'] at hrs
        exact ⟨hrs.mem_iff.mpr hlatest'.1, fun y hy => hlatest'.2 y (hrs.mem_iff.mp hy)⟩
      show rs.foldl _ (some x) = rs'.foldl _ (some x')
      rw [hfold, hfold', hties r r' (hr ▸ hlatest) hmoved]

/-! ## §5. Sums that are not rounded. -/

/-- The numbers of the marks, all of them finite. -/
def FiniteValues (ks : List Mark) (qs : List ℚ) : Prop := ks.map Mark.value = qs.map fun q => some (Number.finite q)

theorem finiteValues_perm {ks ks' : List Mark} {qs : List ℚ} (h : ks.Perm ks') (hq : FiniteValues ks qs) :
    ∃ qs', qs.Perm qs' ∧ FiniteValues ks' qs' := by
  have hmap : (ks'.map Mark.value).Perm (qs.map fun q => some (Number.finite q)) := hq ▸ (h.map Mark.value).symm
  obtain ⟨qs', hqs', heq⟩ := perm_map_exists hmap
  exact ⟨qs', hqs'.symm, heq⟩

theorem foldlM_value {f : Number → Option Number → Option Number} {ks : List Mark} {qs : List ℚ}
    (hq : FiniteValues ks qs) (s : Number) :
    ks.foldlM (fun s k => f s k.value) s = qs.foldlM (fun s q => f s (some (.finite q))) s := by
  rw [← List.foldlM_map (f := Mark.value) (g := f), hq, List.foldlM_map]

/-- **Sums that have room**: what is added up is exact at every step. -/
theorem foldlM_add {g : ℚ → ℚ} {f : Number → ℚ → Option Number} {qs : List ℚ}
    (hstep : ∀ s, ∀ q ∈ qs, f s q = Number.add decimalContext s (.finite (g q))) (before : List ℚ)
    (h : Fits decimalContext (before ++ qs.map g)) :
    qs.foldlM f (.finite before.sum) = some (.finite (before ++ qs.map g).sum) := by
  induction qs generalizing before with
  | nil => simp
  | cons q qs ih =>
    have hsplit : before ++ (q :: qs).map g = (before ++ [g q]) ++ qs.map g := by simp
    rw [hsplit] at h ⊢
    have hone : Number.add decimalContext (.finite before.sum) (.finite [g q].sum) =
        some (.finite (before ++ [g q]).sum) := h.left.add_sum
    rw [List.sum_singleton] at hone
    rw [List.foldlM_cons, hstep _ q List.mem_cons_self, hone]
    exact ih (fun s x hx => hstep s x (List.mem_cons_of_mem _ hx)) _ h

theorem sum_exact {ks : List Mark} {qs : List ℚ} (hq : FiniteValues ks qs) (h : Fits decimalContext qs) :
    ks.foldlM addValue Number.zero = some (.finite qs.sum) := by
  have hsum := foldlM_add (g := id) (f := fun s q => Number.add decimalContext s (.finite q))
    (fun s q (_ : q ∈ qs) => rfl) [] (by simpa using h)
  rw [List.map_id, List.nil_append] at hsum
  exact (foldlM_value (f := fun s v => v.bind (Number.add decimalContext s)) hq _).trans hsum

/-- A sum that rounds nothing is the same in any order. -/
theorem sum_perm {ks ks' : List Mark} {qs : List ℚ} (h : ks.Perm ks') (hq : FiniteValues ks qs)
    (hfits : Fits decimalContext qs) : ks.foldlM addValue Number.zero = ks'.foldlM addValue Number.zero := by
  obtain ⟨qs', hperm, hq'⟩ := finiteValues_perm h hq
  rw [sum_exact hq hfits, sum_exact hq' (hfits.perm hperm), hperm.sum_eq]

theorem square_exact {ks : List Mark} {qs : List ℚ} (hq : FiniteValues ks qs)
    (h : Fits decimalContext (qs.map fun q => q * q)) :
    ks.foldlM addSquare Number.zero = some (.finite (qs.map fun q => q * q).sum) := by
  have hsquare : ∀ q ∈ qs, Number.mul decimalContext (.finite q) (.finite q) = some (.finite (q * q)) := by
    intro q hmem
    obtain ⟨before, after, hsplit⟩ := List.append_of_mem hmem
    have hfits : Fits decimalContext [q * q] := by
      rw [hsplit, List.map_append, List.map_cons] at h
      have htail : Fits decimalContext ([q * q] ++ after.map fun q => q * q) := h.right
      exact htail.left
    have hround := hfits.round_sum
    rw [List.sum_singleton] at hround
    show (decimalContext.round (q * q)).map Number.finite = _
    rw [hround]
    rfl
  have hsum := foldlM_add (g := fun q => q * q)
    (f := fun s q => (Number.mul decimalContext (.finite q) (.finite q)).bind (Number.add decimalContext s))
    (fun s q (hmem : q ∈ qs) => by rw [hsquare q hmem]; rfl) [] (by simpa using h)
  rw [List.nil_append] at hsum
  exact (foldlM_value
    (f := fun s v => v.bind fun v => (Number.mul decimalContext v v).bind (Number.add decimalContext s)) hq _).trans hsum

/-- And so is the sum of the squares. -/
theorem square_perm {ks ks' : List Mark} {qs : List ℚ} (h : ks.Perm ks') (hq : FiniteValues ks qs)
    (hfits : Fits decimalContext (qs.map fun q => q * q)) :
    ks.foldlM addSquare Number.zero = ks'.foldlM addSquare Number.zero := by
  obtain ⟨qs', hperm, hq'⟩ := finiteValues_perm h hq
  rw [square_exact hq hfits, square_exact hq' (hfits.perm (hperm.map _)), (hperm.map _).sum_eq]

/-! ## §6. Sketches. -/

/-- The key of an observation. -/
def identityOf (o : Observation) : Option (Option String) :=
  o.2.field.bind fun field => distinctKey w (o.1.resolveField field)

/-- The keys of some observations. -/
def identitiesOf (os : List Observation) : Option (List String) :=
  (os.mapM fun o => (identityOf w o).map Option.toList).map List.flatten

/-- A sketch that saw some keys more. -/
def sketched (sketch : Sketch) (count : ℕ) (ks : List String) : Roles where
  distinctSketch := some (ks.foldl (Sketch.add w) sketch)
  countValue := some (count + ks.length)

theorem foldlM_keys (os : List Observation) (sketch : Sketch) (count : ℕ) :
    os.foldlM (fun b o => observe w o.1 o.2 b) { distinctSketch := some sketch, countValue := some count } =
      (identitiesOf w os).map (sketched w sketch count) := by
  induction os generalizing sketch count with
  | nil => rfl
  | cons o os ih =>
    have hcons : identitiesOf w (o :: os) = (identityOf w o).bind fun k => (identitiesOf w os).map fun ks => k.toList ++ ks := by
      unfold identitiesOf
      rw [List.mapM_cons]
      cases identityOf w o with
      | none => rfl
      | some k =>
        cases os.mapM fun o => (identityOf w o).map Option.toList with
        | none => rfl
        | some ls => rfl
    rw [List.foldlM_cons, hcons]
    -- a row of a distinct measure adds its key, if it has one
    have hobserve : observe w o.1 o.2 { distinctSketch := some sketch, countValue := some count } =
        (identityOf w o).map fun k => sketched w sketch count k.toList := by
      show recordDistinct w o.1 o.2 _ sketch = _
      unfold recordDistinct identityOf
      cases o.2.field with
      | none => rfl
      | some field =>
        show Option.map _ _ = Option.map _ _
        congr 1
        funext k
        cases k <;> rfl
    rw [hobserve]
    cases identityOf w o with
    | none => rfl
    | some k =>
      cases k with
      | none =>
        show os.foldlM _ ({ distinctSketch := some sketch, countValue := some count } : Roles) = _
        rw [ih]
        cases identitiesOf w os with
        | none => rfl
        | some ks => rfl
      | some key =>
        show os.foldlM _ ({ distinctSketch := some (sketch.add w key), countValue := some (count + 1) } : Roles) = _
        rw [ih]
        cases identitiesOf w os with
        | none => rfl
        | some ks =>
          refine congrArg some ?_
          show sketched w (sketch.add w key) (count + 1) ks = sketched w sketch count (key :: ks)
          unfold sketched
          rw [List.foldl_cons, List.length_cons, Nat.add_assoc, Nat.add_comm 1]

/-! ## §7. The fold. -/

/-- When the marks of a bucket can come in any order. -/
def SteadyMarks (ks : List Mark) : Aggregation → Prop
  | .sum | .average => ∃ qs, FiniteValues ks qs ∧ Fits decimalContext qs
  | .stats => ∃ qs, FiniteValues ks qs ∧ Fits decimalContext qs ∧ Fits decimalContext (qs.map fun q => q * q)
  | .extent => (∀ k ∈ ks, k.value ≠ none) ∨ ∀ k ∈ ks, k.value = none
  | .latest => TiesAgree (readings ks)
  | .count | .percentile | .distinct => True

/-- When the rows can: what the measures of a name mark, in the bucket of that name. -/
def Steady (d : MetricDefinition) (rows : List FactRow) : Prop :=
  ∀ name last, d.lastNamed name = some last → ∀ ks, marks w (observations d name rows) = some ks →
    SteadyMarks ks last.aggregation

/-- **The marks of one bucket, in another order.** -/
theorem recordAll_perm {a : Aggregation} (ha : a ≠ .distinct) {ks ks' : List Mark} (h : ks.Perm ks')
    (hsteady : SteadyMarks ks a) : ks.foldlM recordMark a.emptyRoles = ks'.foldlM recordMark a.emptyRoles := by
  have hlen : ks.length = ks'.length := h.length_eq
  have hbands : ∀ hist, ks.foldlM addMarkBand hist = ks'.foldlM addMarkBand hist := fun hist =>
    foldlM_perm (P := fun _ => True) (fun hist k l _ _ => addMarkBand_comm hist k l) h (fun _ _ => trivial) hist
  rw [recordAll_eq, recordAll_eq, hlen]
  cases a with
  | sum | average =>
    obtain ⟨qs, hq, hfits⟩ := hsteady
    have hsum := sum_perm h hq hfits
    simp only [Aggregation.emptyRoles, onRole, Option.map_none, hsum]
  | stats =>
    obtain ⟨qs, hq, hfits, hsquares⟩ := hsteady
    have hsum := sum_perm h hq hfits
    have hsq := square_perm h hq hsquares
    simp only [Aggregation.emptyRoles, onRole, Option.map_none, hsum, hsq]
  | extent =>
    have hmin := extremes_perm oneEach_upRank takesMin_eq h hsteady
    have hmax := extremes_perm oneEach_downRank takesMax_eq h hsteady
    simp only [Aggregation.emptyRoles, onRole, Option.map_none, hmin, hmax]
  | percentile => simp only [Aggregation.emptyRoles, onRole, Option.map_none, hbands]
  | latest =>
    have hlatest := later_perm h hsteady
    simp only [Aggregation.emptyRoles, onRole, Option.map_some, hlatest]
  | count => rfl
  | distinct => exact absurd rfl ha

/-- **One name, in another order.** -/
theorem bucket_perm {a : Aggregation} {os os' : List Observation} (h : os.Perm os')
    (hsteady : ∀ ks, marks w os = some ks → SteadyMarks ks a) :
    os.foldlM (fun b o => observe w o.1 o.2 b) a.emptyRoles =
      os'.foldlM (fun b o => observe w o.1 o.2 b) a.emptyRoles := by
  by_cases ha : a = .distinct
  · subst ha
    show os.foldlM _ ({ distinctSketch := some Sketch.empty, countValue := some 0 } : Roles) =
      os'.foldlM _ ({ distinctSketch := some Sketch.empty, countValue := some 0 } : Roles)
    -- a distinct count takes the identities as they come: a set of them, and their number
    rw [foldlM_keys, foldlM_keys]
    have hkeys : SameRows (identitiesOf w os) (identitiesOf w os') := mapM_flatten_perm h
    revert hkeys
    generalize identitiesOf w os = x
    generalize identitiesOf w os' = y
    intro hkeys
    cases hkeys with
    | none => rfl
    | some hperm =>
      refine congrArg some ?_
      have hsketch := sketchOf_perm w hperm
      unfold sketchOf at hsketch
      unfold sketched
      rw [hsketch, hperm.length_eq]
  · have hshape : a.emptyRoles.distinctSketch = none := by
      cases a <;> first | rfl | exact absurd rfl ha
    rw [foldlM_marks w os hshape, foldlM_marks w os' hshape]
    have hmarks : SameRows (marks w os) (marks w os') := mapM_flatten_perm h
    revert hmarks hsteady
    generalize marks w os = x
    generalize marks w os' = y
    intro hsteady hmarks
    cases hmarks with
    | none => rfl
    | some hperm => exact recordAll_perm ha hperm (hsteady _ rfl)

/-- No measure has the name, so nothing is observed under it. -/
theorem observations_unnamed {d : MetricDefinition} {name : String} {rows : List FactRow}
    (hlast : d.lastNamed name = none) : observations d name rows = [] := by
  unfold observations
  rw [List.filter_eq_nil_iff]
  intro o ho hname
  obtain ⟨row, -, ho⟩ := List.mem_flatMap.mp ho
  obtain ⟨m, hm, rfl⟩ := List.mem_map.mp ho
  have hnone := List.getLast?_eq_none_iff.mp hlast
  rw [List.filter_eq_nil_iff] at hnone
  rw [Bool.and_eq_true] at hname
  exact hnone m hm hname.1

/-- **The fold, in another order.** -/
theorem foldRows_perm {d : MetricDefinition} {rows rows' : List FactRow} (h : rows.Perm rows')
    (hsteady : Steady w d rows) : foldRows w d rows = foldRows w d rows' := by
  have hnames : ∀ name, (observations d name rows).foldlM (observeNamed w) (d.empty name) =
      (observations d name rows').foldlM (observeNamed w) (d.empty name) := by
    intro name
    have hos : (observations d name rows).Perm (observations d name rows') := observations_perm h
    cases hlast : d.lastNamed name with
    | none =>
      rw [observations_unnamed hlast, observations_unnamed hlast]
    | some last =>
      have hempty : d.empty name = some last.aggregation.emptyRoles :=
        congrArg (Option.map fun m : Measure => m.aggregation.emptyRoles) hlast
      rw [hempty, foldlM_observeNamed, foldlM_observeNamed, bucket_perm w hos (hsteady name last hlast)]
  apply Option.ext
  intro out
  rw [foldRows_iff, foldRows_iff]
  exact forall_congr' fun name => by rw [hnames name]

/-! ## §8. Merging either way. -/

theorem addSums_comm (x y : Option Number) : addSums x y = addSums y x := by
  cases x <;> cases y
  all_goals simp [addSums, Number.add_comm]

theorem addExtremes_comm {L : Type} [LinearOrder L] {rank : Number → Option (Unit × L)} (hone : OneEach rank)
    {takes : Number → Number → Option Bool} (htakes : takes = below rank) (x y : Option (Option Number)) :
    addExtremes takes x y = addExtremes takes y x := by
  have hpick : ∀ a b, ((takes b a).map fun t => some (if t then some b else some a)) =
      (pick rank a b).map fun z => some (some z) := by
    intro a b
    rw [htakes]
    show _ = ((below rank b a).map fun t => if t then b else a).map _
    rw [Option.map_map]
    congr 1
    funext t
    cases t <;> rfl
  rcases x with _ | _ | a <;> rcases y with _ | _ | b <;> try rfl
  show ((takes b a).map fun t => some (if t then some b else some a)) = _
  rw [hpick, pick_symm hone, ← hpick]
  rfl

theorem addBands_comm (x y : Option (List ℕ)) : addBands x y = addBands y x := by
  cases x <;> cases y
  all_goals simp [addBands, Nat.max_comm, Nat.add_comm]

theorem addSketches_comm (x y : Option Sketch) : addSketches x y = addSketches y x := by
  have hunion : ∀ a b : Sketch, a.union b = b.union a := by
    intro a b
    rw [Sketch.union_eq, Sketch.union_eq]
    exact funext fun i => Nat.max_comm _ _
  cases x <;> cases y
  all_goals simp only [addSketches]
  all_goals rw [hunion]

/-- Readings of one instant are one. -/
def SameReading (a b : Roles) : Prop :=
  ∀ x y, a.latest.join = some x → b.latest.join = some y → x.at_ = y.at_ → x = y

theorem addLatest_comm {a b : Roles} (h : SameReading a b) : addLatest a.latest b.latest = addLatest b.latest a.latest := by
  have hlater : later a.latest.join b.latest.join = later b.latest.join a.latest.join := by
    cases hx : a.latest.join with
    | none => cases b.latest.join <;> rfl
    | some x =>
      cases hy : b.latest.join with
      | none => rfl
      | some y =>
        show (if x.at_ < y.at_ then some y else some x) = if y.at_ < x.at_ then some x else some y
        rcases lt_trichotomy x.at_ y.at_ with hlt | heq | hgt
        · rw [if_pos hlt, if_neg (not_lt_of_gt hlt)]
        · rw [h x y hx hy heq]
        · rw [if_neg (not_lt_of_gt hgt), if_pos hgt]
  unfold addLatest
  cases ha : a.latest <;> cases hb : b.latest
  · rfl
  all_goals rw [ha, hb] at hlater
  all_goals exact congrArg some hlater

/-- **Two buckets merge either way.** -/
theorem addRoles_comm {a b : Roles} (h : SameReading a b) : addRoles a b = addRoles b a := by
  have hcounts : addCounts a.countValue b.countValue = addCounts b.countValue a.countValue := by
    cases a.countValue <;> cases b.countValue
    all_goals simp [addCounts, Nat.add_comm]
  unfold addRoles
  rw [addSums_comm a.sumValue, addSums_comm a.sumSq, addExtremes_comm oneEach_upRank takesMin_eq a.minValue,
    addExtremes_comm oneEach_downRank takesMax_eq a.maxValue, addBands_comm a.histogram,
    addSketches_comm a.distinctSketch, addLatest_comm h, hcounts]

/-- **The fold does not depend on the order of the rows** where they are steady, in any group of any
    grouping; and a merge of two buckets not on their sides, where readings of one instant are one. -/
theorem fold_order_free (d : MetricDefinition) {κ : Type} [DecidableEq κ] (groupOf : DatedFact → Option κ)
    {facts facts' : List DatedFact} (h : facts.Perm facts') :
    (∀ k, Steady w d (groupRows groupOf facts k) →
      foldRows w d (groupRows groupOf facts k) = foldRows w d (groupRows groupOf facts' k)) ∧
    ∀ a b, SameReading a b → addRoles a b = addRoles b a := by
  constructor
  · intro k hsteady
    have hrows : (groupRows groupOf facts k).Perm (groupRows groupOf facts' k) := (h.filter _).map _
    exact foldRows_perm w hrows hsteady
  · exact fun a b hab => addRoles_comm hab

/-- A row with a quantity, at the first instant. -/
def quantityRow (q : ℚ) : FactRow where
  eventTime := some 0
  column := fun name => if name = "quantity" then .decimal (.finite q) "" else .none

/-- A measure of the quantity. -/
def ofQuantity (a : Aggregation) : MetricDefinition where
  measures := [{ name := "quantity", aggregation := a, field := some (.column "quantity") }]

/-- A sum of two facts, either first. -/
theorem fold_order_free_sum :
    foldRows plainTexts (ofQuantity .sum)
        (groupRows (fun _ => some ()) [⟨quantityRow 3, none⟩, ⟨quantityRow (-5), none⟩] ()) =
      foldRows plainTexts (ofQuantity .sum)
        (groupRows (fun _ => some ()) [⟨quantityRow (-5), none⟩, ⟨quantityRow 3, none⟩] ()) := by
  refine (fold_order_free plainTexts (ofQuantity .sum) (fun _ => some ()) (List.Perm.swap _ _ [])).1 () ?_
  intro name last hlast ks hks
  have hmem := List.mem_filter.mp (List.mem_of_getLast? hlast)
  obtain rfl := List.mem_singleton.mp hmem.1
  obtain rfl : "quantity" = name := by simpa using hmem.2
  have hfits : Fits decimalContext [3, -5] := by
    refine ⟨0, by decide, by decide, ?_, by norm_num [decimalContext]⟩
    intro v hv
    rcases List.mem_pair.mp hv with rfl | rfl
    · exact ⟨3, by norm_num⟩
    · exact ⟨-5, by norm_num⟩
  refine ⟨[3, -5], ?_, hfits⟩
  have hvalues : (marks plainTexts (observations (ofQuantity .sum) "quantity"
      (groupRows (fun _ => some ()) [⟨quantityRow 3, none⟩, ⟨quantityRow (-5), none⟩] ()))).map
        (List.map Mark.value) = some [some (.finite 3), some (.finite (-5))] := by
    decide +kernel
  rw [hks] at hvalues
  exact Option.some.inj hvalues

/-- The fold of every definition, whatever the order of the rows. -/
def FoldOrderFree : Prop :=
  ∀ (w : PythonTexts) (d : MetricDefinition) (rows rows' : List FactRow), rows.Perm rows' →
    foldRows w d rows = foldRows w d rows'

/-- The context drops the last digit of a sum of 29 digits, and two small rows are lost in it one by one. -/
theorem rounded_by_arrival : ¬FoldOrderFree := by
  intro h
  have hperm : [quantityRow (10 ^ 28), quantityRow 4, quantityRow 4].Perm
      [quantityRow 4, quantityRow 4, quantityRow (10 ^ 28)] :=
    List.perm_append_singleton (quantityRow (10 ^ 28)) [quantityRow 4, quantityRow 4] |>.symm
  have hsums := congrArg (fun out => (out.bind fun b => b "quantity").bind Roles.sumValue)
    (h plainTexts (ofQuantity .sum) _ _ hperm)
  exact absurd hsums (by decide +kernel)

/-- Of two readings of one instant the first one stays. -/
theorem ties_by_arrival : ¬FoldOrderFree := by
  intro h
  have hlatest := congrArg (fun out => (out.bind fun b => b "quantity").bind Roles.latest)
    (h plainTexts (ofQuantity .latest) _ _ (List.Perm.swap (quantityRow 1) (quantityRow 2) []))
  exact absurd hlatest (by decide +kernel)

end RagPipeline.Analytics
