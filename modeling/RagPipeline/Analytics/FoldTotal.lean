/-
  RagPipeline.Analytics.FoldTotal — when `fold` returns.

    * `Extremes`       — what `min` and `max` can compare;
    * `Recordable`     — what the roles of one aggregation can take;
    * `FoldReads`      — the same for every measure of a definition;
    * `foldRows_isSome` — `fold` returns exactly then.
-/
import RagPipeline.Analytics.RowOrder

namespace RagPipeline.Analytics

open RagPipeline.Stage2 RagPipeline.Lib

variable (w : PythonTexts)

/-! ## §1. Extremes. -/

/-- A value that has a place among the numbers: no NaN. -/
def Comparable (value : Option Number) : Prop := ∃ x, value = some x ∧ x.rank ≠ none

/-- What `min` and `max` can go through: from the first number on, one value or only numbers with a place. -/
def Extremes (values : List (Option Number)) : Prop :=
  (values.dropWhile Option.isNone).length ≤ 1 ∨ ∀ v ∈ values.dropWhile Option.isNone, Comparable v

section Extremes

variable {L : Type} [LinearOrder L] {rank : Number → Option (Unit × L)} {takes : Number → Number → Option Bool}

theorem extreme_some (htakes : takes = below rank) (c : Number) (v : Option Number) :
    extreme takes (some c) v = (v.bind (pick rank c)).map some := by
  subst htakes
  cases v with
  | none => rfl
  | some v =>
    show (below rank v c).map (fun t => if t then some v else some c) =
      ((below rank v c).map fun t => if t then v else c).map some
    cases below rank v c with
    | none => rfl
    | some t => cases t <;> rfl

theorem exists_map_some {α : Type} {vs : List (Option α)} (h : none ∉ vs) : ∃ xs : List α, vs = xs.map some := by
  induction vs with
  | nil => exact ⟨[], rfl⟩
  | cons v vs ih =>
    obtain ⟨xs, rfl⟩ := ih fun hn => h (List.mem_cons_of_mem _ hn)
    obtain ⟨x, rfl⟩ := Option.ne_none_iff_exists'.mp fun hv : v = none => h (hv ▸ List.mem_cons_self)
    exact ⟨x :: xs, rfl⟩

/-- Over numbers alone, the loop picks. -/
theorem extremes_numbers (htakes : takes = below rank) (xs : List Number) (c : Number) :
    (xs.map some).foldlM (extreme takes) (some c) = (xs.foldlM (pick rank) c).map some := by
  induction xs generalizing c with
  | nil => rfl
  | cons x xs ih =>
    rw [List.map_cons, List.foldlM_cons, List.foldlM_cons, extreme_some htakes]
    show (((pick rank c x).map some).bind fun cur => (xs.map some).foldlM (extreme takes) cur) = _
    cases pick rank c x with
    | none => rfl
    | some y => exact ih y

/-- A value that is no number cannot come after one. -/
theorem extremes_raise (htakes : takes = below rank) {vs : List (Option Number)} (hnone : none ∈ vs) (c : Number) :
    vs.foldlM (extreme takes) (some c) = none := by
  induction vs generalizing c with
  | nil => cases hnone
  | cons v vs ih =>
    rw [List.foldlM_cons, extreme_some htakes]
    cases v with
    | none => rfl
    | some v =>
      have hrest : none ∈ vs := (List.mem_cons.mp hnone).resolve_left (by simp)
      show (((pick rank c v).map some).bind fun cur => vs.foldlM (extreme takes) cur) = none
      cases pick rank c v with
      | none => rfl
      | some y => exact ih hrest y

/-- After the first number. -/
theorem extremes_some (htakes : takes = below rank) (hrank : ∀ x, rank x = none ↔ x.rank = none) (c : Number)
    (vs : List (Option Number)) :
    (vs.foldlM (extreme takes) (some c)).isSome ↔ vs = [] ∨ (c.rank ≠ none ∧ ∀ v ∈ vs, Comparable v) := by
  by_cases hall : ∃ xs : List Number, vs = xs.map some
  · obtain ⟨xs, rfl⟩ := hall
    rw [extremes_numbers htakes, Option.isSome_map, foldlM_pick_isSome, List.map_eq_nil_iff]
    refine or_congr Iff.rfl ⟨?_, ?_⟩
    · rintro ⟨a, hc, hx⟩
      refine ⟨fun hn => ?_, fun v hv => ?_⟩
      · rw [(hrank c).mpr hn] at hc
        cases hc
      · obtain ⟨x, hmem, rfl⟩ := List.mem_map.mp hv
        obtain ⟨b, hb, -⟩ := hx x hmem
        refine ⟨x, rfl, fun hn => ?_⟩
        rw [(hrank x).mpr hn] at hb
        cases hb
    · rintro ⟨hc, hx⟩
      obtain ⟨a, ha⟩ := Option.ne_none_iff_exists'.mp fun hn => hc ((hrank c).mp hn)
      refine ⟨a, ha, fun v hv => ?_⟩
      obtain ⟨y, hy, hplace⟩ := hx (some v) (List.mem_map_of_mem hv)
      obtain rfl := Option.some.inj hy
      obtain ⟨b, hb⟩ := Option.ne_none_iff_exists'.mp fun hn => hplace ((hrank v).mp hn)
      exact ⟨b, hb, rfl⟩
  · have hnone : none ∈ vs := by
      by_contra hmem
      exact hall (exists_map_some hmem)
    rw [extremes_raise htakes hnone]
    constructor
    · intro h
      cases h
    · rintro (rfl | ⟨-, hx⟩)
      · cases hnone
      · obtain ⟨x, hx, -⟩ := hx none hnone
        cases hx

/-- **Keeping the least of the values raises nothing** exactly on such values. -/
theorem extremes_isSome (htakes : takes = below rank) (hrank : ∀ x, rank x = none ↔ x.rank = none)
    (vs : List (Option Number)) : (vs.foldlM (extreme takes) none).isSome ↔ Extremes vs := by
  induction vs with
  | nil => exact ⟨fun _ => Or.inl (Nat.zero_le 1), fun _ => rfl⟩
  | cons v vs ih =>
    rw [List.foldlM_cons]
    cases v with
    | none => exact ih
    | some x =>
      show (vs.foldlM (extreme takes) (some x)).isSome ↔ _
      rw [extremes_some htakes hrank]
      unfold Extremes
      rw [List.dropWhile_cons_of_neg (by simp)]
      constructor
      · rintro (rfl | ⟨hx, hvs⟩)
        · exact Or.inl (Nat.le_refl 1)
        · refine Or.inr fun v hv => ?_
          cases List.mem_cons.mp hv with
          | inl he => exact ⟨x, he, hx⟩
          | inr hv => exact hvs v hv
      · rintro (hlen | hall)
        · rw [List.length_cons] at hlen
          exact Or.inl (List.length_eq_zero_iff.mp (by omega))
        · obtain ⟨y, hy, hplace⟩ := hall (some x) List.mem_cons_self
          obtain rfl := Option.some.inj hy
          exact Or.inr ⟨hplace, fun v hv => hall v (List.mem_cons_of_mem _ hv)⟩

end Extremes

/-! ## §2. The roles of a bucket. -/

theorem upRank_none (x : Number) : upRank x = none ↔ x.rank = none := Option.map_eq_none_iff

theorem downRank_none (x : Number) : downRank x = none ↔ x.rank = none := Option.map_eq_none_iff

/-- A value that `float` takes. -/
def Banded (value : Option Number) : Prop := ∃ x, value = some x ∧ x ≠ .snan

/-- A finite number fits a double, or is infinite there. -/
theorem float_finite_isSome (q : ℚ) : (float (.finite q)).isSome := by
  unfold float
  split
  · split <;> rfl
  · next h => cases h
  · next h _ => exact (h q rfl).elim

theorem addMarkBand_isSome (h : List ℕ) (k : Mark) : (addMarkBand h k).isSome ↔ Banded k.value := by
  unfold addMarkBand Banded
  cases k.value with
  | none => simp
  | some x =>
    rw [Option.bind_some]
    unfold addBand bandOf
    rw [Option.isSome_map, Option.isSome_map]
    cases x with
    | finite q => exact ⟨fun _ => ⟨_, rfl, fun h => by cases h⟩, fun _ => float_finite_isSome q⟩
    | infinity t => exact ⟨fun _ => ⟨_, rfl, fun h => by cases h⟩, fun _ => rfl⟩
    | nan => exact ⟨fun _ => ⟨_, rfl, fun h => by cases h⟩, fun _ => rfl⟩
    | snan =>
      constructor
      · intro h
        cases h
      · rintro ⟨x, hx, hne⟩
        exact absurd (Option.some.inj hx).symm hne

theorem bands_isSome (ks : List Mark) (h : List ℕ) :
    (ks.foldlM addMarkBand h).isSome ↔ ∀ k ∈ ks, Banded k.value := by
  induction ks generalizing h with
  | nil => exact ⟨fun _ k hk => (nomatch hk), fun _ => rfl⟩
  | cons k ks ih =>
    rw [List.foldlM_cons, List.forall_mem_cons, ← addMarkBand_isSome h]
    cases addMarkBand h k with
    | none => simp
    | some h' => simpa using ih h'

/-- The numbers of some marks add up: no addition of the running sum traps. -/
def AddsUp (ks : List Mark) : Prop := (ks.foldlM addValue Number.zero).isSome

/-- Their squares do. -/
def SquaresAddUp (ks : List Mark) : Prop := (ks.foldlM addSquare Number.zero).isSome

/-- What the roles of an aggregation can take. -/
def Recordable (ks : List Mark) : Aggregation → Prop
  | .sum | .average => AddsUp ks
  | .stats => AddsUp ks ∧ SquaresAddUp ks
  | .extent => Extremes (ks.map Mark.value)
  | .percentile => ∀ k ∈ ks, Banded k.value
  | .count | .latest | .distinct => True

theorem recordAll_isSome {a : Aggregation} (ks : List Mark) :
    (ks.foldlM recordMark a.emptyRoles).isSome ↔ Recordable ks a := by
  have hmin := extremes_isSome takesMin_eq upRank_none (ks.map Mark.value)
  have hmax := extremes_isSome takesMax_eq downRank_none (ks.map Mark.value)
  rw [List.foldlM_map] at hmin hmax
  rw [recordAll_eq]
  cases a with
  | count => exact ⟨fun _ => trivial, fun _ => rfl⟩
  | latest => exact ⟨fun _ => trivial, fun _ => rfl⟩
  | distinct => exact ⟨fun _ => trivial, fun _ => rfl⟩
  | sum =>
    show _ ↔ (ks.foldlM addValue Number.zero).isSome
    simp only [Aggregation.emptyRoles, onRole]
    cases ks.foldlM addValue Number.zero <;> rfl
  | average =>
    show _ ↔ (ks.foldlM addValue Number.zero).isSome
    simp only [Aggregation.emptyRoles, onRole]
    cases ks.foldlM addValue Number.zero <;> rfl
  | stats =>
    show _ ↔ (ks.foldlM addValue Number.zero).isSome ∧ (ks.foldlM addSquare Number.zero).isSome
    simp only [Aggregation.emptyRoles, onRole]
    cases ks.foldlM addValue Number.zero <;> cases ks.foldlM addSquare Number.zero <;> simp
  | extent =>
    show _ ↔ Extremes (ks.map Mark.value)
    simp only [Aggregation.emptyRoles, onRole]
    -- both extremes raise on the same values
    revert hmin hmax
    generalize ks.foldlM (fun cur k => extreme takesMin cur k.value) none = least
    generalize ks.foldlM (fun cur k => extreme takesMax cur k.value) none = greatest
    intro hmin hmax
    rw [← hmin]
    rw [← hmin] at hmax
    cases least with
    | none => simp
    | some x =>
      cases greatest with
      | none => simp at hmax
      | some y => simp
  | percentile =>
    rw [Recordable, ← bands_isSome ks emptyBands]
    simp only [Aggregation.emptyRoles, onRole]
    cases ks.foldlM addMarkBand emptyBands <;> simp

/-! ## §3. The fold. -/

/-- The observations of one bucket can be read: the keys of a sketch, or the marks of the other roles. -/
def Readable (os : List Observation) (a : Aggregation) : Prop :=
  if a = .distinct then ∀ o ∈ os, (identityOf w o).isSome
  else ∃ ks, marks w os = some ks ∧ Recordable ks a

/-- **What the fold can read**, name by name. -/
def FoldReads (d : MetricDefinition) (rows : List FactRow) : Prop :=
  ∀ name last, d.lastNamed name = some last → Readable w (observations d name rows) last.aggregation

theorem bucket_isSome (os : List Observation) (a : Aggregation) :
    (os.foldlM (fun b o => observe w o.1 o.2 b) a.emptyRoles).isSome ↔ Readable w os a := by
  unfold Readable
  by_cases ha : a = .distinct
  · subst ha
    rw [if_pos rfl]
    have hkeys : os.foldlM (fun b o => observe w o.1 o.2 b) Aggregation.distinct.emptyRoles = _ :=
      foldlM_keys w os Sketch.empty 0
    rw [hkeys, Option.isSome_map]
    unfold identitiesOf
    rw [Option.isSome_map, mapM_isSome]
    simp only [Option.isSome_map]
  · have hshape : a.emptyRoles.distinctSketch = none := by
      cases a <;> first | rfl | exact absurd rfl ha
    rw [if_neg ha, foldlM_marks w os hshape]
    cases marks w os with
    | none => simp
    | some ks => simp [recordAll_isSome]

/-- **The fold returns** exactly on what it can read. -/
theorem foldRows_isSome (d : MetricDefinition) (rows : List FactRow) :
    (foldRows w d rows).isSome ↔ FoldReads w d rows := by
  have hbucket : ∀ name, ((observations d name rows).foldlM (observeNamed w) (d.empty name)).isSome ↔
      ∀ last, d.lastNamed name = some last → Readable w (observations d name rows) last.aggregation := by
    intro name
    cases hlast : d.lastNamed name with
    | none =>
      rw [observations_unnamed hlast]
      exact ⟨fun _ last h => (nomatch h), fun _ => rfl⟩
    | some last =>
      have hempty : d.empty name = some last.aggregation.emptyRoles :=
        congrArg (Option.map fun m : Measure => m.aggregation.emptyRoles) hlast
      rw [hempty, foldlM_observeNamed, Option.isSome_map, bucket_isSome]
      constructor
      · rintro h last' he
        exact Option.some.inj he ▸ h
      · exact fun h => h last rfl
  unfold FoldReads
  simp only [← hbucket]
  constructor
  · intro h name
    obtain ⟨out, hout⟩ := Option.isSome_iff_exists.mp h
    rw [(foldRows_iff w d rows out).mp hout name]
    rfl
  · intro h
    choose out hout using fun name => Option.isSome_iff_exists.mp (h name)
    rw [(foldRows_iff w d rows out).mpr hout]
    rfl

end RagPipeline.Analytics
