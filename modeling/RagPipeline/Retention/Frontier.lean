/-
  RagPipeline.Retention.Frontier — the position analytics publishes, and what it promises retention.

  A fold advances its tenant's frontier to the newest write it READ (`_update_state`, the greatest of
  the two) and publishes the minimum over the tenants that have a state row.  The position is sound
  when no transaction written at or before it is still unfolded.  What breaks that:

    * a window folded before an older one of the same tenant, or a transaction whose name capture has
      switched off: the frontier passes the rows left behind;
    * a tenant that never folded: it has no state row, and the minimum does not see it;
    * a transaction whose write is stamped before it commits, behind a position published meanwhile;
    * for the drop, that a position is a WRITE time and a day's end an EVENT time, and that a consumer
      that is gone, or never reported, holds nothing.

  `Careful` says of one event, on the state before it, that it does none of these; `frontier_sound_iff`
  that every state of a run is sound exactly if every event is careful.
-/
import Mathlib.Order.MinMax
import RagPipeline.Analytics.Fold
import RagPipeline.Retention.Worker

namespace RagPipeline.Retention

open RagPipeline.Stage2 RagPipeline.Lib RagPipeline.Analytics

/-! ## §1. The state. -/

/-- A row of `log_transactions` as the frontier sees it; `folded` says whether a fold has read the row
    since it was last written. -/
structure SourceRow where
  customerCode : String
  id : UUID
  startedAt : Option Instant
  transactionName : Option String
  updatedAt : Instant
  folded : Bool := false
  deriving DecidableEq

/-- The source, the tenants' frontiers, the cursor of the consumer, and the rows that were dropped before
    they were folded. -/
structure FrontierState where
  rows : List SourceRow
  frontiers : OrderedDict String (Option Instant)
  cursor : Option Cursor
  lost : List SourceRow

/-- Before anything happened. -/
def FrontierState.initial : FrontierState := ⟨[], OrderedDict.empty, none, []⟩

/-- What a fold is given. -/
structure FoldInput where
  customerCode : String
  window : UtcWindow
  suppressed : List String
  now : Instant

/-- What the worker is given; the other consumers report for themselves. -/
structure DropInput where
  covered : List Day
  tick : TickInput

/-- A step of the system. -/
inductive FrontierEvent where
  /-- Stage 2 inserts a transaction or rewrites it. -/
  | write (r : SourceRow)
  /-- Stage 2 deletes a transaction. -/
  | remove (customerCode : String) (id : UUID)
  | fold (i : FoldInput)
  | drop (i : DropInput)

/-! ## §2. The steps. -/

/-- The two columns a transaction is written by. -/
def SourceRow.sameTransaction (r r' : SourceRow) : Bool :=
  decide (r.customerCode = r'.customerCode ∧ r.id = r'.id)

/-- The fold reads the row. -/
def FoldInput.reads (i : FoldInput) (r : SourceRow) : Bool :=
  decide (r.customerCode = i.customerCode) && i.window.covers r.startedAt &&
    isCaptured i.suppressed r.transactionName

/-- `GREATEST` of two, which ignores a missing one. -/
def greatest : Option Instant → Option Instant → Option Instant
  | some a, some b => some (max a b)
  | some a, none => some a
  | none, b => b

/-- `frontier=max(…)` over the rows the fold read. -/
def FrontierState.newestRead (s : FrontierState) (i : FoldInput) : Option Instant :=
  ((s.rows.filter i.reads).map (·.updatedAt)).max?

/-- `_update_state`: the tenant's row, inserted or advanced. -/
def FrontierState.advanced (s : FrontierState) (i : FoldInput) : OrderedDict String (Option Instant) :=
  s.frontiers.set i.customerCode
    (greatest ((s.frontiers.get? i.customerCode).getD none) (s.newestRead i))

/-- `publish_retention_position`: the minimum, if every tenant with a row has a frontier. -/
def retentionPosition (frontiers : OrderedDict String (Option Instant)) : Option Instant :=
  if frontiers.values.all Option.isSome then (frontiers.values.filterMap id).min? else none

/-- One event. -/
def FrontierState.step (c : RetentionSettings) (s : FrontierState) : FrontierEvent → FrontierState
  | .write r =>
      { s with
        rows := (s.rows.filter fun r' => !r.sameTransaction r') ++ [{ r with folded := false }] }
  | .remove code id =>
      { s with rows := s.rows.filter fun r => decide (¬(r.customerCode = code ∧ r.id = id)) }
  | .fold i =>
      { s with
        rows := s.rows.map fun r => if i.reads r then { r with folded := true } else r
        frontiers := s.advanced i
        cursor :=
          match retentionPosition (s.advanced i) with
          | some p => some ⟨p, i.now⟩
          | none => s.cursor }
  | .drop i =>
      let tick := { i.tick with cursors := s.cursor.toList ++ i.tick.cursors }
      let gone := droppedDays c tick .logTransactions i.covered
      let isGone := fun r : SourceRow => r.startedAt.any fun t => decide (dayOf t ∈ gone)
      { s with
        rows := s.rows.filter fun r => !isGone r
        lost := s.lost ++ s.rows.filter fun r => isGone r && !r.folded }

/-- A run of events. -/
def FrontierState.run (c : RetentionSettings) (s : FrontierState) (evs : List FrontierEvent) :
    FrontierState :=
  evs.foldl (FrontierState.step c) s

/-! ## §3. What is promised, and what it takes. -/

/-- Nothing that was written at or before the published position is still unfolded, and nothing was
    dropped unfolded. -/
def FrontierState.Sound (s : FrontierState) : Prop :=
  (∀ x, s.cursor = some x → ∀ r ∈ s.rows, r.updatedAt ≤ x.position → r.folded = true) ∧ s.lost = []

/-- The write is stamped after the published position. -/
def FrontierState.WriteIsNews (s : FrontierState) (r : SourceRow) : Prop :=
  ∀ x ∈ s.cursor, x.position < r.updatedAt

/-- Every unfolded row that the fold does not read is newer than what some tenant has read: another tenant's frontier
    is older than the row, or missing; or the tenant's own frontier is, and all that this fold reads. -/
def FrontierState.HeldBack (s : FrontierState) (i : FoldInput) : Prop :=
  ∀ r ∈ s.rows, r.folded = false → i.reads r = false →
    (∃ p ∈ s.frontiers.items, p.1 ≠ i.customerCode ∧ ∀ f ∈ p.2, f < r.updatedAt) ∨
      (∀ f ∈ (s.frontiers.get? i.customerCode).getD none, f < r.updatedAt) ∧
        ∀ r' ∈ s.rows, i.reads r' = true → r'.updatedAt < r.updatedAt

/-- A day past retention with unfolded rows is held by something else, or analytics is reporting a position before
    its end. -/
def FrontierState.DropIsSafe (c : RetentionSettings) (s : FrontierState) (i : DropInput) : Prop :=
  ∀ r ∈ s.rows, r.folded = false → ∀ t ∈ r.startedAt, dayOf t ∈ i.covered →
    dayOf t < i.tick.today - c.logPartitionRetentionDays →
    blocked c i.tick (dayOf t) = true ∨
      ∃ x ∈ s.cursor, x.isLive c i.tick.now = true ∧ x.position < dayStart (dayOf t + 1)

/-- The event does none of the things that break the promise. -/
def FrontierState.Careful (c : RetentionSettings) (s : FrontierState) : FrontierEvent → Prop
  | .write r => s.WriteIsNews r
  | .remove _ _ => True
  | .fold i => s.HeldBack i
  | .drop i => s.DropIsSafe c i

instance (c : RetentionSettings) (s : FrontierState) : ∀ ev, Decidable (s.Careful c ev)
  | .write r => inferInstanceAs (Decidable (∀ x ∈ s.cursor, x.position < r.updatedAt))
  | .remove _ _ => inferInstanceAs (Decidable True)
  | .fold i => inferInstanceAs (Decidable (∀ r ∈ s.rows, r.folded = false → i.reads r = false →
      (∃ p ∈ s.frontiers.items, p.1 ≠ i.customerCode ∧ ∀ f ∈ p.2, f < r.updatedAt) ∨
        (∀ f ∈ (s.frontiers.get? i.customerCode).getD none, f < r.updatedAt) ∧
          ∀ r' ∈ s.rows, i.reads r' = true → r'.updatedAt < r.updatedAt))
  | .drop i => inferInstanceAs (Decidable (∀ r ∈ s.rows, r.folded = false → ∀ t ∈ r.startedAt, dayOf t ∈ i.covered →
      dayOf t < i.tick.today - c.logPartitionRetentionDays → blocked c i.tick (dayOf t) = true ∨
        ∃ x ∈ s.cursor, x.isLive c i.tick.now = true ∧ x.position < dayStart (dayOf t + 1)))

/-- Every event of the run is careful. -/
def CarefulRun (c : RetentionSettings) : FrontierState → List FrontierEvent → Prop
  | _, [] => True
  | s, ev :: evs => s.Careful c ev ∧ CarefulRun c (s.step c ev) evs

instance decidableCarefulRun (c : RetentionSettings) : ∀ (s : FrontierState) (evs : List FrontierEvent),
    Decidable (CarefulRun c s evs)
  | _, [] => inferInstanceAs (Decidable True)
  | s, ev :: evs =>
    have := decidableCarefulRun c (s.step c ev) evs
    inferInstanceAs (Decidable (s.Careful c ev ∧ CarefulRun c (s.step c ev) evs))

/-- Every state a run reaches is sound. -/
def SoundThroughout (c : RetentionSettings) (evs : List FrontierEvent) : Prop :=
  ∀ pre post, evs = pre ++ post → (FrontierState.initial.run c pre).Sound

/-! ## §4. Each event keeps the promise exactly if it is careful. -/

/-- What is older than a row is older in both. -/
theorem greatest_lt {a b : Option Instant} {t : Instant} (ha : ∀ x ∈ a, x < t) (hb : ∀ x ∈ b, x < t) :
    ∀ g ∈ greatest a b, g < t := by
  intro g hg
  cases a with
  | none => exact hb g hg
  | some x =>
    cases b with
    | none => exact ha g hg
    | some y =>
      obtain rfl : max x y = g := Option.some.inj hg
      exact max_lt (ha x rfl) (hb y rfl)

/-- What is not older is there, and not older. -/
theorem le_greatest {a b : Option Instant} {t : Instant} (h : (∃ x ∈ a, t ≤ x) ∨ ∃ x ∈ b, t ≤ x) :
    ∃ g ∈ greatest a b, t ≤ g := by
  cases a with
  | none =>
    rcases h with ⟨x, hx, -⟩ | h
    · exact absurd hx (Option.not_mem_none x)
    · exact h
  | some x =>
    cases b with
    | none =>
      rcases h with h | ⟨y, hy, -⟩
      · exact h
      · exact absurd hy (Option.not_mem_none y)
    | some y =>
      refine ⟨max x y, rfl, ?_⟩
      rcases h with ⟨x', hx', hle⟩ | ⟨y', hy', hle⟩
      · obtain rfl := Option.some.inj hx'
        exact hle.trans (le_max_left _ _)
      · obtain rfl := Option.some.inj hy'
        exact hle.trans (le_max_right _ _)

/-- The published position is the least frontier, of tenants that all have one. -/
theorem retentionPosition_eq_some {d : OrderedDict String (Option Instant)} {p : Instant} :
    retentionPosition d = some p ↔
      (∀ f ∈ d.values, ∃ t, f = some t) ∧ some p ∈ d.values ∧ ∀ t, some t ∈ d.values → p ≤ t := by
  unfold retentionPosition
  split
  · next hall =>
    have hsome : ∀ f ∈ d.values, ∃ t, f = some t := fun f hf =>
      Option.isSome_iff_exists.mp (List.all_eq_true.mp hall f hf)
    have hmem : ∀ t, t ∈ d.values.filterMap id ↔ some t ∈ d.values := by
      intro t
      simp [List.mem_filterMap]
    rw [List.min?_eq_some_iff, hmem]
    exact ⟨fun h => ⟨hsome, h.1, fun t ht => h.2 t ((hmem t).mpr ht)⟩,
      fun h => ⟨h.2.1, fun t ht => h.2.2 t ((hmem t).mp ht)⟩⟩
  · next hnot =>
    refine iff_of_false (by simp) fun h => hnot (List.all_eq_true.mpr fun f hf => ?_)
    obtain ⟨t, rfl⟩ := h.1 f hf
    rfl

/-- The frontiers after a fold: the tenant's own, and those of the others. -/
theorem mem_advanced {s : FrontierState} {i : FoldInput} {f : Option Instant} :
    f ∈ (s.advanced i).values ↔
      f = greatest ((s.frontiers.get? i.customerCode).getD none) (s.newestRead i) ∨
        ∃ p ∈ s.frontiers.items, p.1 ≠ i.customerCode ∧ p.2 = f := by
  have hvalues : ∀ d : OrderedDict String (Option Instant), f ∈ d.values ↔ ∃ k, d.get? k = some f := by
    intro d
    constructor
    · intro h
      obtain ⟨p, hp, rfl⟩ := List.mem_map.mp h
      exact ⟨p.1, OrderedDict.get?_eq_some.mpr hp⟩
    · rintro ⟨k, hk⟩
      exact OrderedDict.mem_values_of_get? hk
  rw [hvalues]
  unfold FrontierState.advanced
  constructor
  · rintro ⟨k, hk⟩
    by_cases hcode : k = i.customerCode
    · rw [hcode, OrderedDict.get?_set_self] at hk
      exact .inl (Option.some.inj hk).symm
    · rw [OrderedDict.get?_set_ne _ _ hcode] at hk
      exact .inr ⟨(k, f), OrderedDict.get?_eq_some.mp hk, hcode, rfl⟩
  · rintro (rfl | ⟨⟨k, g⟩, hp, hcode, rfl⟩)
    · exact ⟨i.customerCode, OrderedDict.get?_set_self _ _ _⟩
    · exact ⟨k, by rw [OrderedDict.get?_set_ne _ _ hcode]; exact OrderedDict.get?_eq_some.mpr hp⟩

/-- The newest row read is older than a row exactly if all that are read are. -/
theorem newestRead_lt {s : FrontierState} {i : FoldInput} {t : Instant} :
    (∀ x ∈ s.newestRead i, x < t) ↔ ∀ r ∈ s.rows, i.reads r = true → r.updatedAt < t := by
  unfold FrontierState.newestRead
  have hread : ∀ r, r ∈ s.rows → i.reads r = true →
      r.updatedAt ∈ (s.rows.filter i.reads).map (·.updatedAt) := fun r hr hreads =>
    List.mem_map_of_mem (List.mem_filter.mpr ⟨hr, hreads⟩)
  cases hmax : ((s.rows.filter i.reads).map (·.updatedAt)).max? with
  | none =>
    have hnil := List.max?_eq_none_iff.mp hmax
    refine iff_of_true (fun x hx => absurd hx (Option.not_mem_none x)) fun r hr hreads => ?_
    have := hread r hr hreads
    rw [hnil] at this
    exact absurd this List.not_mem_nil
  | some m =>
    obtain ⟨hmem, hle⟩ := List.max?_eq_some_iff.mp hmax
    constructor
    · exact fun h r hr hreads => (hle _ (hread r hr hreads)).trans_lt (h m rfl)
    · intro h x hx
      obtain rfl := Option.some.inj hx
      obtain ⟨r, hr, rfl⟩ := List.mem_map.mp hmem
      obtain ⟨hr, hreads⟩ := List.mem_filter.mp hr
      exact h r hr hreads

theorem sound_write_iff {c : RetentionSettings} {s : FrontierState} (h : s.Sound) (r : SourceRow) :
    (s.step c (.write r)).Sound ↔ s.WriteIsNews r := by
  constructor
  · intro hsound x hx
    by_contra hle
    have hmem : { r with folded := false } ∈ (s.step c (.write r)).rows :=
      List.mem_append_right _ (List.mem_singleton_self _)
    exact absurd (hsound.1 x hx _ hmem (not_lt.mp hle)) Bool.false_ne_true
  · refine fun hnews => ⟨fun x hx r' hr' hle => ?_, h.2⟩
    rcases List.mem_append.mp hr' with hr' | hr'
    · exact h.1 x hx r' (List.mem_filter.mp hr').1 hle
    · rw [List.mem_singleton.mp hr'] at hle
      exact absurd (hnews x hx) (not_lt.mpr hle)

theorem sound_remove {c : RetentionSettings} {s : FrontierState} (h : s.Sound) (code : String) (id : UUID) :
    (s.step c (.remove code id)).Sound :=
  ⟨fun x hx r hr hle => h.1 x hx r (List.mem_filter.mp hr).1 hle, h.2⟩

/-- What a fold leaves unfolded was there, unfolded and unread; and stays. -/
theorem unfolded_of_fold {c : RetentionSettings} {s : FrontierState} {i : FoldInput} {r : SourceRow}
    (hun : r.folded = false) : r ∈ (s.step c (.fold i)).rows ↔ r ∈ s.rows ∧ i.reads r = false := by
  constructor
  · intro hr
    obtain ⟨r₀, hr₀, heq⟩ := List.mem_map.mp hr
    by_cases hread : i.reads r₀ = true
    · rw [if_pos hread] at heq
      rw [← heq] at hun
      exact absurd hun (by simp)
    · rw [if_neg hread] at heq
      subst heq
      exact ⟨hr₀, by simpa using hread⟩
  · rintro ⟨hr, hread⟩
    exact List.mem_map.mpr ⟨r, hr, by rw [if_neg (by simp [hread])]⟩

/-- **A fold** publishes no position at or past a row it leaves, exactly if some tenant holds it back. -/
theorem sound_fold_iff {c : RetentionSettings} {s : FrontierState} (h : s.Sound) (i : FoldInput) :
    (s.step c (.fold i)).Sound ↔ s.HeldBack i := by
  have hcursor : (s.step c (.fold i)).cursor =
      match retentionPosition (s.advanced i) with
      | some p => some ⟨p, i.now⟩
      | none => s.cursor := rfl
  have hsound : (s.step c (.fold i)).Sound ↔ ∀ p, retentionPosition (s.advanced i) = some p →
      ∀ r ∈ s.rows, r.folded = false → i.reads r = false → p < r.updatedAt := by
    constructor
    · intro hs p hp r hr hun hread
      by_contra hle
      rw [hp] at hcursor
      have hfolded := hs.1 _ hcursor r ((unfolded_of_fold hun).mpr ⟨hr, hread⟩) (not_lt.mp hle)
      rw [hun] at hfolded
      exact Bool.false_ne_true hfolded
    · refine fun hp => ⟨fun x hx r hr hle => ?_, h.2⟩
      by_contra hun
      have hun : r.folded = false := by simpa using hun
      obtain ⟨hold, hread⟩ := (unfolded_of_fold hun).mp hr
      rw [hcursor] at hx
      cases hpos : retentionPosition (s.advanced i) with
      | none =>
        -- nothing new was published, and the old position was sound
        rw [hpos] at hx
        have hfolded := h.1 x hx r hold hle
        rw [hun] at hfolded
        exact Bool.false_ne_true hfolded
      | some p =>
        rw [hpos] at hx
        obtain rfl := Option.some.inj hx
        exact absurd (hp p hpos r hold hun hread) (not_lt.mpr hle)
  rw [hsound]
  constructor
  · intro hp r hr hun hread
    by_contra hnot
    rw [not_or, not_and_or] at hnot
    obtain ⟨hothers, hown⟩ := hnot
    -- every frontier is there and reaches the row, so the least one is published
    have hreach : ∀ f ∈ (s.advanced i).values, ∃ t ∈ f, r.updatedAt ≤ t := by
      intro f hf
      rcases mem_advanced.mp hf with rfl | ⟨p, hmem, hcode, rfl⟩
      · refine le_greatest ?_
        rcases hown with hown | hown
        · simp only [not_forall, not_lt] at hown
          obtain ⟨f, hf, hle⟩ := hown
          exact .inl ⟨f, hf, hle⟩
        · rw [← newestRead_lt] at hown
          simp only [not_forall, not_lt] at hown
          obtain ⟨f, hf, hle⟩ := hown
          exact .inr ⟨f, hf, hle⟩
      · by_contra hno
        simp only [not_exists, not_and, not_le] at hno
        exact hothers ⟨p, hmem, hcode, hno⟩
    obtain ⟨p, hpos⟩ : ∃ p, retentionPosition (s.advanced i) = some p := by
      cases hmin : ((s.advanced i).values.filterMap id).min? with
      | none =>
        have hnil := List.min?_eq_none_iff.mp hmin
        obtain ⟨t, ht, -⟩ := hreach _ (mem_advanced.mpr (.inl rfl))
        have hmem : t ∈ (s.advanced i).values.filterMap id :=
          List.mem_filterMap.mpr ⟨_, mem_advanced.mpr (.inl rfl), ht⟩
        rw [hnil] at hmem
        exact absurd hmem List.not_mem_nil
      | some p =>
        refine ⟨p, ?_⟩
        unfold retentionPosition
        rw [if_pos, hmin]
        refine List.all_eq_true.mpr fun f hf => ?_
        obtain ⟨t, ht, -⟩ := hreach f hf
        rw [Option.mem_def.mp ht]
        rfl
    obtain ⟨t, ht, hle⟩ := hreach _ (retentionPosition_eq_some.mp hpos).2.1
    obtain rfl := Option.some.inj ht
    exact absurd (hp _ hpos r hr hun hread) (not_lt.mpr hle)
  · intro hheld p hpos r hr hun hread
    obtain ⟨hsome, -, hleast⟩ := retentionPosition_eq_some.mp hpos
    have hbehind : ∀ f ∈ (s.advanced i).values, (∀ t ∈ f, t < r.updatedAt) → p < r.updatedAt := by
      intro f hf hlt
      obtain ⟨t, rfl⟩ := hsome f hf
      exact (hleast t hf).trans_lt (hlt t rfl)
    rcases hheld r hr hun hread with ⟨q, hq, hcode, hlt⟩ | ⟨hfrontier, hreads⟩
    · exact hbehind q.2 (mem_advanced.mpr (.inr ⟨q, hq, hcode, rfl⟩)) hlt
    · exact hbehind _ (mem_advanced.mpr (.inl rfl)) (greatest_lt hfrontier (newestRead_lt.mpr hreads))

/-- A day is held with the cursor of analytics exactly if it is without it, or by it. -/
theorem blocked_cursor_iff {c : RetentionSettings} {i : TickInput} {cursor : Option Cursor} {d : Day} :
    blocked c { i with cursors := cursor.toList ++ i.cursors } d = true ↔
      blocked c i d = true ∨ ∃ x ∈ cursor, x.isLive c i.now = true ∧ x.position < dayStart (d + 1) := by
  constructor
  · intro h
    simp only [blocked, Bool.or_eq_true, blocksUntil_iff, List.mem_append, Option.mem_toList] at h ⊢
    rcases h with (hp | ⟨x, hx | hx, hrest⟩) | hh
    · exact .inl (.inl (.inl hp))
    · exact .inr ⟨x, hx, hrest⟩
    · exact .inl (.inl (.inr ⟨x, hx, hrest⟩))
    · exact .inl (.inr hh)
  · rintro (h | ⟨x, hx, hlive, hpos⟩)
    · exact blocked_append _ h
    · exact blocked_of_cursor (List.mem_append_left _ (Option.mem_toList.mpr hx)) hlive hpos

/-- **A drop** loses nothing unfolded exactly if every such day is held. -/
theorem sound_drop_iff {c : RetentionSettings} {s : FrontierState} (h : s.Sound) (i : DropInput) :
    (s.step c (.drop i)).Sound ↔ s.DropIsSafe c i := by
  have hgone : ∀ {t : Instant}, dayOf t ∈ droppedDays c { i.tick with cursors := s.cursor.toList ++ i.tick.cursors }
      .logTransactions i.covered ↔ dayOf t ∈ i.covered ∧ dayOf t < i.tick.today - c.logPartitionRetentionDays ∧
        ¬(blocked c i.tick (dayOf t) = true ∨
          ∃ x ∈ s.cursor, x.isLive c i.tick.now = true ∧ x.position < dayStart (dayOf t + 1)) := by
    intro t
    rw [mem_droppedDays rfl, ← blocked_cursor_iff, Bool.not_eq_true]
    simp [lagsOneDay]
  -- nothing unfolded is lost exactly when no dropped day holds the start of an unfolded row
  have hlost : (s.step c (.drop i)).Sound ↔ ∀ r ∈ s.rows, r.folded = false → ∀ t ∈ r.startedAt,
      dayOf t ∉ droppedDays c { i.tick with cursors := s.cursor.toList ++ i.tick.cursors }
        .logTransactions i.covered := by
    constructor
    · rintro ⟨-, hlost⟩ r hr hun t ht hday
      have hmem : r ∈ (s.step c (.drop i)).lost := by
        refine List.mem_append_right _ (List.mem_filter.mpr ⟨hr, ?_⟩)
        have hstart := Option.mem_def.mp ht
        simp only [hstart, hun, Option.any_some, Bool.not_false, Bool.and_true, decide_eq_true_eq]
        exact hday
      rw [hlost] at hmem
      exact absurd hmem List.not_mem_nil
    · refine fun hnone => ⟨fun x hx r hr hle => h.1 x hx r (List.mem_filter.mp hr).1 hle, ?_⟩
      show s.lost ++ _ = []
      rw [h.2, List.nil_append, List.filter_eq_nil_iff]
      intro r hr hgone
      rw [Bool.and_eq_true, Option.any_eq_true] at hgone
      obtain ⟨⟨t, ht, hday⟩, hun⟩ := hgone
      exact hnone r hr (by simpa using hun) t ht (of_decide_eq_true hday)
  rw [hlost]
  refine forall_congr' fun r => forall_congr' fun hr => forall_congr' fun hun => forall_congr' fun t =>
    forall_congr' fun ht => ?_
  rw [hgone, not_and, not_and, not_not]

/-! ## §5. Every run. -/

theorem sound_step_iff {c : RetentionSettings} {s : FrontierState} (h : s.Sound) (ev : FrontierEvent) :
    (s.step c ev).Sound ↔ s.Careful c ev := by
  cases ev with
  | write r => exact sound_write_iff h r
  | remove code id => exact iff_of_true (sound_remove h code id) trivial
  | fold i => exact sound_fold_iff h i
  | drop i => exact sound_drop_iff h i

/-- From a sound state every state reached is sound exactly if every event is careful. -/
theorem sound_run_iff {c : RetentionSettings} {s : FrontierState} (h : s.Sound) (evs : List FrontierEvent) :
    (∀ pre post, evs = pre ++ post → (s.run c pre).Sound) ↔ CarefulRun c s evs := by
  induction evs generalizing s with
  | nil =>
    refine iff_of_true (fun pre post hsplit => ?_) trivial
    rw [(List.append_eq_nil_iff.mp hsplit.symm).1]
    exact h
  | cons ev evs ih =>
    constructor
    · intro hall
      have hnext : (s.step c ev).Sound := hall [ev] evs rfl
      exact ⟨(sound_step_iff h ev).mp hnext, (ih hnext).mp fun pre post hsplit => hall (ev :: pre) post (by rw [hsplit]; rfl)⟩
    · rintro ⟨hev, hevs⟩ pre post hsplit
      have hnext := (sound_step_iff h ev).mpr hev
      cases pre with
      | nil => exact h
      | cons ev' pre =>
        obtain ⟨rfl, hrest⟩ := List.cons.inj hsplit
        exact (ih hnext).mpr hevs pre post hrest

/-- **In every state of a run** the published position is sound and nothing was dropped before it was folded, exactly
    if every event of the run is careful. -/
theorem frontier_sound_iff (c : RetentionSettings) (evs : List FrontierEvent) :
    SoundThroughout c evs ↔ CarefulRun c FrontierState.initial evs :=
  sound_run_iff ⟨fun x hx => absurd hx (Option.not_mem_none x), rfl⟩ evs

/-- A transaction of a tenant, as it is written. -/
def writtenAt (code : String) (id : UUID) (started updated : Instant) : FrontierEvent :=
  .write { customerCode := code, id := id, startedAt := some started, transactionName := none,
           updatedAt := updated }

/-- The fold of `[lo, hi)` for a tenant. -/
def foldOf (code : String) (lo hi : Instant) : FrontierEvent := .fold ⟨code, ⟨lo, hi⟩, [], 100⟩

/-- A tick on the hundredth day, with the partition of the first day. -/
def dropFirstDay : FrontierEvent := .drop ⟨[0], ⟨100, 100, [], [], some []⟩⟩

-- Two tenants: the one without a frontier is newer than the other's; a day is held by an unfolded row, then dropped.
example : CarefulRun {} FrontierState.initial
    [writtenAt "A" 1 5 10, writtenAt "B" 2 60 20, foldOf "A" 0 50, dropFirstDay, foldOf "B" 50 70,
     writtenAt "A" 3 (dayStart 1) (dayStart 1), foldOf "A" (dayStart 1) (dayStart 2), dropFirstDay] := by decide

/-- Two transactions of one tenant; the window of the younger one is folded first. -/
def youngerFirst : List FrontierEvent :=
  [writtenAt "A" 1 5 10, writtenAt "A" 2 60 20, foldOf "A" 50 70]

/-- Two tenants; one of them has never been folded. -/
def neverFolded : List FrontierEvent :=
  [writtenAt "A" 1 5 10, writtenAt "B" 2 60 20, foldOf "B" 50 70]

/-- Two transactions of one tenant; capture has the name of the older one switched off. -/
def neverCaptured : List FrontierEvent :=
  [.write ⟨"A", 1, some 5, some "PING", 10, false⟩, writtenAt "A" 2 60 20, .fold ⟨"A", ⟨0, 70⟩, ["PING"], 100⟩]

/-- Each way the position passes a transaction that is not folded. -/
theorem unfolded_before_position :
    ¬SoundThroughout {} youngerFirst ∧ ¬SoundThroughout {} neverFolded ∧ ¬SoundThroughout {} neverCaptured := by
  refine ⟨fun h => ?_, fun h => ?_, fun h => ?_⟩
  · have hfolded := (h youngerFirst [] rfl).1 ⟨20, 100⟩ (by rfl) ⟨"A", 1, some 5, none, 10, false⟩ (by decide) (by decide)
    exact absurd hfolded (by decide)
  · have hfolded := (h neverFolded [] rfl).1 ⟨20, 100⟩ (by rfl) ⟨"A", 1, some 5, none, 10, false⟩ (by decide) (by decide)
    exact absurd hfolded (by decide)
  · have hfolded := (h neverCaptured [] rfl).1 ⟨20, 100⟩ (by rfl) ⟨"A", 1, some 5, some "PING", 10, false⟩ (by decide)
      (by decide)
    exact absurd hfolded (by decide)

end RagPipeline.Retention
