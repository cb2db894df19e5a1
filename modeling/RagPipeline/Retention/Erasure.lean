/-
  RagPipeline.Retention.Erasure — facts whose transactions retention has dropped.

  The facts are kept forever (`droppedDays_analyticsFacts`); their source is not.  A fold that looks at
  a dropped day finds facts without transactions there and reverses them: it cannot tell a partition
  that was dropped from a transaction Stage 2 removed.  So a dropped transaction's fact is safe exactly
  as long as no ticket reaches it, and the paths that publish are many: every Stage 2 window, every edit
  of a metric, and every switch that was flipped, from `history_starts_at` on.

  `Distant` says of one event that it brings no ticket and no dropped fact together; `erases_nothing`
  that no fold of a run of such events takes a fact of a dropped transaction away.
-/
import RagPipeline.Analytics.Tickets
import RagPipeline.Retention.Worker

namespace RagPipeline.Retention

open RagPipeline.Stage2 RagPipeline.Lib RagPipeline.Analytics

variable {Fp : Type} [DecidableEq Fp] {fw : FoldWorld Fp}

/-! ## §1. The state. -/

/-- The log tables of a tenant, its facts, its open tickets and its state row; `dropped` are the
    identities of the transactions retention has dropped and that have not come back. -/
structure Archive (fw : FoldWorld Fp) where
  source : Source Fp
  facts : Facts fw
  tickets : List PendingWindow
  historyStartsAt : Option Instant
  sourceWatermark : Option Instant
  dropped : List FactKey

/-- What one fold is given: the due tickets, one of their slices, and what it reads. -/
structure FoldOf (Fp : Type) where
  due : List PendingWindow
  maxWidth : Duration
  window : UtcWindow
  suppressed : List String
  zone : Zone
  config : FieldConfig
  refresh : List UUID

/-- A step of the system. -/
inductive ArchiveEvent (Fp : Type) where
  /-- Stage 2 leaves these transactions. -/
  | stage2 (source : Source Fp)
  /-- A range of changes is published. -/
  | publish (lo hi : Instant)
  /-- A switch is flipped: `[history_starts_at, source_watermark]` is published. -/
  | flip
  | fold (i : FoldOf Fp)
  /-- Tickets are consumed or abandoned. -/
  | close (tickets : List PendingWindow)
  /-- A tick of the partition worker. -/
  | drop (i : TickInput) (covered : List Day)

/-! ## §2. The steps. -/

/-- The rows of a source that satisfy `p`. -/
def keepRows (source : Source Fp) (p : TxnRow Fp → Bool) : Source Fp where
  store := { source.store with
    txns := source.store.txns.filter p }
  unique := source.unique.sublist (List.filter_sublist.map _)

/-- The row lies in a partition the tick drops. -/
def rowGone (gone : List Day) (r : TxnRow Fp) : Bool := r.startedAt.any fun t => decide (dayOf t ∈ gone)

/-- The fold of one slice, if it is one. -/
def FoldOf.run (i : FoldOf Fp) (source : Source Fp) : Run Fp :=
  { source := source, window := i.window, suppressed := i.suppressed, zone := i.zone,
    config := i.config, refresh := i.refresh }

/-- `LEAST` of two, which ignores a missing one. -/
def least : Option Instant → Option Instant → Option Instant
  | some a, some b => some (min a b)
  | some a, none => some a
  | none, b => b

/-- The range a flipped switch publishes. -/
def Archive.flipRange (c : RetentionSettings) (s : Archive fw) : Option (Instant × Instant) :=
  s.sourceWatermark.map fun watermark =>
    (s.historyStartsAt.getD (watermark - c.logPartitionRetentionDays * dayLength), watermark)

/-- One event; the pad is Stage 2's. -/
def Archive.step (c : RetentionSettings) (pad : Duration) (s : Archive fw) :
    ArchiveEvent Fp → Archive fw
  | .stage2 source =>
      { s with
        source := source
        dropped := s.dropped.filter fun k => decide (k ∉ source.store.txns.map rowKey) }
  | .publish lo hi => { s with
      tickets := s.tickets ++ publish pad lo hi false }
  | .flip =>
      match s.flipRange c with
      | none => s
      | some (lo, hi) => { s with
          tickets := s.tickets ++ publish pad lo hi true }
  | .fold i =>
      if i.due ⊆ s.tickets ∧ i.window ∈ slices i.due i.maxWidth then
        let run := i.run s.source
        { s with
          facts := run.after s.facts
          historyStartsAt :=
            least s.historyStartsAt ((run.facts s.facts).filterMap fun b => b.content.eventTime).min?
          sourceWatermark := (s.source.store.txns.filterMap TxnRow.startedAt).max? }
      else s
  | .close tickets => { s with
      tickets := s.tickets.filter fun t => decide (t ∉ tickets) }
  | .drop i covered =>
      let gone := droppedDays c i .logTransactions covered
      { s with
        source := keepRows s.source fun r => !rowGone gone r
        dropped := s.dropped ++ (s.source.store.txns.filter (rowGone gone)).map rowKey }

/-! ## §3. What is promised, and what it takes. -/

/-- The event takes no fact of a dropped transaction away. -/
def ErasesNothing (c : RetentionSettings) (pad : Duration) (s : Archive fw) (ev : ArchiveEvent Fp) :
    Prop :=
  ∀ k ∈ s.dropped, s.facts.find k ≠ none → (s.step c pad ev).facts.find k ≠ none

/-- A ticket of the range would reach the key. -/
def Reaches (pad : Duration) (lo hi : Instant) (k : FactKey) : Prop :=
  ∃ t, k.2 = some t ∧ lo - pad ≤ t ∧ t ≤ hi + pad

/-- No published range reaches a fact whose transaction retention has dropped, and no transaction with a
    fact is dropped while an open ticket reaches it. -/
def Distant (c : RetentionSettings) (pad : Duration) (s : Archive fw) : ArchiveEvent Fp → Prop
  | .publish lo hi => ∀ k ∈ s.dropped, s.facts.find k ≠ none → ¬Reaches pad lo hi k
  | .flip =>
      ∀ p, s.flipRange c = some p → ∀ k ∈ s.dropped, s.facts.find k ≠ none → ¬Reaches pad p.1 p.2 k
  | .drop i covered =>
      ∀ r ∈ s.source.store.txns, rowGone (droppedDays c i .logTransactions covered) r = true →
        s.facts.find (rowKey r) ≠ none → ∀ t ∈ s.tickets, ∀ x, r.startedAt = some x → ¬t.Holds x
  | _ => True

/-- Every event of a run satisfies `P`. -/
def EveryEvent (c : RetentionSettings) (pad : Duration) (P : Archive fw → ArchiveEvent Fp → Prop) :
    Archive fw → List (ArchiveEvent Fp) → Prop
  | _, [] => True
  | s, ev :: evs => P s ev ∧ EveryEvent c pad P (s.step c pad ev) evs

/-- The invariant: a dropped transaction is not in the source, had a start, and no open ticket reaches
    its fact. -/
structure Archive.Inv (s : Archive fw) : Prop where
  absent : ∀ k ∈ s.dropped, k ∉ s.source.store.txns.map rowKey
  started : ∀ k ∈ s.dropped, k.2 ≠ none
  apart : ∀ k ∈ s.dropped, s.facts.find k ≠ none → ∀ t ∈ s.tickets, ∀ x, k.2 = some x → ¬t.Holds x

/-! ## §4. Each event. -/

omit [DecidableEq Fp] in
/-- A slice of the open tickets does not cover the fact of a dropped transaction. -/
theorem not_covers {s : Archive fw} (h : s.Inv) {i : FoldOf Fp}
    (hi : i.due ⊆ s.tickets ∧ i.window ∈ slices i.due i.maxWidth) {k : FactKey} (hk : k ∈ s.dropped)
    (hf : s.facts.find k ≠ none) : i.window.covers k.2 = false := by
  obtain ⟨x, hx⟩ := Option.ne_none_iff_exists'.mp (h.started k hk)
  cases hcov : i.window.covers k.2 with
  | false => rfl
  | true =>
      rw [hx] at hcov
      obtain ⟨t, ht, hholds⟩ := slice_covered hi.2 hcov
      exact absurd hholds (h.apart k hk hf t (hi.1 ht) x hx)

/-- **A fold takes no fact of a dropped transaction away** while the invariant holds. -/
theorem erasesNothing_of_inv {c : RetentionSettings} {pad : Duration} {s : Archive fw} (h : s.Inv)
    (ev : ArchiveEvent Fp) : ErasesNothing c pad s ev := by
  intro k hk hf
  cases ev with
  | fold i =>
      unfold Archive.step
      dsimp only
      split
      · next hi =>
        show ((i.run s.source).after s.facts).find k ≠ none
        rw [find_after_outside (j := i.run s.source) (not_covers h hi hk hf)]
        exact hf
      · exact hf
  | flip =>
      unfold Archive.step
      dsimp only
      split
      · exact hf
      · exact hf
  | stage2 source => exact hf
  | publish lo hi => exact hf
  | close tickets => exact hf
  | drop i covered => exact hf

omit [DecidableEq Fp] in
/-- The invariant survives new tickets that reach no fact of a dropped transaction. -/
theorem inv_publish {pad : Duration} {s : Archive fw} (h : s.Inv) {lo hi : Instant} {refold : Bool}
    (hp : ∀ k ∈ s.dropped, s.facts.find k ≠ none → ¬Reaches pad lo hi k) :
    Archive.Inv { s with
      tickets := s.tickets ++ publish pad lo hi refold } := by
  refine ⟨h.absent, h.started, fun k hk hf t ht x hx hholds => ?_⟩
  rcases List.mem_append.mp ht with ht | ht
  · exact h.apart k hk hf t ht x hx hholds
  · obtain ⟨hlo, hhi⟩ := publish_within ht hholds
    exact hp k hk hf ⟨x, hx, hlo, hhi⟩

/-- **Each event keeps the invariant.** -/
theorem archive_inv_step {c : RetentionSettings} {pad : Duration} {s : Archive fw} (h : s.Inv)
    {ev : ArchiveEvent Fp} (hev : Distant c pad s ev) : (s.step c pad ev).Inv := by
  cases ev with
  | stage2 source =>
      refine ⟨fun k hk => ?_, fun k hk => ?_, fun k hk => ?_⟩
      · exact of_decide_eq_true (List.mem_filter.mp hk).2
      · exact h.started k (List.mem_filter.mp hk).1
      · exact h.apart k (List.mem_filter.mp hk).1
  | publish lo hi => exact inv_publish h hev
  | flip =>
      unfold Archive.step
      dsimp only
      cases hr : s.flipRange c with
      | none => exact h
      | some p => exact inv_publish h (hev p hr)
  | fold i =>
      unfold Archive.step
      dsimp only
      split
      · refine ⟨h.absent, h.started, fun k hk hf => h.apart k hk ?_⟩
        -- a fact that is new has a transaction, and a dropped one has none
        intro hnone
        obtain ⟨r, hr, hkey⟩ := mem_source_of_new (j := i.run s.source) hnone hf
        exact h.absent k hk (List.mem_map.mpr ⟨r, hr, hkey⟩)
      · exact h
  | close tickets =>
      exact ⟨h.absent, h.started, fun k hk hf t ht => h.apart k hk hf t (List.mem_filter.mp ht).1⟩
  | drop i covered =>
      have hnew : ∀ k, k ∈ (s.step c pad (.drop i covered)).dropped → k ∈ s.dropped ∨
          ∃ r ∈ s.source.store.txns,
            rowGone (droppedDays c i .logTransactions covered) r = true ∧ rowKey r = k := by
        intro k hk
        rcases List.mem_append.mp hk with hk | hk
        · exact Or.inl hk
        · obtain ⟨r, hr, hkey⟩ := List.mem_map.mp hk
          obtain ⟨hmem, hgone⟩ := List.mem_filter.mp hr
          exact Or.inr ⟨r, hmem, hgone, hkey⟩
      have hrows : ∀ r, r ∈ (s.step c pad (.drop i covered)).source.store.txns →
          r ∈ s.source.store.txns ∧ rowGone (droppedDays c i .logTransactions covered) r = false := by
        intro r hr
        obtain ⟨hmem, hkept⟩ := List.mem_filter.mp hr
        exact ⟨hmem, by simpa using hkept⟩
      refine ⟨fun k hk hin => ?_, fun k hk => ?_, fun k hk hf t ht x hx => ?_⟩
      · obtain ⟨r', hr', hkey'⟩ := List.mem_map.mp hin
        obtain ⟨hmem', hkept⟩ := hrows r' hr'
        rcases hnew k hk with hold | ⟨r, hr, hgone, hkey⟩
        · exact h.absent k hold (List.mem_map.mpr ⟨r', hmem', hkey'⟩)
        · have heq : r' = r :=
            List.inj_on_of_nodup_map s.source.unique hmem' hr (hkey'.trans hkey.symm)
          rw [heq, hgone] at hkept
          exact absurd hkept (by simp)
      · rcases hnew k hk with hold | ⟨r, -, hgone, rfl⟩
        · exact h.started k hold
        · intro hnone
          have hstart : r.startedAt = none := hnone
          simp [rowGone, hstart] at hgone
      · rcases hnew k hk with hold | ⟨r, hr, hgone, rfl⟩
        · exact h.apart k hold hf t ht x hx
        · exact hev r hr hgone hf t ht x hx

/-! ## §5. Every run. -/

/-- **No fold of a run of distant events erases a fact of a dropped transaction.** -/
theorem everyEvent_erasesNothing {c : RetentionSettings} {pad : Duration} {s : Archive fw} (h : s.Inv)
    (evs : List (ArchiveEvent Fp)) (hevs : EveryEvent c pad (Distant c pad) s evs) :
    EveryEvent c pad (ErasesNothing c pad) s evs := by
  induction evs generalizing s with
  | nil => trivial
  | cons ev evs ih => exact ⟨erasesNothing_of_inv h ev, ih (archive_inv_step h hevs.1) hevs.2⟩

/-- Before anything happened. -/
def Archive.initial (fw : FoldWorld Fp) : Archive fw where
  source := ⟨{}, List.nodup_nil⟩
  facts := Table.empty
  tickets := []
  historyStartsAt := none
  sourceWatermark := none
  dropped := []

omit [DecidableEq Fp] in
theorem inv_archive_initial : (Archive.initial fw).Inv := by
  constructor
  · exact fun k hk => absurd hk (by simp [Archive.initial])
  · exact fun k hk => absurd hk (by simp [Archive.initial])
  · exact fun k hk => absurd hk (by simp [Archive.initial])

/-- **From the first line on**: a run whose tickets and drops keep their distance erases nothing. -/
theorem erases_nothing (c : RetentionSettings) (pad : Duration) (evs : List (ArchiveEvent Fp))
    (h : EveryEvent c pad (Distant c pad) (Archive.initial fw) evs) :
    EveryEvent c pad (ErasesNothing c pad) (Archive.initial fw) evs :=
  everyEvent_erasesNothing inv_archive_initial evs h

/-! ## §6. A switch flipped after the drop. -/

/-- One transaction, on the first day. -/
def firstDay : Source Print := oneTransaction (namedRow 1 "A" 5 0) []

/-- The fold of the only slice of this ticket. -/
def foldAll (t : PendingWindow) : FoldOf Print where
  due := [t]
  maxWidth := 0
  window := ⟨t.rangeStart, t.rangeEnd⟩
  suppressed := []
  zone := ⟨"UTC", utc_named⟩
  config := requestOnly
  refresh := []

/-- Day 100, with nothing pending. -/
def hundredDaysLater : TickInput := ⟨100, dayStart 100, [], [], some []⟩

/-- It is ingested, folded, dropped a hundred days later; then a switch is flipped and its ticket
    folded. -/
def flippedAfterDrop : List (ArchiveEvent Print) :=
  [.stage2 firstDay, .publish 5 5, .fold (foldAll ⟨-5, 15, false⟩), .close [⟨-5, 15, false⟩],
    .drop hundredDaysLater [0], .flip, .fold (foldAll ⟨-5, 15, true⟩)]

/-- Up to the drop everything kept its distance: the ticket was consumed before its day went. -/
theorem erases_nothing_before_flip :
    EveryEvent {} 10 (ErasesNothing {} 10) (Archive.initial printWorld) (flippedAfterDrop.take 5) := by
  refine erases_nothing {} 10 (flippedAfterDrop.take 5) ⟨trivial, ?_, trivial, trivial, ?_, trivial⟩
  · intro k hk
    exact absurd hk (by simp [Archive.step, Archive.initial])
  · intro r _ _ _ t ht
    have hnone : ((flippedAfterDrop.take 4).foldl (Archive.step {} 10)
        (Archive.initial printWorld)).tickets = [] := by decide +kernel
    have hin : t ∈ ((flippedAfterDrop.take 4).foldl (Archive.step {} 10)
        (Archive.initial printWorld)).tickets := ht
    rw [hnone] at hin
    exact absurd hin (by simp)

/-- The last fold reverses the fact. -/
theorem flippedAfterDrop_erases :
    ¬EveryEvent {} 10 (ErasesNothing {} 10) (Archive.initial printWorld) flippedAfterDrop := by
  rintro ⟨-, -, -, -, -, -, h, -⟩
  have hfact := h (1, some 5) (by decide +kernel)
  have hbefore : (((flippedAfterDrop.take 6).foldl (Archive.step {} 10)
      (Archive.initial printWorld)).facts.find (1, some 5)).isSome = true := by decide +kernel
  have hafter : ((flippedAfterDrop.foldl (Archive.step {} 10)
      (Archive.initial printWorld)).facts.find (1, some 5)).isNone = true := by decide +kernel
  exact hfact (Option.isSome_iff_ne_none.mp hbefore) (Option.isNone_iff_eq_none.mp hafter)

end RagPipeline.Retention
