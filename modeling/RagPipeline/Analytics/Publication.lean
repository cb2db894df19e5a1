/-
  RagPipeline.Analytics.Publication — every change of Stage 2 reaches analytics.

  A system is the log tables, the open tickets, the operations that are between their two commits, the runs of the
  consumer, and the facts.  Lines are stored, operations commit, tickets are claimed into runs, and the runs are
  folded slice by slice; the commits and the slices of several runs come in any order.

    * `System.step`   — one event;
    * `Tracked`       — where facts and transactions differ, there is an open ticket, and every run that holds
                        it has a slice ahead that reads the place anew;
    * `Event.Meets`   — the condition on an event and the state it finds;
    * `tracked_step`  — one event keeps the system tracked.

  `changes_reach_analytics` is the run theorem: every commit is ticketed by its own operation, and with no ticket
  open the facts are the normalised transactions.
-/
import RagPipeline.Analytics.Commits
import RagPipeline.Analytics.Exactness
import RagPipeline.Lib.Runs
import RagPipeline.Stage2.Identity

namespace RagPipeline.Analytics

open RagPipeline.Stage2 RagPipeline.Lib

variable {Fp : Type} [DecidableEq Fp]

/-! ## §1. The system. -/

/-- What does not change during a run. -/
structure Deployment (Fp : Type) where
  world : World Fp
  settings : Settings
  maxWidth : Duration
  interpreter : Interpreter Fp
  zone : Zone
  config : FieldConfig

/-- A row of `analytics_pending_windows` that is not consumed. -/
structure OpenTicket where
  id : ℕ
  range : PendingWindow
  deriving DecidableEq

/-- An operation whose second commit is to come, with the tickets of the first. -/
structure Pass (Fp : Type) where
  second : Commit Fp
  tickets : List OpenTicket

/-- A run of the consumer: the tickets it was coalesced from, and the slices that are not folded yet. -/
structure ActiveRun where
  tickets : List OpenTicket
  ahead : List UtcWindow

/-- One tenant. -/
structure System (d : Deployment Fp) where
  source : Source Fp
  ids : (source.store.entries.map (·.id)).Nodup
  tickets : List OpenTicket := []
  issued : ℕ := 0
  passes : List (Pass Fp) := []
  runs : List ActiveRun := []
  facts : Facts d.interpreter.world

/-- What happens: lines are stored, an operation commits, or commits again, tickets are claimed, the next slice of a
    run is folded, a run fails. -/
inductive Event (Fp : Type) where
  | ingest (lines : List LogEntry)
  | operate (now : Instant) (op : Operation Fp)
  | resume (pass : ℕ) (now : Instant)
  | claim (ids : List ℕ)
  | fold (run : ℕ) (suppressed : List String) (refresh : List UUID)
  | fail (run : ℕ)

variable {d : Deployment Fp}

/-- Stage 1: the id of a line is a new one. -/
def System.ingest (s : System d) (lines : List LogEntry) : System d :=
  if h : ((s.source.store.entries ++ lines).map (·.id)).Nodup ∧
      ∀ e ∈ lines, s.source.store.assigned e.id = none then
    { s with
      source := ⟨{ s.source.store with entries := s.source.store.entries ++ lines }, s.source.unique⟩
      ids := h.1 }
  else s

/-- Tickets for these ranges, with the next ids. -/
def issue (next : ℕ) (ranges : List PendingWindow) : List OpenTicket := ranges.mapIdx fun i k => ⟨next + i, k⟩

/-- A commit, with the tickets it leaves; `none` when it raises, or violates the constraint of `log_transactions`. -/
def System.commit (s : System d) (now : Instant) (cm : Commit Fp) : Option (System d × List OpenTicket) :=
  match h : cm.exec d.world d.settings now s.source.store with
  | none => none
  | some done =>
    if hu : (done.store.txns.map rowKey).Nodup then
      let own := issue s.issued (ticketsOf d.settings done.published)
      some ({ s with
        source := ⟨done.store, hu⟩
        ids := by
          rw [exec_ids h]
          exact s.ids
        tickets := s.tickets ++ own
        issued := s.issued + own.length }, own)
    else none

/-- The first commit of an operation. -/
def System.operate (s : System d) (now : Instant) (op : Operation Fp) : System d :=
  match s.commit now op.first with
  | none => s
  | some (s', own) => { s' with passes := s'.passes ++ (op.second.map fun cm => ⟨cm, own⟩).toList }

/-- The second one; with it the operation is over, whether it commits or raises. -/
def System.resume (s : System d) (i : ℕ) (now : Instant) : System d :=
  match s.passes[i]? with
  | none => s
  | some p =>
    match s.commit now p.second with
    | none => { s with passes := s.passes.eraseIdx i }
    | some (s', _) => { s' with passes := s'.passes.eraseIdx i }

/-- The slices of a run. -/
def slicesOf (maxWidth : Duration) (r : Lib.Run OpenTicket Instant) : List UtcWindow :=
  (splitRun r.lo r.hi maxWidth).map fun p => ⟨p.1, p.2⟩

/-- `consume_tenant`: some open tickets, merged into runs and split. -/
def System.claim (s : System d) (ids : List ℕ) : System d :=
  { s with
    runs := s.runs ++ (sweep (fun t : OpenTicket => t.range.rangeStart) (fun t => t.range.rangeEnd) 0
      (s.tickets.filter fun t => decide (t.id ∈ ids))).map fun r => ⟨r.items, slicesOf d.maxWidth r⟩ }

/-- What a slice reads: the tables as they are. -/
def System.foldRun (s : System d) (w : UtcWindow) (suppressed : List String) (refresh : List UUID) :
    Run Fp :=
  { source := s.source, window := w, suppressed := suppressed, zone := d.zone, config := d.config, refresh := refresh }

/-- The next slice of a run: the last one closes the tickets of the run, one that raises ends it. -/
def System.fold (s : System d) (i : ℕ) (suppressed : List String) (refresh : List UUID) : System d :=
  match s.runs[i]? with
  | some ⟨tickets, w :: ahead⟩ =>
    match (s.foldRun w suppressed refresh).slice d.interpreter s.facts with
    | none => { s with runs := s.runs.eraseIdx i }
    | some facts =>
      if ahead = [] then
        { s with
          facts := facts
          tickets := s.tickets.filter fun t => decide (t ∉ tickets)
          runs := s.runs.eraseIdx i }
      else { s with facts := facts, runs := s.runs.set i ⟨tickets, ahead⟩ }
  | _ => s

/-- One event. -/
def System.step (s : System d) : Event Fp → System d
  | .ingest lines => s.ingest lines
  | .operate now op => s.operate now op
  | .resume i now => s.resume i now
  | .claim ids => s.claim ids
  | .fold i suppressed refresh => s.fold i suppressed refresh
  | .fail i => { s with runs := s.runs.eraseIdx i }

/-! ## §2. What is claimed. -/

/-- What a key stands for: its row, and the response lines of the transaction. -/
def standsFor (st : Store Fp) (k : FactKey) : Option (TxnRow Fp × List LogEntry) :=
  (st.txns.find? fun r => decide (rowKey r = k)).map fun r => (r, (st.linesOf r.id).filter isResponse)

/-- The key stands for something else: a row that is inserted, deleted or changed, or whose responses are. -/
def Moved (st st' : Store Fp) (k : FactKey) : Prop := standsFor st k ≠ standsFor st' k

/-- The fact of a key: the normalisation of its row from all its response lines. -/
def System.target (s : System d) (k : FactKey) : Option (FactContent Fp) :=
  (standsFor s.source.store k).bind fun p => (d.interpreter.world.normalise d.zone d.config p.2 p.1).toOption

/-- With no ticket open the facts are those of the transactions. -/
def System.Settled (s : System d) : Prop := s.tickets = [] → ∀ k, contentAt s.facts k = s.target k

/-- Whatever a commit moves, a ticket of its operation reaches: one that it leaves itself or, for a second commit, one
    that the first has left. -/
def Event.Ticketed (s : System d) : Event Fp → Prop
  | .operate now op => ∀ s' own, s.commit now op.first = some (s', own) →
      ∀ k, Moved s.source.store s'.source.store k → ∃ t ∈ own, t.range.Reaches k.2
  | .resume i now => ∀ p ∈ s.passes[i]?, ∀ s' own, s.commit now p.second = some (s', own) →
      ∀ k, Moved s.source.store s'.source.store k → ∃ t ∈ p.tickets ++ own, t.range.Reaches k.2
  | _ => True

/-- Every commit of a run is ticketed, and every state of it is settled. -/
def ReachesAnalytics : System d → List (Event Fp) → Prop
  | s, [] => s.Settled
  | s, ev :: evs => s.Settled ∧ ev.Ticketed s ∧ ReachesAnalytics (s.step ev) evs

/-! ## §3. What a step relies on. -/

/-- Rows of one digest start at one instant. -/
def StartsDigested (st : Store Fp) : Prop :=
  ∀ r ∈ st.txns, ∀ r' ∈ st.txns, r.rowFingerprint ≠ none → r.rowFingerprint = r'.rowFingerprint →
    r.startedAt = r'.startedAt

/-- A slice that suppresses nothing, and reads all it needs unless a row of it raises. -/
def System.FoldsInFull (s : System d) (w : UtcWindow) (suppressed : List String) (refresh : List UUID) : Prop :=
  suppressed = [] ∧ StartsDigested s.source.store ∧
    ((s.foldRun w suppressed refresh).sourceRows.any ((s.foldRun w suppressed refresh).failsAt d.interpreter s.facts) =
        true ∨
      ReadsAll d.interpreter (s.foldRun w suppressed refresh) s.facts)

/-- What an event relies on.  A second commit relies on the tickets of the first too: none of them is closed, or in
    a run. -/
def Event.Meets (s : System d) : Event Fp → Prop
  | .operate _ op => Publishes d.world d.settings [] s.source.store op.first
  | .resume i _ => ∀ p ∈ s.passes[i]?,
      Publishes d.world d.settings (p.tickets.map OpenTicket.range) s.source.store p.second ∧
        ∀ t ∈ p.tickets, t ∈ s.tickets ∧ ∀ r ∈ s.runs, t ∉ r.tickets
  | .fold i suppressed refresh => ∀ r ∈ s.runs[i]?, ∀ w ∈ r.ahead.head?, s.FoldsInFull w suppressed refresh
  | .ingest _ | .claim _ | .fail _ => True

/-- Every event of a run meets its condition, in the state it finds. -/
def MeetsThroughout : System d → List (Event Fp) → Prop
  | _, [] => True
  | s, ev :: evs => ev.Meets s ∧ MeetsThroughout (s.step ev) evs

/-! ## §4. The invariant. -/

/-- A key on which facts and transactions differ has an open ticket that reaches it, and every run that holds the
    ticket has a slice ahead that reads the key; ticket ids are below the next one. -/
structure System.Tracked (s : System d) : Prop where
  ticketed : ∀ k, contentAt s.facts k ≠ s.target k → ∃ t ∈ s.tickets, t.range.Reaches k.2 ∧
    ∀ r ∈ s.runs, t ∈ r.tickets → ∃ w ∈ r.ahead, w.covers k.2 = true
  issued : ∀ t ∈ s.tickets, t.id < s.issued
  claimed : ∀ r ∈ s.runs, ∀ t ∈ r.tickets, t.id < s.issued

omit [DecidableEq Fp] in
/-- With no ticket open nothing differs. -/
theorem System.Tracked.settled {s : System d} (hs : s.Tracked) : s.Settled := by
  intro hnone k
  by_contra hdiffer
  obtain ⟨t, ht, -⟩ := hs.ticketed k hdiffer
  rw [hnone] at ht
  exact absurd ht List.not_mem_nil

omit [DecidableEq Fp] in
/-- **A key that moves is that of a row that shifts.** -/
theorem shifts_of_moved {st st' : Store Fp} (hu : (st'.txns.map rowKey).Nodup) {k : FactKey}
    (h : Moved st st' k) : ∃ r, rowKey r = k ∧ Shifts st st' r := by
  by_contra hno
  have hstays : ∀ r, rowKey r = k → (r ∈ st.txns ↔ r ∈ st'.txns) := by
    intro r hkey
    by_contra hdiffers
    exact hno ⟨r, hkey, Or.inl hdiffers⟩
  refine h ?_
  unfold standsFor
  cases hf : st.txns.find? fun r => decide (rowKey r = k) with
  | some r =>
    have hkey : rowKey r = k := by simpa using List.find?_some hf
    have hold := List.mem_of_find?_eq_some hf
    have hnew := (hstays r hkey).mp hold
    have hlines : st'.linesOf r.id = st.linesOf r.id := by
      by_contra hlines
      exact hno ⟨r, hkey, Or.inr ⟨hold, hnew, hlines⟩⟩
    rw [← hkey, find_key hu hnew, Option.map_some, Option.map_some, hlines]
  | none =>
    cases hf' : st'.txns.find? fun r => decide (rowKey r = k) with
    | none => rfl
    | some r =>
      have hkey : rowKey r = k := by simpa using List.find?_some hf'
      have hold := (hstays r hkey).mpr (List.mem_of_find?_eq_some hf')
      exact absurd (List.find?_eq_none.mp hf r hold) (by simpa using hkey)

omit [DecidableEq Fp] in
/-- A slice reads the target of the system. -/
theorem foldRun_target (s : System d) (w : UtcWindow) (suppressed : List String) (refresh : List UUID) (k : FactKey) :
    (s.foldRun w suppressed refresh).target d.interpreter.world k = s.target k := by
  unfold Run.target System.target standsFor
  rw [Option.bind_map]
  rfl

/-! ## §5. Commits. -/

theorem mem_issue {next : ℕ} {ranges : List PendingWindow} {t : OpenTicket} (ht : t ∈ issue next ranges) :
    next ≤ t.id ∧ t.id < next + (issue next ranges).length := by
  obtain ⟨i, hi, rfl⟩ := List.mem_mapIdx.mp ht
  unfold issue
  rw [List.length_mapIdx]
  exact ⟨Nat.le_add_right _ _, Nat.add_lt_add_left hi _⟩

theorem exists_issue (next : ℕ) {ranges : List PendingWindow} {k : PendingWindow} (hk : k ∈ ranges) :
    ∃ t ∈ issue next ranges, t.range = k := by
  obtain ⟨i, hi, rfl⟩ := List.mem_iff_getElem.mp hk
  exact ⟨⟨next + i, ranges[i]⟩, List.mem_mapIdx.mpr ⟨i, hi, rfl⟩, rfl⟩

/-- What a commit does to the system. -/
structure Committing (s s' : System d) (own : List OpenTicket) (done : Committed Fp) : Prop where
  store : s'.source.store = done.store
  fresh : own = issue s.issued (ticketsOf d.settings done.published)
  tickets : s'.tickets = s.tickets ++ own
  issued : s'.issued = s.issued + own.length
  runs : s'.runs = s.runs
  facts : s'.facts = s.facts

theorem commit_spec {s s' : System d} {now : Instant} {cm : Commit Fp} {own : List OpenTicket}
    (h : s.commit now cm = some (s', own)) :
    ∃ done, cm.exec d.world d.settings now s.source.store = some done ∧ Committing s s' own done := by
  unfold System.commit at h
  split at h
  · cases h
  · next done hdone =>
    -- a commit that violates the constraint raises, and is rolled back
    split at h
    · cases h
      exact ⟨done, hdone, rfl, rfl, rfl, rfl, rfl, rfl⟩
    · cases h

/-- **A commit is ticketed** by the tickets of its operation. -/
theorem ticketed_commit (hpad : 0 < d.settings.pad) {s s' : System d} {now : Instant} {cm : Commit Fp}
    (earlier : List OpenTicket) {own : List OpenTicket} (h : s.commit now cm = some (s', own))
    (hpub : Publishes d.world d.settings (earlier.map OpenTicket.range) s.source.store cm) {k : FactKey}
    (hk : Moved s.source.store s'.source.store k) : ∃ t ∈ earlier ++ own, t.range.Reaches k.2 := by
  obtain ⟨done, hdone, hcommit⟩ := commit_spec h
  -- a key that moves is that of a row that shifts, and the condition says which tickets reach its start
  obtain ⟨r, rfl, hshifts⟩ := shifts_of_moved s'.source.unique hk
  rw [hcommit.store] at hshifts
  obtain ⟨w, hw, hreaches⟩ := reached_of_publishes hpad s.ids hpub hdone hshifts
  rcases List.mem_append.mp hw with hold | hnew
  · obtain ⟨t, ht, rfl⟩ := List.mem_map.mp hold
    exact ⟨t, List.mem_append_left _ ht, hreaches⟩
  · obtain ⟨t, ht, rfl⟩ := exists_issue s.issued hnew
    rw [← hcommit.fresh] at ht
    exact ⟨t, List.mem_append_right _ ht, hreaches⟩

/-- A commit whose moves are reached by tickets that no run holds keeps the system tracked. -/
theorem tracked_commit {s s' : System d} {now : Instant} {cm : Commit Fp} {own : List OpenTicket} (hs : s.Tracked)
    (h : s.commit now cm = some (s', own))
    (hreach : ∀ k, Moved s.source.store s'.source.store k →
      ∃ t ∈ s'.tickets, t.range.Reaches k.2 ∧ ∀ r ∈ s.runs, t ∉ r.tickets) : s'.Tracked := by
  obtain ⟨done, -, hcommit⟩ := commit_spec h
  have hnext : s.issued ≤ s'.issued := hcommit.issued ▸ Nat.le_add_right _ _
  refine ⟨fun k hk => ?_, fun t ht => ?_, fun r hr t ht => ?_⟩
  · by_cases hmoved : Moved s.source.store s'.source.store k
    · obtain ⟨t, ht, hreaches, hfree⟩ := hreach k hmoved
      refine ⟨t, ht, hreaches, fun r hr hin => ?_⟩
      exact absurd hin (hfree r (hcommit.runs ▸ hr))
    · -- the key stands for what it stood for, so it differed before
      have htarget : s'.target k = s.target k := by
        unfold System.target
        rw [← not_not.mp hmoved]
      rw [htarget, hcommit.facts] at hk
      obtain ⟨t, ht, hreaches, hahead⟩ := hs.ticketed k hk
      refine ⟨t, ?_, hreaches, fun r hr => hahead r (hcommit.runs ▸ hr)⟩
      rw [hcommit.tickets]
      exact List.mem_append_left _ ht
  · rw [hcommit.tickets] at ht
    rcases List.mem_append.mp ht with hold | hnew
    · exact lt_of_lt_of_le (hs.issued t hold) hnext
    · rw [hcommit.issued, hcommit.fresh]
      rw [hcommit.fresh] at hnew
      exact (mem_issue hnew).2
  · rw [hcommit.runs] at hr
    exact lt_of_lt_of_le (hs.claimed r hr t ht) hnext

/-- The tickets of a commit are open, and no run holds one of them. -/
theorem own_free {s s' : System d} {now : Instant} {cm : Commit Fp} {own : List OpenTicket} (hs : s.Tracked)
    (h : s.commit now cm = some (s', own)) {t : OpenTicket} (ht : t ∈ own) :
    t ∈ s'.tickets ∧ ∀ r ∈ s.runs, t ∉ r.tickets := by
  obtain ⟨done, -, hcommit⟩ := commit_spec h
  refine ⟨?_, fun r hr hin => ?_⟩
  · rw [hcommit.tickets]
    exact List.mem_append_right _ ht
  · rw [hcommit.fresh] at ht
    exact absurd (hs.claimed r hr t hin) (not_lt.mpr (mem_issue ht).1)

theorem tracked_operate (hpad : 0 < d.settings.pad) {s : System d} {now : Instant} {op : Operation Fp} (hs : s.Tracked)
    (h : Event.Meets s (.operate now op)) : (s.operate now op).Tracked := by
  unfold System.operate
  split
  · exact hs
  · next s' own hcommit =>
    have hafter : s'.Tracked := by
      refine tracked_commit hs hcommit fun k hk => ?_
      obtain ⟨t, ht, hreaches⟩ := ticketed_commit hpad [] hcommit h hk
      obtain ⟨hopen, hfree⟩ := own_free hs hcommit ht
      exact ⟨t, hopen, hreaches, hfree⟩
    exact ⟨hafter.ticketed, hafter.issued, hafter.claimed⟩

theorem tracked_resume (hpad : 0 < d.settings.pad) {s : System d} {i : ℕ} {now : Instant} (hs : s.Tracked)
    (h : Event.Meets s (.resume i now)) : (s.resume i now).Tracked := by
  unfold System.resume
  split
  · exact hs
  · next p hp =>
    obtain ⟨hpub, hopen⟩ := h p hp
    split
    · exact ⟨hs.ticketed, hs.issued, hs.claimed⟩
    · next s' own hcommit =>
      have hafter : s'.Tracked := by
        refine tracked_commit hs hcommit fun k hk => ?_
        obtain ⟨t, ht, hreaches⟩ := ticketed_commit hpad p.tickets hcommit hpub hk
        rcases List.mem_append.mp ht with hearlier | hown
        · -- a ticket of the first commit, which is still open
          obtain ⟨hthere, hfree⟩ := hopen t hearlier
          obtain ⟨done, -, hspec⟩ := commit_spec hcommit
          refine ⟨t, ?_, hreaches, hfree⟩
          rw [hspec.tickets]
          exact List.mem_append_left _ hthere
        · obtain ⟨hthere, hfree⟩ := own_free hs hcommit hown
          exact ⟨t, hthere, hreaches, hfree⟩
      exact ⟨hafter.ticketed, hafter.issued, hafter.claimed⟩

omit [DecidableEq Fp] in
/-- Lines that nobody owns yet change nothing. -/
theorem tracked_ingest {s : System d} {lines : List LogEntry} (hs : s.Tracked) : (s.ingest lines).Tracked := by
  unfold System.ingest
  split
  · next hnew =>
    refine ⟨fun k hk => hs.ticketed k ?_, hs.issued, hs.claimed⟩
    have hlines : ∀ t, Store.linesOf { s.source.store with entries := s.source.store.entries ++ lines } t =
        s.source.store.linesOf t := by
      intro t
      refine linesOf_eq ?_ fun _ _ _ => rfl
      have hnone : (lines.filter fun e => decide (s.source.store.assigned.owner e.id = some t)) = [] := by
        refine List.filter_eq_nil_iff.mpr fun e he => ?_
        rw [Owners.owner_eq_none.mpr (hnew.2 e he)]
        simp
      rw [List.filter_append, hnone, List.append_nil]
    have hstands : standsFor { s.source.store with entries := s.source.store.entries ++ lines } k =
        standsFor s.source.store k := by
      unfold standsFor
      simp only [hlines]
    intro hsame
    refine hk (hsame.trans ?_)
    unfold System.target
    rw [hstands]
  · exact hs

/-! ## §6. The consumer. -/

/-- A claimed ticket has its starts in the slices of its run. -/
theorem slices_reach {maxWidth : Duration} {r : Lib.Run OpenTicket Instant} {t : OpenTicket}
    (hin : r.lo ≤ t.range.rangeStart ∧ t.range.rangeEnd ≤ r.hi) {x : Option Instant} (hx : t.range.Reaches x) :
    ∃ w ∈ slicesOf maxWidth r, w.covers x = true := by
  unfold slicesOf
  cases x with
  | none =>
    obtain ⟨p, hp⟩ := List.exists_mem_of_ne_nil _ (splitRun_ne_nil r.lo r.hi maxWidth)
    exact ⟨⟨p.1, p.2⟩, List.mem_map_of_mem hp, rfl⟩
  | some x =>
    obtain ⟨p, hp, hcov⟩ := splitRun_covers maxWidth (le_trans hin.1 hx.1) (lt_of_lt_of_le hx.2 hin.2)
    exact ⟨⟨p.1, p.2⟩, List.mem_map_of_mem hp, decide_eq_true hcov⟩

omit [DecidableEq Fp] in
theorem tracked_claim {s : System d} {ids : List ℕ} (hs : s.Tracked) : (s.claim ids).Tracked := by
  have hlaws := sweep_laws (fun t : OpenTicket => t.range.rangeStart) (fun t => t.range.rangeEnd) 0
    (s.tickets.filter fun t => decide (t.id ∈ ids))
  refine ⟨fun k hk => ?_, hs.issued, fun r hr t ht => ?_⟩
  · obtain ⟨t, ht, hreaches, hahead⟩ := hs.ticketed k hk
    refine ⟨t, ht, hreaches, fun r hr hin => ?_⟩
    -- a new run holds the ticket whole, so its slices reach whatever the ticket reaches
    rcases List.mem_append.mp hr with hold | hnew
    · exact hahead r hold hin
    · obtain ⟨q, hq, rfl⟩ := List.mem_map.mp hnew
      exact slices_reach (hlaws.inside q hq t hin) hreaches
  · rcases List.mem_append.mp hr with hold | hnew
    · exact hs.claimed r hold t ht
    · obtain ⟨q, hq, rfl⟩ := List.mem_map.mp hnew
      have hmem := hlaws.once.mem_iff.mp (List.mem_flatMap.mpr ⟨q, hq, ht⟩)
      exact hs.issued t (List.mem_filter.mp hmem).1

omit [DecidableEq Fp] in
theorem tracked_fail {s : System d} {i : ℕ} (hs : s.Tracked) : System.Tracked { s with runs := s.runs.eraseIdx i } := by
  refine ⟨fun k hk => ?_, hs.issued, fun r hr => hs.claimed r (List.mem_of_mem_eraseIdx hr)⟩
  obtain ⟨t, ht, hreaches, hahead⟩ := hs.ticketed k hk
  exact ⟨t, ht, hreaches, fun r hr => hahead r (List.mem_of_mem_eraseIdx hr)⟩

/-- **What a slice leaves**: in its window the facts are those of the transactions, outside they are as before. -/
theorem slice_contents {s : System d} {w : UtcWindow} {suppressed : List String} {refresh : List UUID}
    (h : s.FoldsInFull w suppressed refresh) {facts : Facts d.interpreter.world}
    (hslice : (s.foldRun w suppressed refresh).slice d.interpreter s.facts = some facts) (k : FactKey) :
    (w.covers k.2 = true → contentAt facts k = s.target k) ∧
      (w.covers k.2 = false → contentAt facts k = contentAt s.facts k) := by
  obtain ⟨rfl, hdigested, hreads⟩ := h
  have hall : ReadsAll d.interpreter (s.foldRun w [] refresh) s.facts := by
    rcases hreads with hfails | hall
    · unfold Run.slice at hslice
      rw [if_pos hfails] at hslice
      cases hslice
    · exact hall
  have hexact : Exact d.interpreter (s.foldRun w [] refresh) s.facts :=
    (exact_iff (s := ⟨s.source, d.zone, d.config, hdigested⟩) (w := (w, refresh))).mpr hall
  obtain ⟨facts', hslice', hin, hout⟩ := hexact
  obtain rfl := Option.some.inj (hslice.symm.trans hslice')
  refine ⟨fun hcov => (hin k hcov).1.trans (foldRun_target s w [] refresh k), fun hcov => ?_⟩
  unfold contentAt
  rw [hout k hcov]

theorem tracked_fold {s : System d} {i : ℕ} {suppressed : List String} {refresh : List UUID} (hs : s.Tracked)
    (h : Event.Meets s (.fold i suppressed refresh)) : (s.fold i suppressed refresh).Tracked := by
  unfold System.fold
  split
  · next tickets w ahead hrun =>
    have hin : ⟨tickets, w :: ahead⟩ ∈ s.runs := List.mem_of_getElem? hrun
    split
    · exact tracked_fail hs
    · next facts hslice =>
      have hfull : s.FoldsInFull w suppressed refresh := h _ hrun w rfl
      -- what still differs is out of the window, and differed before
      have hdiffer : ∀ k, contentAt facts k ≠ s.target k →
          contentAt s.facts k ≠ s.target k ∧ w.covers k.2 = false := by
        intro k hk
        obtain ⟨hinside, houtside⟩ := slice_contents hfull hslice k
        cases hcov : w.covers k.2 with
        | true => exact absurd (hinside hcov) hk
        | false => exact ⟨houtside hcov ▸ hk, rfl⟩
      -- so the slice that reads it is still ahead
      have hahead : ∀ k, contentAt facts k ≠ s.target k → ∃ t ∈ s.tickets, t.range.Reaches k.2 ∧
          (∀ r ∈ s.runs, t ∈ r.tickets → ∃ w' ∈ r.ahead, w'.covers k.2 = true) ∧
          (t ∈ tickets → ∃ w' ∈ ahead, w'.covers k.2 = true) := by
        intro k hk
        obtain ⟨hbefore, hcov⟩ := hdiffer k hk
        obtain ⟨t, ht, hreaches, hruns⟩ := hs.ticketed k hbefore
        refine ⟨t, ht, hreaches, hruns, fun hclaimed => ?_⟩
        obtain ⟨w', hw', hcov'⟩ := hruns _ hin hclaimed
        rcases List.mem_cons.mp hw' with rfl | hrest
        · rw [hcov] at hcov'
          cases hcov'
        · exact ⟨w', hrest, hcov'⟩
      split
      · next hlast =>
        refine ⟨fun k hk => ?_, fun t ht => hs.issued t (List.mem_filter.mp ht).1,
          fun r hr => hs.claimed r (List.mem_of_mem_eraseIdx hr)⟩
        obtain ⟨t, ht, hreaches, hruns, hrest⟩ := hahead k hk
        refine ⟨t, List.mem_filter.mpr ⟨ht, decide_eq_true fun hclaimed => ?_⟩, hreaches,
          fun r hr => hruns r (List.mem_of_mem_eraseIdx hr)⟩
        obtain ⟨w', hw', -⟩ := hrest hclaimed
        rw [hlast] at hw'
        exact absurd hw' List.not_mem_nil
      · refine ⟨fun k hk => ?_, hs.issued, fun r hr t ht => ?_⟩
        · obtain ⟨t, ht, hreaches, hruns, hrest⟩ := hahead k hk
          refine ⟨t, ht, hreaches, fun r hr hclaimed => ?_⟩
          rcases List.mem_or_eq_of_mem_set hr with hold | rfl
          · exact hruns r hold hclaimed
          · exact hrest hclaimed
        · rcases List.mem_or_eq_of_mem_set hr with hold | rfl
          · exact hs.claimed r hold t ht
          · exact hs.claimed _ hin t ht
  · exact hs

/-! ## §7. Runs. -/

omit [DecidableEq Fp] in
/-- A tenant without transactions, facts and tickets is tracked. -/
theorem tracked_empty {s : System d} (htxns : s.source.store.txns = []) (hfacts : ∀ k, s.facts.find k = none)
    (htickets : s.tickets = []) (hruns : s.runs = []) : s.Tracked := by
  refine ⟨fun k hk => absurd ?_ hk, fun t ht => ?_, fun r hr => ?_⟩
  · have hnone : standsFor s.source.store k = none := by
      unfold standsFor
      rw [htxns]
      rfl
    unfold contentAt System.target
    rw [hfacts, hnone]
    rfl
  · rw [htickets] at ht
    exact absurd ht List.not_mem_nil
  · rw [hruns] at hr
    exact absurd hr List.not_mem_nil

/-- **One event** keeps the system tracked. -/
theorem tracked_step (hpad : 0 < d.settings.pad) {s : System d} {ev : Event Fp} (hs : s.Tracked) (h : ev.Meets s) :
    (s.step ev).Tracked := by
  cases ev with
  | ingest lines => exact tracked_ingest hs
  | operate now op => exact tracked_operate hpad hs h
  | resume i now => exact tracked_resume hpad hs h
  | claim ids => exact tracked_claim hs
  | fold i suppressed refresh => exact tracked_fold hs h
  | fail i => exact tracked_fail hs

/-- **Every commit is ticketed.** -/
theorem ticketed_of_meets (hpad : 0 < d.settings.pad) {s : System d} {ev : Event Fp} (h : ev.Meets s) :
    ev.Ticketed s := by
  cases ev with
  | operate now op =>
    intro s' own hcommit k hk
    exact ticketed_commit hpad [] hcommit h hk
  | resume i now =>
    intro p hp s' own hcommit k hk
    exact ticketed_commit hpad p.tickets hcommit (h p hp).1 hk
  | ingest lines => trivial
  | claim ids => trivial
  | fold i suppressed refresh => trivial
  | fail i => trivial

/-- **Every run**: when every event meets its condition, every commit is ticketed by its operation, and whenever no
    ticket is open the facts are those of the transactions. -/
theorem changes_reach_analytics (d : Deployment Fp) (hpad : 0 < d.settings.pad) (s : System d) (hs : s.Tracked)
    (evs : List (Event Fp)) (h : MeetsThroughout s evs) : ReachesAnalytics s evs := by
  induction evs generalizing s with
  | nil => exact hs.settled
  | cons ev evs ih =>
    obtain ⟨hmeets, hrest⟩ := h
    exact ⟨hs.settled, ticketed_of_meets hpad hmeets, ih _ (tracked_step hpad hs hmeets) hrest⟩

/-! ## §8. A path that forgets. -/

/-- A deployment with the default settings; the digest of a fact is its number of attributes. -/
def defaults : Deployment Nat where
  world := plainWorld
  settings := {}
  maxWidth := 21600 * second
  interpreter := { digest := fun c => c.attributes.length, utcoffset := fun _ _ => 0, decimal := fun _ => none }
  zone := ⟨"UTC", utc_named⟩
  config := requestOnly

/-- One line at instant zero. -/
def storedLine : LogEntry := { hashedLine 1 .info "a" with timestamp := some 0 }

/-- Its transaction. -/
def storedRow : TxnRow Nat := freshRow plainWorld none (10, [storedLine])

/-- A tenant with one line and one transaction, to be folded. -/
def freshTenant : System defaults where
  source :=
    { store :=
        { entries := [storedLine]
          assigned := fun id => if id = 1 then some (10, 0) else none
          txns := [storedRow] }
      unique := List.nodup_singleton _ }
  ids := List.nodup_singleton _
  tickets := [⟨0, ⟨-1, 1, false⟩⟩]
  issued := 1
  facts := Table.empty

/-- Its ticket is claimed and folded. -/
def foldTicket : List (Event Nat) := [.claim [0], .fold 0 [] []]

/-- A parser that reads every line as a request. -/
def readsRequests : Reparse where
  reparse e := some { e with entryType := .request }
  id_eq := by
    intro e e' h
    obtain rfl := Option.some.inj h
    rfl
  timestamp_eq := by
    intro e e' h
    obtain rfl := Option.some.inj h
    rfl

theorem freshTenant_tracked : freshTenant.Tracked := by
  refine ⟨fun k hk => ?_, by decide, fun r hr => absurd hr List.not_mem_nil⟩
  refine ⟨⟨0, ⟨-1, 1, false⟩⟩, List.mem_singleton_self _, ?_, fun r hr => absurd hr List.not_mem_nil⟩
  by_cases hkey : rowKey storedRow = k
  · rw [← hkey]
    exact (by decide : (-1 : Int) ≤ 0 ∧ (0 : Int) < 1)
  · -- no other key stands for a row
    have hnone : standsFor freshTenant.source.store k = none := by
      unfold standsFor
      show ([storedRow].find? fun r => decide (rowKey r = k)).map _ = none
      rw [List.find?_cons_of_neg (by simpa using hkey)]
      rfl
    refine absurd ?_ hk
    unfold System.target
    rw [hnone]
    rfl

/-- A tenant with one transaction, which has no fact and no response line, is read in full. -/
theorem foldsInFull_single {s : System defaults} (row : TxnRow Nat) {w : UtcWindow}
    (hrows : s.source.store.txns = [row]) (hlines : s.source.responses row.id = [])
    (hnew : s.facts.find (rowKey row) = none) (hneeds : (s.foldRun w [] []).needs s.facts row.id = true)
    (hfails : defaults.interpreter.fails defaults.zone defaults.config [] row = false)
    (hquantity : ((defaults.interpreter.world.normalise defaults.zone defaults.config [] row).toOption.bind
      FactContent.quantity) = none) : s.FoldsInFull w [] [] := by
  have honly : ∀ r ∈ s.source.store.txns, r = row := fun r hr => List.mem_singleton.mp (hrows ▸ hr)
  have hread : (s.foldRun w [] []).responses row.id = [] := by
    show (s.source.responses row.id).filter _ = []
    rw [hlines]
    rfl
  refine ⟨rfl, fun r hr r' hr' _ _ => by rw [honly r hr, honly r' hr'], Or.inr fun r hr => ?_⟩
  obtain rfl := honly r (mem_sourceRows.mp hr).1
  have hfull : (s.foldRun w [] []).full defaults.interpreter.world r =
      (defaults.interpreter.world.normalise defaults.zone defaults.config [] r).toOption := by
    show (defaults.interpreter.world.normalise _ _ (s.source.responses r.id) r).toOption = _
    rw [hlines]
    rfl
  -- there is no quantity to hold, nothing is carried on, and what is normalised is new
  refine ⟨fun c hc q hq => ?_, fun _ => ⟨?_, ?_⟩, fun hno => ?_⟩
  · rw [hfull] at hc
    rw [hc] at hquantity
    exact absurd (hq.symm.trans hquantity) (by simp)
  · rw [hread]
    exact hfails
  · rw [hfull, hnew]
    unfold Run.normalised
    rw [hread]
    show ((defaults.interpreter.world.normalise defaults.zone defaults.config [] r).toOption.map fun c => c) = _
    exact Option.map_id'
  · rw [hneeds] at hno
    cases hno

theorem foldTicket_meets : MeetsThroughout freshTenant foldTicket := by
  refine ⟨trivial, fun r hr w hw => ?_, trivial⟩
  have hrun : (freshTenant.claim [0]).runs[0]? = some ⟨[⟨0, ⟨-1, 1, false⟩⟩], [⟨-1, 1⟩]⟩ := rfl
  obtain rfl := Option.some.inj (hrun.symm.trans hr)
  obtain rfl := Option.some.inj hw
  exact foldsInFull_single storedRow rfl (by decide +kernel) rfl (by decide +kernel) (by decide +kernel)
    (by decide +kernel)

/-- `regroup_all` with both its commits, and the fold of its tickets. -/
def rebuildAll : List (Event Nat) := [.operate 0 .regroupAll, .resume 0 0, .claim [1, 2], .fold 0 [] []]

theorem rebuildAll_meets : MeetsThroughout freshTenant (foldTicket ++ rebuildAll) := by
  refine ⟨trivial, foldTicket_meets.2.1, trivial, fun p hp => ?_, trivial, fun r hr w hw => ?_, trivial⟩
  · -- the tables are empty, and the tickets of the first commit are open
    have hpass : ((foldTicket ++ rebuildAll.take 1).foldl System.step freshTenant).passes[0]? =
      some ⟨.persistAll, [⟨1, ⟨-900000000, 900000000, false⟩⟩, ⟨2, ⟨-900000000, 900000000, false⟩⟩]⟩ := rfl
    obtain rfl := Option.some.inj (hpass.symm.trans hp)
    refine ⟨⟨fun e he => ?_, fun e he r hr => absurd hr List.not_mem_nil,
      fun g hg r hr => absurd hr List.not_mem_nil⟩, fun t ht => ⟨ht, fun r hr => absurd hr List.not_mem_nil⟩⟩
    obtain rfl : e = storedLine := List.mem_singleton.mp he
    exact ⟨⟨-900000000, 900000000, false⟩, List.mem_cons_self,
      (by decide : (-900000000 : Int) ≤ 0 ∧ (0 : Int) < 900000000)⟩
  · have hrun : ((foldTicket ++ rebuildAll.take 3).foldl System.step freshTenant).runs[0]? =
      some ⟨[⟨1, ⟨-900000000, 900000000, false⟩⟩, ⟨2, ⟨-900000000, 900000000, false⟩⟩],
        [⟨-900000000, 900000000⟩]⟩ := rfl
    obtain rfl := Option.some.inj (hrun.symm.trans hr)
    obtain rfl := Option.some.inj hw
    exact foldsInFull_single (freshRow plainWorld (some (-900000000, -3600000000)) (2, [storedLine])) rfl
      (by decide +kernel) (by decide +kernel) (by decide +kernel) (by decide +kernel) (by decide +kernel)

theorem changes_reach_analytics_rebuilt : ReachesAnalytics freshTenant (foldTicket ++ rebuildAll) :=
  changes_reach_analytics defaults (by decide) freshTenant freshTenant_tracked _ rebuildAll_meets

/-- Every change of every run reaches analytics. -/
def EveryChangeReaches : Prop :=
  ∀ (d : Deployment Nat) (s : System d) (evs : List (Event Nat)), 0 < d.settings.pad → s.Tracked →
    ReachesAnalytics s evs

/-- The fold, and then the parser reads the line otherwise. -/
def foldAndReclassify : List (Event Nat) := foldTicket ++ [.operate 0 (.reclassify 0 none readsRequests)]

/-- `reclassify` deletes a transaction whose fact is folded, and leaves no ticket for it. -/
theorem reclassify_unticketed : ¬ EveryChangeReaches := by
  intro h
  have hrun := h defaults freshTenant foldAndReclassify (by decide) freshTenant_tracked
  have hsettled : contentAt (foldAndReclassify.foldl System.step freshTenant).facts (10, some 0) = none :=
    hrun.2.2.2.2.2.2 rfl (10, some 0)
  have hfact : (contentAt (foldAndReclassify.foldl System.step freshTenant).facts (10, some 0)).isSome = true := by
    decide +kernel
  rw [hsettled] at hfact
  cases hfact

end RagPipeline.Analytics
