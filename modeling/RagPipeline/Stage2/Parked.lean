/-
  RagPipeline.Stage2.Parked — which builders are parked, and under which row.

  Two places decide it, each from its own builders.  The rebuild keeps a dictionary by key and skips the
  builders that have their response; the head lane appends a row for every builder within the gap.  Both mark
  every row as current.

    * `rebuildStreams` — what a rebuild saves;
    * `headStreams`    — what a plan of the head lane saves;
    * `Produced`       — what either of them hands to `save`.
-/
import RagPipeline.Stage2.Persist

namespace RagPipeline.Stage2

open RagPipeline.Lib

/-! ## §1. A row. -/

/-- `max(e.timestamp …, default=None)`. -/
def lastTimestamp (es : List LogEntry) : Option Instant := (stamps es).max?

/-- Whether the lines hold a response. -/
def hasResponse (es : List LogEntry) : Bool := es.any fun e => decide (e.entryType = .response)

/-- The row of a builder. -/
def streamRow (tid : UUID) (b : TxnBuilder) (anchor : LogEntry) (last : Instant) : OpenStream where
  server := entryServer anchor
  thread := anchor.thread
  userCtx := anchor.userCtx
  txnId := tid
  hasRequest := b.entries.any fun e => decide (e.entryType = .request)
  lastEntryTs := some last
  openPos := b.openPos
  isCurrent := true

/-- `entries.sort(key=_entry_stream_order)`. -/
def TxnBuilder.sorted (b : TxnBuilder) : TxnBuilder := { b with entries := sortEntries b.entries }

/-! ## §2. The rebuild. -/

/-- The row of a builder that can still receive a line. -/
def rebuildRow (gap : Duration) (windowLo : Instant) (p : UUID × TxnBuilder) : Option OpenStream :=
  match p.2.entries, lastTimestamp p.2.entries with
  | anchor :: _, some last =>
      -- closed by its response, or past the gap
      if hasResponse p.2.entries || decide (gap ≤ windowLo - last) then none
      else some (streamRow p.1 p.2 anchor last)
  | _, _ => none

/-- The newest wins within a key; both times are there. -/
def keepNewest (byKey : OrderedDict (String × Option String × Option String) OpenStream) (r : OpenStream) :
    OrderedDict (String × Option String × Option String) OpenStream :=
  match byKey.get? r.key with
  | some prior => if r.lastEntryTs.getD 0 ≤ prior.lastEntryTs.getD 0 then byKey else byKey.set r.key r
  | none => byKey.set r.key r

/-- The builders under the ids `_persist` gives them. -/
def assignedBuilders {Fp : Type} (w : World Fp) (cont : Continuity) (builders : List TxnBuilder) :
    List (UUID × TxnBuilder) :=
  (cont.assign w.txnId (builders.map fun b => sortEntries b.entries)).zip (builders.map TxnBuilder.sorted)

/-- `open_streams`. -/
def rebuildStreams (gap : Duration) (windowLo : Instant) (ps : List (UUID × TxnBuilder)) : List OpenStream :=
  ((ps.filterMap (rebuildRow gap windowLo)).foldl keepNewest OrderedDict.empty).values

/-! ## §3. The head lane. -/

/-- The row of a builder within the gap of the window's end. -/
def headRow (gap : Duration) (hi : Instant) (p : UUID × TxnBuilder) : Option OpenStream :=
  match p.2.entries, lastTimestamp p.2.entries with
  | anchor :: _, some last => if hi - last < gap then some (streamRow p.1 p.2 anchor last) else none
  | _, _ => none

/-- `plan.open_streams`. -/
def headStreams (gap : Duration) (hi : Instant) (ps : List (UUID × TxnBuilder)) : List OpenStream :=
  ps.filterMap (headRow gap hi)

/-! ## §4. What is saved. -/

/-- The arguments of `save`. -/
structure Parked where
  streams : List OpenStream
  pending : List LogEntry

/-- What the callers of `save` hand to it; neither has a pending request. -/
inductive Produced : Parked → Prop where
  | rebuild {Fp : Type} (w : World Fp) (gap : Duration) (windowLo : Instant) (cont : Continuity)
      (builders : List TxnBuilder) :
      Produced ⟨rebuildStreams gap windowLo (assignedBuilders w cont builders), []⟩
  | head (gap : Duration) (hi : Instant) (ids : List UUID) (builders : List TxnBuilder) :
      Produced ⟨headStreams gap hi (ids.zip (builders.map TxnBuilder.sorted)), []⟩

/-- A row of a rebuild is that of a builder without response. -/
theorem rebuildRow_eq_some {gap : Duration} {windowLo : Instant} {p : UUID × TxnBuilder} {r : OpenStream}
    (h : rebuildRow gap windowLo p = some r) :
    hasResponse p.2.entries = false ∧ ∃ anchor last, anchor ∈ p.2.entries ∧
      lastTimestamp p.2.entries = some last ∧ windowLo - last < gap ∧ r = streamRow p.1 p.2 anchor last := by
  unfold rebuildRow at h
  split at h
  · next anchor rest last hes hlast =>
    split at h
    · cases h
    · next hopen =>
      rw [Bool.or_eq_true, not_or, Bool.not_eq_true, decide_eq_true_eq] at hopen
      refine ⟨hopen.1, anchor, last, ?_, hlast, Int.not_le.mp hopen.2, (Option.some.inj h).symm⟩
      rw [hes]
      exact List.mem_cons_self
  · cases h

theorem headRow_eq_some {gap : Duration} {hi : Instant} {p : UUID × TxnBuilder} {r : OpenStream}
    (h : headRow gap hi p = some r) : ∃ anchor last, anchor ∈ p.2.entries ∧
      lastTimestamp p.2.entries = some last ∧ hi - last < gap ∧ r = streamRow p.1 p.2 anchor last := by
  unfold headRow at h
  split at h
  · next anchor rest last hes hlast =>
    split at h
    · next hopen =>
      refine ⟨anchor, last, ?_, hlast, hopen, (Option.some.inj h).symm⟩
      rw [hes]
      exact List.mem_cons_self
    · cases h
  · cases h

/-- A dictionary of rows under their keys, all of them among the rows that came. -/
structure Keyed (seen : List OpenStream) (d : OrderedDict (String × Option String × Option String) OpenStream) :
    Prop where
  key : ∀ q ∈ d.items, q.2.key = q.1
  mem : ∀ q ∈ d.items, q.2 ∈ seen

/-- One step. -/
theorem keyed_keepNewest {seen : List OpenStream}
    {d : OrderedDict (String × Option String × Option String) OpenStream} {r : OpenStream} (h : Keyed seen d)
    (hr : r ∈ seen) : Keyed seen (keepNewest d r) := by
  have hset : Keyed seen (d.set r.key r) := by
    constructor
    · intro q hq
      cases OrderedDict.mem_set.mp hq with
      | inl hnew => rw [hnew.1, hnew.2]
      | inr hold => exact h.key q hold.2
    · intro q hq
      cases OrderedDict.mem_set.mp hq with
      | inl hnew => rw [hnew.2]; exact hr
      | inr hold => exact h.mem q hold.2
  unfold keepNewest
  split
  · split
    · exact h
    · exact hset
  · exact hset

theorem keyed_foldl {seen rows : List OpenStream}
    {d : OrderedDict (String × Option String × Option String) OpenStream} (h : Keyed seen d)
    (hrows : ∀ r ∈ rows, r ∈ seen) : Keyed seen (rows.foldl keepNewest d) := by
  induction rows generalizing d with
  | nil => exact h
  | cons r rows ih =>
    exact ih (keyed_keepNewest h (hrows r List.mem_cons_self)) fun r' hr' => hrows r' (List.mem_cons_of_mem _ hr')

/-- **What a rebuild saves**: rows of its builders, one for each key. -/
theorem rebuildStreams_spec (gap : Duration) (windowLo : Instant) (ps : List (UUID × TxnBuilder)) :
    ((rebuildStreams gap windowLo ps).map OpenStream.key).Nodup ∧
      ∀ r ∈ rebuildStreams gap windowLo ps, ∃ p ∈ ps, rebuildRow gap windowLo p = some r := by
  have hkeyed : Keyed (ps.filterMap (rebuildRow gap windowLo))
      ((ps.filterMap (rebuildRow gap windowLo)).foldl keepNewest OrderedDict.empty) :=
    keyed_foldl ⟨fun _ hq => absurd hq List.not_mem_nil, fun _ hq => absurd hq List.not_mem_nil⟩ fun _ hr => hr
  unfold rebuildStreams
  generalize (ps.filterMap (rebuildRow gap windowLo)).foldl keepNewest OrderedDict.empty = d at hkeyed ⊢
  constructor
  · have hkeys : d.values.map OpenStream.key = d.items.map Prod.fst := by
      unfold OrderedDict.values
      rw [List.map_map]
      exact List.map_congr_left fun q hq => hkeyed.key q hq
    rw [hkeys]
    exact d.nodup
  · intro r hr
    obtain ⟨q, hq, hqr⟩ := List.mem_map.mp hr
    have hseen := hkeyed.mem q hq
    rw [hqr] at hseen
    exact List.mem_filterMap.mp hseen

/-- **Every row that is handed to `save` is marked as current.** -/
theorem current_of_produced {p : Parked} (hp : Produced p) : ∀ s ∈ p.streams, s.isCurrent = true := by
  intro s hs
  cases hp with
  | rebuild w gap windowLo cont builders =>
    obtain ⟨q, -, hq⟩ := (rebuildStreams_spec gap windowLo _).2 s hs
    obtain ⟨-, anchor, last, -, -, -, heq⟩ := rebuildRow_eq_some hq
    rw [heq]
    rfl
  | head gap hi ids builders =>
    obtain ⟨q, -, hq⟩ := List.mem_filterMap.mp hs
    obtain ⟨anchor, last, -, -, -, heq⟩ := headRow_eq_some hq
    rw [heq]
    rfl

theorem pending_of_produced {p : Parked} (hp : Produced p) : p.pending = [] := by
  cases hp with
  | rebuild => rfl
  | head => rfl

end RagPipeline.Stage2
