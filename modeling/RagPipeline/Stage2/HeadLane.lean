/-
  RagPipeline.Stage2.HeadLane — `build_plan`: what the head lane would write for a window, or why it falls back.

  The lines of the window that have no transaction are grouped on top of the streams that are parked.  A
  builder that holds lines of a parked transaction continues it, any other is a new transaction, and a builder
  within the gap of the window's end is parked again — with or without its response, and whether or not another
  builder has its key.

    * `buildPlan`            — the guards in order, then one verdict for each builder;
    * `buildPlan_spec`       — what a plan says of each builder;
    * `plan_owns`            — once the plan is applied, the lines of a parked builder are those of the
                               transaction its row names;
    * `plan_like_rebuild_iff` — a plan parks by the rule of the rebuild exactly when no builder within the gap
                               has its response and no two of them have one key.
-/
import RagPipeline.Stage2.Conservation
import RagPipeline.Stage2.Parked
import RagPipeline.Stage2.Regroup

namespace RagPipeline.Stage2

open RagPipeline.Lib

variable {Fp : Type} [DecidableEq Fp]

/-! ## §1. The parked streams. -/

/-- Why a window is left to the rebuild lane. -/
inductive Fallback where
  | noCheckpoint | behindCheckpoint | noRows | clockWentBackwards | parkedUnreadable | parkedClosed
  | parkedLoneRequest | parkedRequestless | parkedVanished | parkedSealed | parkedMerge | anonymousOpen
  | startedAtMoved | idClash
  deriving DecidableEq, Repr

/-- The reasons `usable` gives. -/
inductive Refusal where
  | noTimestamp | clockWentBackwards | quietGap
  deriving DecidableEq, Repr

/-- `usable`: none is yes. -/
def refusal (c : Settings) (windowLo : Instant) (r : OpenStream) : Option Refusal :=
  match r.lastEntryTs with
  | none => some .noTimestamp
  | some last =>
      if windowLo ≤ last then some .clockWentBackwards
      else if c.logOpenGap ≤ windowLo - last then some .quietGap
      else none

/-- `state["streams"]`. -/
def Store.usableStreams (c : Settings) (st : Store Fp) (windowLo : Instant) : List OpenStream :=
  st.streams.filter fun r => decide (refusal c windowLo r = none)

/-- Whether a stream was refused for its clock. -/
def Store.clockWentBackwards (c : Settings) (st : Store Fp) (windowLo : Instant) : Bool :=
  st.streams.any fun r => decide (refusal c windowLo r = some .clockWentBackwards)

/-- The pending requests, reloaded. -/
def Store.pendingLines (st : Store Fp) : List LogEntry := st.entries.filter fun e => decide (e.id ∈ st.pending)

/-- The rows of the window: its lines without a transaction. -/
def Store.headRows (st : Store Fp) (lo hi : Instant) : List LogEntry :=
  readOrder (st.entries.filter fun e => within lo hi e.timestamp && st.isUnassigned e)

/-- A stream as it is put back. -/
def Store.seedOf (st : Store Fp) (r : OpenStream) : SeedStream :=
  ⟨r.thread, r.userCtx, r.isCurrent, r.openPos, st.linesOf r.txnId⟩

/-- `seed`. -/
def Store.headSeed (st : Store Fp) (parked : List OpenStream) : Seed :=
  ⟨parked.map st.seedOf, st.pendingLines⟩

/-- `txn_of_entry.get(id)`: a later stream overwrites. -/
def Store.txnOfEntry (st : Store Fp) (parked : List OpenStream) (id : UUID) : Option UUID :=
  ((parked.filter fun r => decide (id ∈ (st.linesOf r.txnId).map (·.id))).getLast?).map OpenStream.txnId

/-- `parked_rows.get(tid)`. -/
def Store.parkedRow (st : Store Fp) (parked : List OpenStream) (tid : UUID) : Option (TxnRow Fp) :=
  (st.txns.filter fun r => decide (r.id ∈ parked.map OpenStream.txnId)).reverse.find? fun r => decide (r.id = tid)

/-- `len(parked_rows)`. -/
def Store.parkedFound (st : Store Fp) (parked : List OpenStream) : ℕ :=
  ((st.txns.map TxnRow.id).filter fun id => decide (id ∈ parked.map OpenStream.txnId)).dedup.length

/-- The guards, in order; what is left are the streams to put back. -/
def parkedGuards (c : Settings) (st : Store Fp) (lo hi : Instant) : Except Fallback (List OpenStream) :=
  match st.checkpoint with
  | none => .error .noCheckpoint
  | some checkpoint =>
      let parked := st.usableStreams c lo
      if lo < checkpoint then .error .behindCheckpoint
      else if (st.headRows lo hi).isEmpty then .error .noRows
      else if st.clockWentBackwards c lo then .error .clockWentBackwards
      else if parked.any fun r => (st.linesOf r.txnId).isEmpty then .error .parkedUnreadable
      else if parked.any fun r => hasResponse (st.linesOf r.txnId) then .error .parkedClosed
      else if parked.any fun r => decide ((st.linesOf r.txnId).map (·.entryType) = [.request]) then
        .error .parkedLoneRequest
      else if parked.any fun r => !r.hasRequest then .error .parkedRequestless
      else if st.parkedFound parked ≠ parked.length then .error .parkedVanished
      else if parked.any fun r => (st.parkedRow parked r.txnId).any TxnRow.isSealed then .error .parkedSealed
      else .ok parked

/-! ## §2. One builder. -/

/-- The builders of the window, their lines sorted. -/
def headBuilders (c : Settings) (st : Store Fp) (lo hi : Instant) : List TxnBuilder :=
  ((group c.logOpenGap (st.headSeed (st.usableStreams c lo)) (st.headRows lo hi)).filter
    fun b => !b.entries.isEmpty).map TxnBuilder.sorted

/-- What is decided of a builder. -/
inductive Verdict (Fp : Type) where
  | unchanged (txnId : UUID)
  | continued (x : Continuation Fp) (start : x.values.startedAt = x.startedAt)
  | created (x : Creation Fp)

/-- The transaction a builder is. -/
def Verdict.txnId : Verdict Fp → UUID
  | .unchanged tid => tid
  | .continued x _ => x.txnId
  | .created x => x.txnId

/-- A builder within the gap that no user can be told of. -/
def anonymousOpen (c : Settings) (hi : Instant) (b : TxnBuilder) : Bool :=
  match b.entries, lastTimestamp b.entries with
  | anchor :: _, some last =>
      decide (hi - last < c.logOpenGap) && anchor.userCtx.isNone && (entryUser anchor).isNone
  | _, _ => false

/-- The body of the loop; `row` is what a write would make of the builder. -/
def judge (w : World Fp) (c : Settings) (st : Store Fp) (parked : List OpenStream) (hi : Instant)
    (b : TxnBuilder) : Except Fallback (Verdict Fp) :=
  let owners := (b.entries.filterMap fun e => st.txnOfEntry parked e.id).dedup
  if 1 < owners.length then .error .parkedMerge
  else if anonymousOpen c hi b then .error .anonymousOpen
  else
    match owners.head? with
    | some tid =>
        let row := freshRow w (st.cutoffs c) (tid, b.entries)
        match st.parkedRow parked tid with
        | none => .error .parkedVanished
        | some stored =>
            if hstart : row.values.startedAt = stored.startedAt then
              if row.rowFingerprint = stored.rowFingerprint ∧ row.membersFingerprint = stored.membersFingerprint then
                .ok (.unchanged tid)
              else
                .ok (.continued
                  { txnId := tid
                    startedAt := stored.startedAt
                    oldRowFp := stored.rowFingerprint
                    values := row.values
                    isSealed := row.isSealed
                    rowFp := w.row row.values row.isSealed
                    membersFp := w.members (b.entries.map (·.id))
                    entries := b.entries } hstart)
            else .error .startedAtMoved
    | none =>
        let row := freshRow w (st.cutoffs c) (w.txnId b.entries, b.entries)
        .ok (.created
          { txnId := w.txnId b.entries
            values := row.values
            isSealed := row.isSealed
            rowFp := w.row row.values row.isSealed
            membersFp := w.members (b.entries.map (·.id))
            entries := b.entries })

/-- The verdicts, until the first builder that falls back. -/
def judgeAll (judge : TxnBuilder → Except Fallback (Verdict Fp)) :
    List TxnBuilder → Except Fallback (List (TxnBuilder × Verdict Fp))
  | [] => .ok []
  | b :: bs =>
      match judge b with
      | .error reason => .error reason
      | .ok v => (judgeAll judge bs).map fun vs => (b, v) :: vs

/-! ## §3. The plan. -/

/-- The continuation of a verdict. -/
def Verdict.continuation? : Verdict Fp → Option {x : Continuation Fp // x.values.startedAt = x.startedAt}
  | .continued x start => some ⟨x, start⟩
  | .unchanged _ | .created _ => none

/-- The creation of a verdict. -/
def Verdict.creation? : Verdict Fp → Option (Creation Fp)
  | .created x => some x
  | .unchanged _ | .continued _ _ => none

/-- A plan, with `open_streams`: each row beside the builder it was made of. -/
structure ParkingPlan (Fp : Type) where
  writes : HeadPlan Fp
  parked : List (TxnBuilder × OpenStream)

/-- What is written for these verdicts. -/
def writesOf (lo hi : Instant) (vs : List (TxnBuilder × Verdict Fp)) : HeadPlan Fp where
  lo := lo
  hi := hi
  continued := (vs.filterMap fun p => p.2.continuation?).map Subtype.val
  created := vs.filterMap fun p => p.2.creation?
  starts := by
    intro x hx
    obtain ⟨y, -, rfl⟩ := List.mem_map.mp hx
    exact y.2

/-- What is parked. -/
def parkedOf (c : Settings) (hi : Instant) (vs : List (TxnBuilder × Verdict Fp)) : List (TxnBuilder × OpenStream) :=
  vs.filterMap fun p => (headRow c.logOpenGap hi (p.2.txnId, p.1)).map fun r => (p.1, r)

/-- The id of a creation is taken. -/
def idClash (c : Settings) (st : Store Fp) (bs : List TxnBuilder) (created : List UUID) : Bool :=
  !created.isEmpty &&
    !(st.existingIds (clashWindow c.pad (bs.flatMap fun b => stamps b.entries)) created).isEmpty

/-- **`build_plan`.** -/
def buildPlan (w : World Fp) (c : Settings) (st : Store Fp) (lo hi : Instant) : Except Fallback (ParkingPlan Fp) :=
  match parkedGuards c st lo hi with
  | .error reason => .error reason
  | .ok parked =>
      match judgeAll (judge w c st parked hi) (headBuilders c st lo hi) with
      | .error reason => .error reason
      | .ok vs =>
          if idClash c st (headBuilders c st lo hi) ((vs.filterMap fun p => p.2.creation?).map Creation.txnId) then
            .error .idClash
          else .ok ⟨writesOf lo hi vs, parkedOf c hi vs⟩

/-! ## §4. What it is for. -/

/-- The key a builder within the gap is parked under. -/
def openKey (c : Settings) (hi : Instant) (b : TxnBuilder) : Option (String × Option String × Option String) :=
  match b.entries, lastTimestamp b.entries with
  | anchor :: _, some last =>
      if hi - last < c.logOpenGap then some (entryServer anchor, anchor.thread, anchor.userCtx) else none
  | _, _ => none

/-- The rule of the rebuild: no row for a builder with its response, one row for each key; and once the plan is
    applied, the lines of a builder are those of the transaction its row names. -/
structure LikeRebuild (now : Instant) (st : Store Fp) (plan : ParkingPlan Fp) : Prop where
  unanswered : ∀ p ∈ plan.parked, hasResponse p.1.entries = false
  keys : (plan.parked.map fun p => p.2.key).Nodup
  owned : ∀ done, applyPlan now st plan.writes = some done → ∀ p ∈ plan.parked, ∀ e ∈ p.1.entries,
    done.store.assigned.owner e.id = some p.2.txnId

/-- No builder of the batch within the gap has its response, and no two of them have one key. -/
structure OpenAsRebuilt (c : Settings) (st : Store Fp) (lo hi : Instant) : Prop where
  unanswered : ∀ b ∈ headBuilders c st lo hi, openKey c hi b ≠ none → hasResponse b.entries = false
  keys : ((headBuilders c st lo hi).filterMap (openKey c hi)).Nodup

/-- What the writers of the tables see to: a line has one row, no request is pending, a stream is stored under
    the server of its first line and no two have one key, and the digest of a transaction's members is that of
    the lines assigned to it. -/
structure Store.Sound (w : World Fp) (st : Store Fp) : Prop where
  ids : (st.entries.map (·.id)).Nodup
  pending : st.pending = []
  keys : (st.streams.map OpenStream.key).Nodup
  server : ∀ r ∈ st.streams, ∀ e es, st.linesOf r.txnId = e :: es → r.server = entryServer e
  digest : ∀ r ∈ st.txns, ∀ fp, r.membersFingerprint = some fp → fp = w.members ((st.linesOf r.id).map (·.id))

/-! ## §5. The builders share no line. -/

namespace GroupState

variable {ι : Type} [DecidableEq ι] {s : GroupState ι}

/-- What a returned item is. -/
theorem returned_cases {x : Returned ι} (hx : x ∈ s.finish) :
    (∃ r ∈ s.reachable, x = .shared r) ∨ ∃ e, x = .lone e ∧ e ∈ (s.pendingReqs : Multiset LogEntry) + s.lones := by
  unfold finish at hx
  rw [List.mem_append, List.mem_append] at hx
  cases x with
  | shared r =>
    refine .inl ⟨r, mem_reachable_iff_flush.mpr ?_, rfl⟩
    cases hx with
    | inl hx =>
      cases hx with
      | inl hout => exact .inr (List.mem_filterMap.mpr ⟨_, hout, rfl⟩)
      | inr hflush =>
        obtain ⟨r', hr', heq⟩ := List.mem_map.mp hflush
        cases heq
        exact .inl ((mem_emitted _ _).mp hr').1
    | inr hpend =>
      obtain ⟨e, -, heq⟩ := List.mem_map.mp hpend
      cases heq
  | lone e =>
    refine .inr ⟨e, rfl, ?_⟩
    cases hx with
    | inl hx =>
      cases hx with
      | inl hout => exact Multiset.mem_add.mpr (.inr (List.mem_filterMap.mpr ⟨_, hout, rfl⟩))
      | inr hflush =>
        obtain ⟨r', -, heq⟩ := List.mem_map.mp hflush
        cases heq
    | inr hpend =>
      obtain ⟨e', he', heq⟩ := List.mem_map.mp hpend
      cases heq
      exact Multiset.mem_add.mpr (.inl he')

/-- **Returned builders that share a line are one.** -/
theorem returned_shared (hn : s.content.Nodup) {x y : Returned ι} (hx : x ∈ s.finish) (hy : y ∈ s.finish)
    {e : LogEntry} (he : e ∈ (s.resolve x).entries) (he' : e ∈ (s.resolve y).entries) :
    s.resolve x = s.resolve y := by
  unfold content at hn
  rw [add_assoc] at hn
  obtain ⟨hsum, -, hapart⟩ := Multiset.nodup_add.mp hn
  -- the books have each line once
  have hmem : ∀ r ∈ s.reachable, ∀ e' ∈ (s.builder r).entries,
      e' ∈ ∑ r ∈ s.reachable, ((s.builder r).entries : Multiset LogEntry) := by
    intro r hr e' he'
    exact Multiset.mem_sum.mpr ⟨r, hr, he'⟩
  cases returned_cases hx with
  | inl hshared =>
    obtain ⟨r, hr, rfl⟩ := hshared
    cases returned_cases hy with
    | inl hshared' =>
      obtain ⟨r', hr', rfl⟩ := hshared'
      by_cases heq : r = r'
      · rw [heq]
      · -- two builders make up a part of the books
        have hsub : ({r, r'} : Finset (BuilderRef ι)) ⊆ s.reachable := by
          intro q hq
          cases Finset.mem_insert.mp hq with
          | inl h => exact h ▸ hr
          | inr h => exact (Finset.mem_singleton.mp h) ▸ hr'
        have hle := Finset.sum_le_sum_of_subset (f := fun r => ((s.builder r).entries : Multiset LogEntry)) hsub
        rw [Finset.sum_pair heq] at hle
        have hpair := (Multiset.nodup_add.mp (Multiset.nodup_of_le hle hsum)).2.2
        exact absurd he' (Multiset.disjoint_left.mp hpair he)
    | inr hlone =>
      obtain ⟨e', rfl, hin⟩ := hlone
      rw [List.mem_singleton.mp he'] at he
      exact absurd hin (Multiset.disjoint_left.mp hapart (hmem r hr e' he))
  | inr hlone =>
    obtain ⟨e₁, rfl, hin⟩ := hlone
    rw [List.mem_singleton.mp he] at he'
    cases returned_cases hy with
    | inl hshared' =>
      obtain ⟨r', hr', rfl⟩ := hshared'
      exact absurd hin (Multiset.disjoint_left.mp hapart (hmem r' hr' e₁ he'))
    | inr hlone' =>
      obtain ⟨e₂, rfl, -⟩ := hlone'
      rw [List.mem_singleton.mp he']

end GroupState

/-- **Builders of one grouping that share a line are one.** -/
theorem group_shared {gap : Duration} {seed : Seed} {entries : List LogEntry} (hv : seed.Valid)
    (hids : (entries.map (·.id)).Nodup) (hpending : ∀ r ∈ seed.pending, ∀ e ∈ entries, r.id ≠ e.id)
    {b b' : TxnBuilder} (hb : b ∈ group gap seed entries) (hb' : b' ∈ group gap seed entries) {e e' : LogEntry}
    (he : e ∈ b.entries) (he' : e' ∈ b'.entries) (hid : e.id = e'.id) : b = b' := by
  obtain ⟨-, -, -, hfinal⟩ := books_group gap hv hids hpending
  obtain ⟨x, hx, rfl⟩ := List.mem_map.mp hb
  obtain ⟨y, hy, rfl⟩ := List.mem_map.mp hb'
  have hin : ∀ z ∈ groupReturned gap seed entries, ∀ d ∈ ((groupFinal gap seed entries).resolve z).entries,
      d ∈ (groupFinal gap seed entries).content := fun z hz d hd =>
    mem_content_of_returned (List.mem_flatMap.mpr ⟨z, hz, hd⟩)
  have hsame : e = e' := Multiset.inj_on_of_nodup_map hfinal e (hin x hx e he) e' (hin y hy e' he') hid
  exact GroupState.returned_shared hfinal.of_map hx hy he (hsame ▸ he')

/-! ## §6. The guards. -/

section Guards

variable {w : World Fp} {c : Settings} {st : Store Fp} {lo hi : Instant}

/-- A guard that was passed. -/
theorem guard_ok {ε α : Type} {p : Prop} [Decidable p] {reason : ε} {x : Except ε α} {a : α}
    (h : (if p then .error reason else x) = .ok a) : ¬p ∧ x = .ok a := by
  by_cases hp : p
  · rw [if_pos hp] at h
    cases h
  · rw [if_neg hp] at h
    exact ⟨hp, h⟩

omit [DecidableEq Fp] in
/-- As many transactions are found as streams are asked for: no two streams have one. -/
theorem nodup_of_found {parked : List OpenStream} (h : st.parkedFound parked = parked.length) :
    (parked.map OpenStream.txnId).Nodup := by
  have hle : st.parkedFound parked ≤ (parked.map OpenStream.txnId).dedup.length := by
    unfold Store.parkedFound
    refine (List.Nodup.subperm (List.nodup_dedup _) fun id hid => ?_).length_le
    exact List.mem_dedup.mpr (of_decide_eq_true (List.mem_filter.mp (List.mem_dedup.mp hid)).2)
  have hlen : (parked.map OpenStream.txnId).length ≤ (parked.map OpenStream.txnId).dedup.length := by
    rw [List.length_map, ← h]
    exact hle
  have hsub := List.dedup_sublist (parked.map OpenStream.txnId)
  rw [← hsub.eq_of_length_le hlen]
  exact List.nodup_dedup _

omit [DecidableEq Fp] in
/-- What the guards let through: every stream that is put back has lines, and no two have one transaction. -/
theorem parkedGuards_ok {parked : List OpenStream} (h : parkedGuards c st lo hi = .ok parked) :
    parked = st.usableStreams c lo ∧ (∀ r ∈ parked, st.linesOf r.txnId ≠ []) ∧
      (parked.map OpenStream.txnId).Nodup := by
  unfold parkedGuards at h
  cases hcheckpoint : st.checkpoint with
  | none =>
    rw [hcheckpoint] at h
    cases h
  | some checkpoint =>
    rw [hcheckpoint] at h
    obtain ⟨-, h⟩ := guard_ok h
    obtain ⟨-, h⟩ := guard_ok h
    obtain ⟨-, h⟩ := guard_ok h
    obtain ⟨hreadable, h⟩ := guard_ok h
    obtain ⟨-, h⟩ := guard_ok h
    obtain ⟨-, h⟩ := guard_ok h
    obtain ⟨-, h⟩ := guard_ok h
    obtain ⟨hfound, h⟩ := guard_ok h
    obtain ⟨-, h⟩ := guard_ok h
    cases h
    refine ⟨rfl, fun r hr hempty => hreadable (List.any_eq_true.mpr ⟨r, hr, ?_⟩), ?_⟩
    · rw [hempty]
      rfl
    · exact nodup_of_found (not_ne_iff.mp hfound)

omit [DecidableEq Fp] in
theorem mem_linesOf {tid : UUID} {e : LogEntry} :
    e ∈ st.linesOf tid ↔ e ∈ st.entries ∧ st.assigned.owner e.id = some tid := by
  unfold Store.linesOf
  rw [List.mem_insertionSort, List.mem_filter, decide_eq_true_eq]

omit [DecidableEq Fp] in
theorem nodup_linesOf (hids : (st.entries.map (·.id)).Nodup) (tid : UUID) :
    ((st.linesOf tid).map (·.id)).Nodup := by
  unfold Store.linesOf
  rw [((List.perm_insertionSort _ _).map _).nodup_iff]
  exact hids.sublist (List.filter_sublist.map _)

omit [DecidableEq Fp] in
theorem nodup_headRows (hids : (st.entries.map (·.id)).Nodup) : ((st.headRows lo hi).map (·.id)).Nodup := by
  unfold Store.headRows readOrder
  rw [((List.perm_insertionSort _ _).map _).nodup_iff]
  exact hids.sublist (List.filter_sublist.map _)

omit [DecidableEq Fp] in
/-- **The seed of a plan is a seed of open streams.** -/
theorem valid_headSeed (hst : st.Sound w) {parked : List OpenStream} (h : parkedGuards c st lo hi = .ok parked) :
    (st.headSeed parked).Valid ∧ (st.headSeed parked).pending = [] := by
  obtain ⟨hparked, hfilled, hdistinct⟩ := parkedGuards_ok h
  -- no line waits in a sound store
  have hnone : st.pendingLines = [] := by
    unfold Store.pendingLines
    rw [hst.pending]
    exact List.filter_eq_nil_iff.mpr fun e _ hin => List.not_mem_nil (of_decide_eq_true hin)
  have hsub : parked.Sublist st.streams := by
    rw [hparked]
    exact List.filter_sublist
  refine ⟨⟨?_, ?_, ?_⟩, hnone⟩
  · intro s hs
    obtain ⟨r, hr, rfl⟩ := List.mem_map.mp hs
    exact hfilled r hr
  · -- the server of a stream is the one it is stored under
    have hkeys : ((st.headSeed parked).streams.map fun s => (s.server, s.thread, s.userCtx)) =
        parked.map OpenStream.key := by
      unfold Store.headSeed
      rw [List.map_map]
      refine List.map_congr_left fun r hr => ?_
      obtain ⟨e, es, hes⟩ := List.exists_cons_of_ne_nil (hfilled r hr)
      have hserver := hst.server r (hsub.subset hr) e es hes
      show ((st.seedOf r).server, r.thread, r.userCtx) = (r.server, r.thread, r.userCtx)
      have hseed : (st.seedOf r).server = r.server := by
        unfold Store.seedOf SeedStream.server
        rw [hes, hserver]
      rw [hseed]
    rw [hkeys]
    exact hst.keys.sublist (hsub.map _)
  · -- a line has one owner
    have hlines : (st.headSeed parked).lines = parked.flatMap fun r => st.linesOf r.txnId := by
      unfold Seed.lines Store.headSeed
      rw [hnone, List.append_nil, List.flatMap_map]
      rfl
    rw [hlines, List.map_flatMap, List.nodup_flatMap]
    refine ⟨fun r _ => nodup_linesOf hst.ids r.txnId, ?_⟩
    refine (List.pairwise_map.mp hdistinct).imp fun {r r'} hne => ?_
    intro id hid hid'
    obtain ⟨e, he, heid⟩ := List.mem_map.mp hid
    obtain ⟨e', he', heid'⟩ := List.mem_map.mp hid'
    have hown := (mem_linesOf.mp he).2
    have hown' := (mem_linesOf.mp he').2
    rw [heid] at hown
    rw [heid', hown] at hown'
    exact hne (Option.some.inj hown')

omit [DecidableEq Fp] in
/-- **Builders of a window that share a line are one.** -/
theorem headBuilders_shared (hst : st.Sound w) {parked : List OpenStream}
    (h : parkedGuards c st lo hi = .ok parked) {b b' : TxnBuilder} (hb : b ∈ headBuilders c st lo hi)
    (hb' : b' ∈ headBuilders c st lo hi) {e e' : LogEntry} (he : e ∈ b.entries) (he' : e' ∈ b'.entries)
    (hid : e.id = e'.id) : b = b' := by
  obtain ⟨hvalid, hpending⟩ := valid_headSeed hst h
  rw [(parkedGuards_ok h).1] at hvalid hpending
  obtain ⟨g, hg, rfl⟩ := List.mem_map.mp hb
  obtain ⟨g', hg', rfl⟩ := List.mem_map.mp hb'
  have hsort : ∀ g : TxnBuilder, ∀ e, e ∈ g.sorted.entries → e ∈ g.entries := fun g e he =>
    (List.perm_insertionSort _ g.entries).mem_iff.mp he
  have hfree : ∀ r ∈ (st.headSeed (st.usableStreams c lo)).pending, ∀ e ∈ st.headRows lo hi, r.id ≠ e.id := by
    rw [hpending]
    exact fun r hr => absurd hr List.not_mem_nil
  have hsame : g = g' := group_shared hvalid (nodup_headRows hst.ids) hfree (List.mem_filter.mp hg).1
    (List.mem_filter.mp hg').1 (hsort g e he) (hsort g' e' he') hid
  rw [hsame]

end Guards

/-! ## §7. The verdicts. -/

section Verdicts

variable {w : World Fp} {c : Settings} {st : Store Fp} {lo hi : Instant} {parked : List OpenStream}

/-- The lines a verdict gives to its transaction. -/
def Verdict.writes : Verdict Fp → Option (Write UUID UUID)
  | .unchanged _ => none
  | .continued x _ => some ⟨x.txnId, x.entries.map (·.id), true⟩
  | .created x => some ⟨x.txnId, x.entries.map (·.id), true⟩

omit [DecidableEq Fp] in
theorem parkedRow_some {tid : UUID} {r : TxnRow Fp} (h : st.parkedRow parked tid = some r) :
    r ∈ st.txns ∧ r.id = tid := by
  unfold Store.parkedRow at h
  have hin := List.mem_reverse.mp (List.mem_of_find?_eq_some h)
  have hid := List.find?_some h
  exact ⟨(List.mem_filter.mp hin).1, of_decide_eq_true hid⟩

/-- **What is decided of a builder**: its lines are given to its transaction; or nothing is written, and it has the
    members digest of a stored one. -/
theorem judge_ok {b : TxnBuilder} {v : Verdict Fp} (h : judge w c st parked hi b = .ok v) :
    v.writes = some ⟨v.txnId, b.entries.map (·.id), true⟩ ∨
      v.writes = none ∧ ∃ r ∈ st.txns, r.id = v.txnId ∧
        r.membersFingerprint = some (w.members (b.entries.map (·.id))) := by
  unfold judge at h
  dsimp only at h
  obtain ⟨-, h⟩ := guard_ok h
  obtain ⟨-, h⟩ := guard_ok h
  split at h
  · next tid _ =>
    split at h
    · cases h
    · next stored hstored =>
      split at h
      · split at h
        · next hsame =>
          cases h
          obtain ⟨hmem, hid⟩ := parkedRow_some hstored
          exact .inr ⟨rfl, stored, hmem, hid, hsame.2.symm⟩
        · cases h
          exact .inl rfl
      · cases h
  · cases h
    exact .inl rfl

omit [DecidableEq Fp] in
/-- Every builder has its own verdict. -/
theorem judgeAll_ok {judge : TxnBuilder → Except Fallback (Verdict Fp)} {bs : List TxnBuilder}
    {vs : List (TxnBuilder × Verdict Fp)} (h : judgeAll judge bs = .ok vs) :
    vs.map Prod.fst = bs ∧ ∀ p ∈ vs, judge p.1 = .ok p.2 := by
  induction bs generalizing vs with
  | nil =>
    cases h
    exact ⟨rfl, fun _ hp => absurd hp List.not_mem_nil⟩
  | cons b bs ih =>
    unfold judgeAll at h
    split at h
    · cases h
    · next v hv =>
      cases hrest : judgeAll judge bs with
      | error reason =>
        rw [hrest] at h
        cases h
      | ok vs' =>
        rw [hrest] at h
        cases h
        obtain ⟨hbs, hall⟩ := ih hrest
        refine ⟨congrArg (b :: ·) hbs, fun p hp => ?_⟩
        cases List.mem_cons.mp hp with
        | inl heq =>
          rw [heq]
          exact hv
        | inr hmem => exact hall p hmem

/-- **A plan**: one verdict for each builder, and from these what is written and what is parked. -/
theorem buildPlan_spec {plan : ParkingPlan Fp} (h : buildPlan w c st lo hi = .ok plan) :
    ∃ parked vs, parkedGuards c st lo hi = .ok parked ∧ vs.map Prod.fst = headBuilders c st lo hi ∧
      (∀ p ∈ vs, judge w c st parked hi p.1 = .ok p.2) ∧ plan = ⟨writesOf lo hi vs, parkedOf c hi vs⟩ := by
  unfold buildPlan at h
  split at h
  · cases h
  · next parked hguards =>
    split at h
    · cases h
    · next vs hjudged =>
      obtain ⟨-, h⟩ := guard_ok h
      cases h
      obtain ⟨hfst, hall⟩ := judgeAll_ok hjudged
      exact ⟨parked, vs, hguards, hfst, hall, rfl⟩

end Verdicts

/-! ## §8. The plan, applied. -/

section Applied

variable {w : World Fp} {c : Settings} {st : Store Fp} {lo hi now : Instant}

/-- The lines a plan gives to its transactions. -/
def HeadPlan.assigns (p : HeadPlan Fp) : List (Write UUID UUID) :=
  p.continued.map (fun x => ⟨x.txnId, x.entries.map (·.id), true⟩) ++
    p.created.map fun x => ⟨x.txnId, x.entries.map (·.id), true⟩

omit [DecidableEq Fp] in
/-- A write of a plan is that of one of its verdicts. -/
theorem mem_assigns {vs : List (TxnBuilder × Verdict Fp)} {a : Write UUID UUID} :
    a ∈ (writesOf lo hi vs).assigns ↔ ∃ p ∈ vs, p.2.writes = some a := by
  unfold HeadPlan.assigns writesOf
  rw [List.mem_append, List.map_map, List.mem_map, List.mem_map]
  constructor
  · intro h
    cases h with
    | inl hcont =>
      obtain ⟨y, hy, heq⟩ := hcont
      obtain ⟨p, hp, hv⟩ := List.mem_filterMap.mp hy
      refine ⟨p, hp, ?_⟩
      cases hv' : p.2 with
      -- an unchanged group writes nothing
      | unchanged tid => rw [hv'] at hv; cases hv
      | created x => rw [hv'] at hv; cases hv
      | continued x start =>
        rw [hv'] at hv
        cases hv
        exact congrArg some heq
    | inr hcreate =>
      obtain ⟨x, hx, heq⟩ := hcreate
      obtain ⟨p, hp, hv⟩ := List.mem_filterMap.mp hx
      refine ⟨p, hp, ?_⟩
      cases hv' : p.2 with
      | unchanged tid => rw [hv'] at hv; cases hv
      | continued x start => rw [hv'] at hv; cases hv
      | created x =>
        rw [hv'] at hv
        cases hv
        exact congrArg some heq
  · intro h
    obtain ⟨p, hp, hv⟩ := h
    cases hv' : p.2 with
    | unchanged tid => rw [hv'] at hv; cases hv
    | continued x start =>
      rw [hv'] at hv
      refine .inl ⟨⟨x, start⟩, List.mem_filterMap.mpr ⟨p, hp, ?_⟩, Option.some.inj hv⟩
      rw [hv']
      rfl
    | created x =>
      rw [hv'] at hv
      refine .inr ⟨x, List.mem_filterMap.mpr ⟨p, hp, ?_⟩, Option.some.inj hv⟩
      rw [hv']
      rfl

theorem assigned_continued {xs : List (Continuation Fp)} {st' : Store Fp} (h : xs.foldlM continueOne st = some st') :
    st'.assigned = st.assigned.writeAll (xs.map fun x => ⟨x.txnId, x.entries.map (·.id), true⟩) := by
  induction xs generalizing st with
  | nil =>
    cases h
    rfl
  | cons x xs ih =>
    rw [List.foldlM_cons] at h
    obtain ⟨st₁, hone, hrest⟩ := Option.bind_eq_some_iff.mp h
    have hassigned : st₁.assigned = st.assigned.claim x.txnId (x.entries.map (·.id)) := by
      unfold continueOne at hone
      dsimp only at hone
      split at hone
      · cases hone
        rfl
      · cases hone
    rw [ih hrest, hassigned]
    rfl

omit [DecidableEq Fp] in
theorem assigned_created (xs : List (Creation Fp)) :
    (xs.foldl (fun st x => st.writeTransaction x.row x.entries) st).assigned =
      st.assigned.writeAll (xs.map fun x => ⟨x.txnId, x.entries.map (·.id), true⟩) := by
  induction xs generalizing st with
  | nil => rfl
  | cons x xs ih =>
    rw [List.foldl_cons, ih]
    rfl

/-- **What a plan assigns.** -/
theorem assigned_applyPlan {p : HeadPlan Fp} {done : Committed Fp} (h : applyPlan now st p = some done) :
    done.store.assigned = st.assigned.writeAll p.assigns := by
  obtain ⟨st₁, hcont, hrest⟩ := Option.bind_eq_some_iff.mp h
  obtain ⟨least, -, hdone⟩ := Option.bind_eq_some_iff.mp hrest
  cases hdone
  unfold HeadPlan.assigns Owners.writeAll
  rw [List.foldl_append]
  show (p.created.foldl (fun st x => st.writeTransaction x.row x.entries) st₁).assigned = _
  rw [assigned_created, assigned_continued hcont]
  rfl

/-- **The lines of every builder are those of its transaction**, once the plan is applied. -/
theorem plan_owns (hw : w.CollisionFree) (hst : st.Sound w) {parked : List OpenStream}
    (hguards : parkedGuards c st lo hi = .ok parked) {vs : List (TxnBuilder × Verdict Fp)}
    (hfst : vs.map Prod.fst = headBuilders c st lo hi) (hall : ∀ p ∈ vs, judge w c st parked hi p.1 = .ok p.2)
    {done : Committed Fp} (hdone : applyPlan now st (writesOf lo hi vs) = some done)
    {p : TxnBuilder × Verdict Fp} (hp : p ∈ vs) {e : LogEntry} (he : e ∈ p.1.entries) :
    done.store.assigned.owner e.id = some p.2.txnId := by
  rw [assigned_applyPlan hdone]
  have hbuilder : ∀ q ∈ vs, q.1 ∈ headBuilders c st lo hi := by
    intro q hq
    rw [← hfst]
    exact List.mem_map_of_mem hq
  refine Owners.owner_writeAll_fresh (fun a ha => ?_) (fun a ha hin => ?_) ?_
  · obtain ⟨q, hq, hv⟩ := mem_assigns.mp ha
    cases judge_ok (hall q hq) with
    | inl hwrites =>
      rw [hwrites] at hv
      cases hv
      rfl
    | inr hnone =>
      rw [hnone.1] at hv
      cases hv
  · -- a write that has the line is that of the same builder
    obtain ⟨q, hq, hv⟩ := mem_assigns.mp ha
    cases judge_ok (hall q hq) with
    | inr hnone =>
      rw [hnone.1] at hv
      cases hv
    | inl hwrites =>
      rw [hwrites] at hv
      cases hv
      obtain ⟨e', he', hid⟩ := List.mem_map.mp hin
      have hsame := headBuilders_shared hst hguards (hbuilder q hq) (hbuilder p hp) he' he hid
      have hverdict := hall q hq
      rw [hsame, hall p hp] at hverdict
      exact congrArg Verdict.txnId (Except.ok.inj hverdict).symm
  · cases judge_ok (hall p hp) with
    | inl hwrites => exact .inr ⟨_, mem_assigns.mpr ⟨p, hp, hwrites⟩, List.mem_map_of_mem he⟩
    | inr hnone =>
      -- nothing is written: the lines are those of the stored transaction already
      obtain ⟨-, r, hr, hid, hfp⟩ := hnone
      have hperm := (members_eq_iff hw).mp (hst.digest r hr _ hfp)
      obtain ⟨e', he', heid⟩ := List.mem_map.mp (hperm.mem_iff.mp (List.mem_map_of_mem he))
      have hown := (mem_linesOf.mp he').2
      refine .inl ?_
      rw [← heid, hown, hid]

end Applied

/-! ## §9. The rule of the rebuild. -/

section Rule

variable {w : World Fp} {c : Settings} {st : Store Fp} {lo hi : Instant}

/-- The key of a row is that of its builder. -/
theorem key_headRow (tid : UUID) (b : TxnBuilder) :
    (headRow c.logOpenGap hi (tid, b)).map OpenStream.key = openKey c hi b := by
  unfold headRow openKey
  dsimp only
  generalize lastTimestamp b.entries = newest
  cases b.entries with
  | nil => rfl
  | cons anchor rest =>
    cases newest with
    | none => rfl
    | some last =>
      dsimp only
      by_cases hopen : hi - last < c.logOpenGap
      · rw [if_pos hopen, if_pos hopen]
        rfl
      · rw [if_neg hopen, if_neg hopen]
        rfl

variable (c hi) in
omit [DecidableEq Fp] in
/-- The builders that are parked, with their keys. -/
theorem keys_parkedOf (vs : List (TxnBuilder × Verdict Fp)) :
    (parkedOf c hi vs).map (fun p => p.2.key) = (vs.map Prod.fst).filterMap (openKey c hi) := by
  unfold parkedOf
  rw [List.map_filterMap, List.filterMap_map]
  refine List.filterMap_congr fun p _ => ?_
  rw [Option.map_map]
  exact key_headRow p.2.txnId p.1

omit [DecidableEq Fp] in
theorem mem_parkedOf {vs : List (TxnBuilder × Verdict Fp)} {q : TxnBuilder × OpenStream} :
    q ∈ parkedOf c hi vs ↔ ∃ p ∈ vs, q.1 = p.1 ∧ headRow c.logOpenGap hi (p.2.txnId, p.1) = some q.2 := by
  unfold parkedOf
  rw [List.mem_filterMap]
  constructor
  · intro h
    obtain ⟨p, hp, hq⟩ := h
    obtain ⟨r, hr, heq⟩ := Option.map_eq_some_iff.mp hq
    cases heq
    exact ⟨p, hp, rfl, hr⟩
  · intro h
    obtain ⟨p, hp, hb, hr⟩ := h
    refine ⟨p, hp, ?_⟩
    rw [hr, ← hb]
    rfl

/-- The row of a builder names its transaction. -/
theorem txnId_headRow {gap : Duration} {p : UUID × TxnBuilder} {r : OpenStream} (h : headRow gap hi p = some r) :
    r.txnId = p.1 := by
  obtain ⟨anchor, last, -, -, -, heq⟩ := headRow_eq_some h
  rw [heq]
  rfl

/-- **A plan parks by the rule of the rebuild exactly when no builder within the gap has its response and no two of
    them have one key.** -/
theorem plan_like_rebuild_iff (hw : w.CollisionFree) (hst : st.Sound w) {plan : ParkingPlan Fp}
    (h : buildPlan w c st lo hi = .ok plan) (now : Instant) :
    LikeRebuild now st plan ↔ OpenAsRebuilt c st lo hi := by
  obtain ⟨parked, vs, hguards, hfst, hall, rfl⟩ := buildPlan_spec h
  have hkeys := keys_parkedOf c hi vs
  rw [hfst] at hkeys
  constructor
  · intro hlike
    refine ⟨fun b hb hopen => ?_, hkeys ▸ hlike.keys⟩
    rw [← hfst] at hb
    obtain ⟨p, hp, rfl⟩ := List.mem_map.mp hb
    rw [← key_headRow p.2.txnId p.1] at hopen
    cases hr : headRow c.logOpenGap hi (p.2.txnId, p.1) with
    | none =>
      rw [hr] at hopen
      exact absurd rfl hopen
    | some r => exact hlike.unanswered (p.1, r) (mem_parkedOf.mpr ⟨p, hp, rfl, hr⟩)
  · intro hopen
    refine ⟨fun q hq => ?_, hkeys ▸ hopen.keys, fun done hdone q hq e he => ?_⟩
    · obtain ⟨p, hp, hb, hr⟩ := mem_parkedOf.mp hq
      rw [hb]
      refine hopen.unanswered p.1 ?_ ?_
      · rw [← hfst]
        exact List.mem_map_of_mem hp
      · rw [← key_headRow p.2.txnId p.1, hr]
        exact Option.some_ne_none _
    · obtain ⟨p, hp, hb, hr⟩ := mem_parkedOf.mp hq
      rw [hb] at he
      rw [txnId_headRow hr]
      exact plan_owns hw hst hguards hfst hall hdone hp he

end Rule

/-! ## §10. A conversation that is over. -/

/-- A stamped line of AMIN on thread 7. -/
def stampedOf (id : UUID) (kind : EntryType) (t : Instant) : LogEntry where
  id := id
  sourceFile := "A/log"
  timestamp := some t
  thread := some "7"
  userCtx := some "AMIN"
  entryType := kind
  fields := [("reqid", .str "R1")]

/-- A request and its response, neither assigned yet. -/
def answered : Store Payload where
  entries := [stampedOf 1 .request 1, stampedOf 2 .response 2]
  checkpoint := some 0

/-- A digest is what is hashed. -/
def payloadWorld : World Payload where
  digest := id
  uuid5 := String.length
  displayDay _ _ := 0
  millis d := d / 1000
  timezone := ⟨"UTC", utc_named⟩

theorem sound_answered : answered.Sound payloadWorld where
  ids := by decide
  pending := rfl
  keys := List.nodup_nil
  server _ hr := absurd hr List.not_mem_nil
  digest _ hr := absurd hr List.not_mem_nil

open Classical in
/-- The plan parks the conversation, its response included. -/
theorem answered_not_like_rebuild :
    ¬∀ plan, buildPlan payloadWorld {} answered 0 10 = .ok plan → LikeRebuild 20 answered plan := by
  intro h
  have hresponse : (buildPlan payloadWorld {} answered 0 10).toOption.map
      (fun plan => plan.parked.map fun p => hasResponse p.1.entries) = some [true] := by
    decide +kernel
  obtain ⟨plan, hplan, hparked⟩ := Option.map_eq_some_iff.mp hresponse
  cases hbuilt : buildPlan payloadWorld {} answered 0 10 with
  | error reason =>
    rw [hbuilt] at hplan
    cases hplan
  | ok plan' =>
    rw [hbuilt] at hplan
    cases hplan
    obtain ⟨p, hp, htrue⟩ := List.mem_map.mp (hparked ▸ List.mem_singleton_self true)
    rw [(h plan hbuilt).unanswered p hp] at htrue
    cases htrue

open Classical in
theorem plan_like_rebuild_iff_answered : ∃ plan, buildPlan payloadWorld {} answered 0 10 = .ok plan ∧
    (LikeRebuild 20 answered plan ↔ OpenAsRebuilt {} answered 0 10) := by
  have hok : (buildPlan payloadWorld {} answered 0 10).toOption.isSome = true := by
    decide +kernel
  cases hbuilt : buildPlan payloadWorld {} answered 0 10 with
  | error reason =>
    rw [hbuilt] at hok
    cases hok
  | ok plan => exact ⟨plan, rfl, plan_like_rebuild_iff (fun _ _ h => h) sound_answered hbuilt 20⟩

end RagPipeline.Stage2
