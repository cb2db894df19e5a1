/-
  RagPipeline.Stage2.StreamState — `save`, and what it leaves of the stored streams.

  `save` replaces a tenant's rows as a whole, or only those a rebuild can speak for: the rows of the
  transactions it touched and of the keys it writes.  What stays on a thread that gets a new current row loses
  its own mark.  Among the rows that are written the marks are taken as they come.

    * `save`               — the statements, and the two constraints;
    * `streamsOf_save`     — the rows of each tenant afterwards;
    * `save_preserves_iff` — the stored state is as it should be exactly when no two rows that are written share
                             a thread of a server.
-/
import RagPipeline.Lib.KeyedRows
import RagPipeline.Stage2.Identity
import RagPipeline.Stage2.Parked
import RagPipeline.Stage2.Regroup

namespace RagPipeline.Stage2

open RagPipeline.Lib

/-! ## §1. The tables of all tenants. -/

/-- A row of `log_pending_request`. -/
structure PendingRow where
  customerCode : String
  entryId : UUID
  reqid : Option Json
  reqUser : Option String
  timestamp : Option Instant

/-- `log_open_stream`, each row under its tenant, and `log_pending_request`. -/
structure StreamTables where
  streams : List (String × OpenStream) := []
  pending : List PendingRow := []

/-- The rows of a tenant. -/
def ofTenant (customer : String) (rows : List (String × OpenStream)) : List OpenStream :=
  (rows.filter fun q => decide (q.1 = customer)).map Prod.snd

/-- The open streams of a tenant. -/
def StreamTables.streamsOf (t : StreamTables) (customer : String) : List OpenStream :=
  ofTenant customer t.streams

/-- The pending requests of a tenant. -/
def StreamTables.pendingOf (t : StreamTables) (customer : String) : List PendingRow :=
  t.pending.filter fun q => decide (q.customerCode = customer)

/-- `(server, thread)`. -/
def OpenStream.lane (r : OpenStream) : String × Option String := (r.server, r.thread)

/-- No two rows share a key, and each thread of a server has one current row at most. -/
structure WellFormed (rows : List OpenStream) : Prop where
  unique : (rows.map OpenStream.key).Nodup
  oneCurrent : ((rows.filter OpenStream.isCurrent).map OpenStream.lane).Nodup

/-! ## §2. `save`. -/

/-- `open_ts` is kept only where there is one. -/
def OpenStream.stored (s : OpenStream) : OpenStream :=
  { s with openPos := { s.openPos with ts := if s.openPos.isNull then none else s.openPos.ts } }

/-- The row of a pending request. -/
def pendingRow (customer : String) (e : LogEntry) : PendingRow :=
  ⟨customer, e.id, JObject.get? e.fields "reqid", e.userCtx, e.timestamp⟩

/-- `DELETE FROM log_open_stream` of a tenant. -/
def deleteStreams (customer : String) (p : OpenStream → Bool) (rows : List (String × OpenStream)) :
    List (String × OpenStream) :=
  rows.filter fun q => !(decide (q.1 = customer) && p q.2)

/-- `UPDATE … SET is_current = false` on a thread of a server. -/
def demote (customer : String) (rows : List (String × OpenStream)) (lane : String × Option String) :
    List (String × OpenStream) :=
  rows.map fun q =>
    if q.1 = customer ∧ q.2.lane = lane then (q.1, { q.2 with isCurrent := false }) else q

/-- The threads that get a current row. -/
def currentLanes (streams : List OpenStream) : List (String × Option String) :=
  ((streams.filter OpenStream.isCurrent).map OpenStream.lane).dedup

/-- What is left of the open streams before the insert. -/
def clearedStreams (customer : String) (p : Parked) (touched : Option (List UUID))
    (rows : List (String × OpenStream)) : List (String × OpenStream) :=
  match touched with
  | none => deleteStreams customer (fun _ => true) rows
  | some touched =>
      let rows := deleteStreams customer (fun r => decide (r.txnId ∈ touched)) rows
      let rows := p.streams.foldl (fun rows s => deleteStreams customer (fun r => decide (r.key = s.key)) rows) rows
      (currentLanes p.streams).foldl (demote customer) rows

/-- What is left of the pending requests before the insert. -/
def clearedPending (customer : String) (touched : Option (List UUID)) (consumed : List UUID)
    (rows : List PendingRow) : List PendingRow :=
  match touched with
  | none => rows.filter fun q => !decide (q.customerCode = customer)
  | some _ => rows.filter fun q => !(decide (q.customerCode = customer) && decide (q.entryId ∈ consumed))

/-- **`save`**; `none` is a constraint that is violated, and the caller's transaction is rolled back. -/
def save (customer : String) (p : Parked) (touched : Option (List UUID)) (consumed : List UUID)
    (t : StreamTables) : Option StreamTables := do
  let streams ← insertUnique (fun q : String × OpenStream => (q.1, q.2.key))
    (clearedStreams customer p touched t.streams) (p.streams.map fun s => (customer, s.stored))
  let pending ← insertUnique (fun q : PendingRow => (q.customerCode, q.entryId))
    (clearedPending customer touched consumed t.pending) (p.pending.map (pendingRow customer))
  return ⟨streams, pending⟩

/-! ## §3. What it is for. -/

/-- The row with its mark cleared, exactly when a current row is written to its thread. -/
def OpenStream.demotedBy (r : OpenStream) (streams : List OpenStream) : OpenStream :=
  { r with isCurrent := r.isCurrent && decide (r.lane ∉ currentLanes streams) }

/-- After a scoped save: what was not touched and not written again is there but for its mark, what was not
    consumed is there, what was written is there. -/
structure Scoped (customer : String) (p : Parked) (touched consumed : List UUID) (t t' : StreamTables) : Prop where
  frame : ∀ r ∈ t.streamsOf customer, r.txnId ∉ touched → r.key ∉ p.streams.map OpenStream.key →
    r.demotedBy p.streams ∈ t'.streamsOf customer
  pending : ∀ q ∈ t.pendingOf customer, q.entryId ∉ consumed → q ∈ t'.pendingOf customer
  saved : ∀ s ∈ p.streams, s.stored ∈ t'.streamsOf customer

/-- After a whole-replace save: what was written, and nothing else. -/
structure Replaced (customer : String) (p : Parked) (t' : StreamTables) : Prop where
  streams : t'.streamsOf customer = p.streams.map OpenStream.stored
  pending : t'.pendingOf customer = p.pending.map (pendingRow customer)

/-- The save succeeds, in its scope or as a whole; the stored state is well formed again, and no other tenant
    was touched. -/
def Preserves (customer : String) (p : Parked) (touched : Option (List UUID)) (consumed : List UUID)
    (t : StreamTables) : Prop :=
  ∃ t', save customer p touched consumed t = some t' ∧
    (match touched with
      | some touched => Scoped customer p touched consumed t t'
      | none => Replaced customer p t') ∧
    WellFormed (t'.streamsOf customer) ∧
    ∀ c, c ≠ customer → t'.streamsOf c = t.streamsOf c ∧ t'.pendingOf c = t.pendingOf c

/-! ## §4. Statement by statement. -/

section Statements

variable {customer c : String} {rows : List (String × OpenStream)}

theorem ofTenant_append (rows rows' : List (String × OpenStream)) :
    ofTenant customer (rows ++ rows') = ofTenant customer rows ++ ofTenant customer rows' := by
  unfold ofTenant
  rw [List.filter_append, List.map_append]

theorem mem_ofTenant {r : OpenStream} : r ∈ ofTenant customer rows ↔ (customer, r) ∈ rows := by
  unfold ofTenant
  simp only [List.mem_map, List.mem_filter, decide_eq_true_eq]
  constructor
  · intro h
    obtain ⟨⟨c, r'⟩, ⟨hq, hc⟩, hr⟩ := h
    cases hc
    cases hr
    exact hq
  · intro h
    exact ⟨(customer, r), ⟨h, rfl⟩, rfl⟩

/-- The rows that are written for a tenant are its own. -/
theorem ofTenant_own (new : List OpenStream) : ofTenant customer (new.map fun s => (customer, s)) = new := by
  unfold ofTenant
  rw [List.filter_map, List.map_map]
  have hall : (new.filter ((fun q : String × OpenStream => decide (q.1 = customer)) ∘ fun s => (customer, s))) =
      new := List.filter_eq_self.mpr fun _ _ => decide_eq_true rfl
  rw [hall]
  exact List.map_id new

theorem ofTenant_other (hc : c ≠ customer) (new : List OpenStream) :
    ofTenant c (new.map fun s => (customer, s)) = [] := by
  unfold ofTenant
  rw [List.filter_map, List.map_map]
  have hnone : (new.filter ((fun q : String × OpenStream => decide (q.1 = c)) ∘ fun s => (customer, s))) = [] :=
    List.filter_eq_nil_iff.mpr fun _ _ h => hc (of_decide_eq_true h).symm
  rw [hnone]
  rfl

theorem ofTenant_delete (p : OpenStream → Bool) :
    ofTenant customer (deleteStreams customer p rows) = (ofTenant customer rows).filter fun r => !p r := by
  unfold ofTenant deleteStreams
  rw [List.filter_filter, List.filter_map, List.filter_filter]
  refine congrArg (List.map Prod.snd) (List.filter_congr fun q _ => ?_)
  by_cases h : q.1 = customer
  · simp [h]
  · simp [h]

theorem ofTenant_delete_other (hc : c ≠ customer) (p : OpenStream → Bool) :
    ofTenant c (deleteStreams customer p rows) = ofTenant c rows := by
  unfold ofTenant deleteStreams
  rw [List.filter_filter]
  refine congrArg (List.map Prod.snd) (List.filter_congr fun q _ => ?_)
  by_cases h : q.1 = c
  · have hne : q.1 ≠ customer := fun h' => hc (h.symm.trans h')
    simp [h, hc]
  · simp [h]

/-- An update of rows leaves each with its tenant. -/
theorem ofTenant_map {g : String × OpenStream → String × OpenStream} (hg : ∀ q, (g q).1 = q.1) :
    ofTenant c (rows.map g) = (rows.filter fun q => decide (q.1 = c)).map fun q => (g q).2 := by
  unfold ofTenant
  rw [List.filter_map, List.map_map]
  have hkeep : ((fun q : String × OpenStream => decide (q.1 = c)) ∘ g) = fun q => decide (q.1 = c) := by
    funext q
    show decide ((g q).1 = c) = decide (q.1 = c)
    rw [hg q]
  rw [hkeep]
  rfl

theorem fst_demoted (lane : String × Option String) (q : String × OpenStream) :
    (if q.1 = customer ∧ q.2.lane = lane then (q.1, { q.2 with isCurrent := false }) else q).1 = q.1 := by
  split
  · rfl
  · rfl

theorem ofTenant_demote (lane : String × Option String) : ofTenant customer (demote customer rows lane) =
    (ofTenant customer rows).map fun r => if r.lane = lane then { r with isCurrent := false } else r := by
  unfold demote
  rw [ofTenant_map (fst_demoted lane)]
  unfold ofTenant
  rw [List.map_map]
  refine List.map_congr_left fun q hq => ?_
  have hown : q.1 = customer := of_decide_eq_true (List.mem_filter.mp hq).2
  by_cases hl : q.2.lane = lane
  · simp [hown, hl]
  · simp [hl]

theorem ofTenant_demote_other (hc : c ≠ customer) (lane : String × Option String) :
    ofTenant c (demote customer rows lane) = ofTenant c rows := by
  unfold demote
  rw [ofTenant_map (fst_demoted lane)]
  refine List.map_congr_left fun q hq => ?_
  have hother : q.1 ≠ customer := fun h => hc ((of_decide_eq_true (List.mem_filter.mp hq).2).symm.trans h)
  rw [if_neg fun h => hother h.1]

/-- The keys that are written are deleted first. -/
theorem ofTenant_foldl_delete (streams : List OpenStream) :
    ofTenant customer (streams.foldl (fun rows s => deleteStreams customer (fun r => decide (r.key = s.key)) rows)
      rows) = (ofTenant customer rows).filter fun r => decide (r.key ∉ streams.map OpenStream.key) := by
  induction streams generalizing rows with
  | nil =>
    simp
  | cons s streams ih =>
    rw [List.foldl_cons, ih, ofTenant_delete, List.filter_filter]
    refine List.filter_congr fun r _ => ?_
    simp [Bool.and_comm]

theorem ofTenant_foldl_delete_other (hc : c ≠ customer) (streams : List OpenStream) :
    ofTenant c (streams.foldl (fun rows s => deleteStreams customer (fun r => decide (r.key = s.key)) rows)
      rows) = ofTenant c rows := by
  induction streams generalizing rows with
  | nil => rfl
  | cons s streams ih => rw [List.foldl_cons, ih, ofTenant_delete_other hc]

/-- Then the marks of the threads are cleared. -/
theorem ofTenant_foldl_demote (lanes : List (String × Option String)) :
    ofTenant customer (lanes.foldl (demote customer) rows) = (ofTenant customer rows).map fun r =>
      { r with isCurrent := r.isCurrent && decide (r.lane ∉ lanes) } := by
  induction lanes generalizing rows with
  | nil =>
    simp
  | cons lane lanes ih =>
    rw [List.foldl_cons, ih, ofTenant_demote, List.map_map]
    refine List.map_congr_left fun r _ => ?_
    by_cases h : r.lane = lane
    · simp [h]
    · simp [h]

theorem ofTenant_foldl_demote_other (hc : c ≠ customer) (lanes : List (String × Option String)) :
    ofTenant c (lanes.foldl (demote customer) rows) = ofTenant c rows := by
  induction lanes generalizing rows with
  | nil => rfl
  | cons lane lanes ih => rw [List.foldl_cons, ih, ofTenant_demote_other hc]

/-- **What is left of the tenant's rows.** -/
theorem ofTenant_clearedStreams (p : Parked) (touched : Option (List UUID)) :
    ofTenant customer (clearedStreams customer p touched rows) =
      match touched with
      | none => []
      | some touched => ((ofTenant customer rows).filter fun r =>
          decide (r.txnId ∉ touched) && decide (r.key ∉ p.streams.map OpenStream.key)).map fun r =>
            r.demotedBy p.streams := by
  cases touched with
  | none =>
    show ofTenant customer (deleteStreams customer (fun _ => true) rows) = []
    rw [ofTenant_delete]
    exact List.filter_eq_nil_iff.mpr fun _ _ h => Bool.noConfusion h
  | some touched =>
    unfold clearedStreams
    dsimp only
    rw [ofTenant_foldl_demote, ofTenant_foldl_delete, ofTenant_delete, List.filter_filter]
    refine congrArg (List.map _) (List.filter_congr fun r _ => ?_)
    rw [Bool.and_comm, ← decide_not]

theorem ofTenant_clearedStreams_other (hc : c ≠ customer) (p : Parked) (touched : Option (List UUID)) :
    ofTenant c (clearedStreams customer p touched rows) = ofTenant c rows := by
  cases touched with
  | none => exact ofTenant_delete_other hc fun _ => true
  | some touched =>
    unfold clearedStreams
    dsimp only
    rw [ofTenant_foldl_demote_other hc, ofTenant_foldl_delete_other hc, ofTenant_delete_other hc]

end Statements

/-! ## §5. The save. -/

section Save

variable {customer : String} {p : Parked} {touched : Option (List UUID)} {consumed : List UUID} {t t' : StreamTables}

/-- What stays of the tenant's rows. -/
def StreamTables.kept (t : StreamTables) (customer : String) (p : Parked) (touched : Option (List UUID)) :
    List OpenStream :=
  ofTenant customer (clearedStreams customer p touched t.streams)

/-- **The rows of each tenant after a save.** -/
theorem streamsOf_save (h : save customer p touched consumed t = some t') :
    t'.streamsOf customer = t.kept customer p touched ++ p.streams.map OpenStream.stored ∧
      ∀ c, c ≠ customer → t'.streamsOf c = t.streamsOf c := by
  obtain ⟨streams, hs, h⟩ := Option.bind_eq_some_iff.mp h
  obtain ⟨pending, -, h⟩ := Option.bind_eq_some_iff.mp h
  obtain rfl := Option.some.inj h
  have happ := (insertUnique_eq_some.mp hs).1
  have hnew : (p.streams.map fun s => (customer, s.stored)) =
      (p.streams.map OpenStream.stored).map fun s => (customer, s) := by
    rw [List.map_map]
    rfl
  rw [hnew] at happ
  constructor
  · show ofTenant customer streams = _
    rw [happ, ofTenant_append, ofTenant_own]
    rfl
  · intro c hc
    show ofTenant c streams = ofTenant c t.streams
    rw [happ, ofTenant_append, ofTenant_other hc, List.append_nil, ofTenant_clearedStreams_other hc]

/-- The rows that stay have other keys than those that are written. -/
theorem key_of_kept {r : OpenStream} (h : r ∈ t.kept customer p touched) :
    r.key ∉ p.streams.map OpenStream.key := by
  unfold StreamTables.kept at h
  rw [ofTenant_clearedStreams] at h
  cases touched with
  | none => exact absurd h List.not_mem_nil
  | some touched =>
    obtain ⟨r₀, hr₀, rfl⟩ := List.mem_map.mp h
    exact of_decide_eq_true (Bool.and_eq_true_iff.mp (List.mem_filter.mp hr₀).2).2

variable (touched consumed t) in
/-- Without pending requests only the keys of the rows can get in the way. -/
theorem save_ne_none (hp : p.pending = []) (hkeys : (p.streams.map OpenStream.key).Nodup) :
    ∃ t', save customer p touched consumed t = some t' ∧
      t'.pending = clearedPending customer touched consumed t.pending := by
  have hstreams : insertUnique (fun q : String × OpenStream => (q.1, q.2.key))
      (clearedStreams customer p touched t.streams) (p.streams.map fun s => (customer, s.stored)) =
        some (clearedStreams customer p touched t.streams ++ p.streams.map fun s => (customer, s.stored)) := by
    refine insertUnique_eq_some.mpr ⟨rfl, ?_, fun q hq hin => ?_⟩
    · rw [List.map_map]
      refine List.Nodup.of_map Prod.snd ?_
      rw [List.map_map]
      exact hkeys
    · obtain ⟨s, hs, rfl⟩ := List.mem_map.mp hq
      obtain ⟨q', hq', heq⟩ := List.mem_map.mp hin
      have hown : q'.1 = customer := congrArg Prod.fst heq
      have hkept : q'.2 ∈ t.kept customer p touched := by
        have hpair : (customer, q'.2) = q' := Prod.ext hown.symm rfl
        exact mem_ofTenant.mpr (hpair ▸ hq')
      have hkey : q'.2.key = s.key := congrArg Prod.snd heq
      exact key_of_kept hkept (hkey ▸ List.mem_map_of_mem hs)
  refine ⟨⟨clearedStreams customer p touched t.streams ++ p.streams.map fun s => (customer, s.stored),
    clearedPending customer touched consumed t.pending⟩, ?_, rfl⟩
  unfold save
  rw [hstreams, hp]
  rfl

/-- **Without pending requests a save fails exactly when two rows that are written share a key.** -/
theorem save_isSome_iff (hp : p.pending = []) :
    (save customer p touched consumed t).isSome ↔ (p.streams.map OpenStream.key).Nodup := by
  constructor
  · intro h
    obtain ⟨t', ht'⟩ := Option.isSome_iff_exists.mp h
    obtain ⟨streams, hs, -⟩ := Option.bind_eq_some_iff.mp ht'
    have hn := (insertUnique_eq_some.mp hs).2.1
    rw [List.map_map] at hn
    have hpair : ((fun q : String × OpenStream => (q.1, q.2.key)) ∘ fun s : OpenStream => (customer, s.stored)) =
        Prod.mk customer ∘ OpenStream.key := rfl
    rw [hpair, ← List.map_map] at hn
    exact hn.of_map _
  · intro h
    obtain ⟨t', ht', -⟩ := save_ne_none touched consumed t hp h
    rw [ht']
    rfl

/-- **A tenant's rows are saved as if it were alone.** -/
theorem save_own {customer' : String} {t₀ : StreamTables} (hp : p.pending = [])
    (hstreams : t₀.streamsOf customer' = t.streamsOf customer) :
    (save customer' p touched consumed t₀).map (·.streamsOf customer') =
      (save customer p touched consumed t).map (·.streamsOf customer) := by
  have hkept : t₀.kept customer' p touched = t.kept customer p touched := by
    unfold StreamTables.kept
    rw [ofTenant_clearedStreams, ofTenant_clearedStreams]
    unfold StreamTables.streamsOf at hstreams
    rw [hstreams]
  by_cases hn : (p.streams.map OpenStream.key).Nodup
  · obtain ⟨t', ht', -⟩ := save_ne_none touched consumed t hp hn
    obtain ⟨t₁, ht₁, -⟩ := save_ne_none touched consumed t₀ hp hn
    rw [ht', ht₁, Option.map_some, Option.map_some, (streamsOf_save ht').1, (streamsOf_save ht₁).1, hkept]
  · have hnone : ∀ (c : String) (t : StreamTables), save c p touched consumed t = none := by
      intro c t
      refine Option.not_isSome_iff_eq_none.mp fun h => hn ?_
      exact (save_isSome_iff hp).mp h
    rw [hnone, hnone]
    rfl

variable (p touched) in
/-- **The rows that stay are well formed**, and none of them is current on a thread that gets a current row. -/
theorem kept_wellFormed (hwf : WellFormed (t.streamsOf customer)) :
    WellFormed (t.kept customer p touched) ∧
      ∀ r ∈ t.kept customer p touched, r.isCurrent = true → r.lane ∉ currentLanes p.streams := by
  unfold StreamTables.kept
  rw [ofTenant_clearedStreams]
  cases touched with
  | none =>
    refine ⟨⟨List.nodup_nil, List.nodup_nil⟩, fun r hr => absurd hr List.not_mem_nil⟩
  | some touched =>
    dsimp only
    generalize hrows : (ofTenant customer t.streams).filter (fun r =>
      decide (r.txnId ∉ touched) && decide (r.key ∉ p.streams.map OpenStream.key)) = rows
    have hsub : rows.Sublist (t.streamsOf customer) := by
      rw [← hrows]
      exact List.filter_sublist
    have hcurrent : ((rows.map fun r => r.demotedBy p.streams).filter OpenStream.isCurrent).map OpenStream.lane =
        ((rows.filter OpenStream.isCurrent).filter fun r => decide (r.lane ∉ currentLanes p.streams)).map
          OpenStream.lane := by
      rw [List.filter_map, List.map_map, List.filter_filter]
      refine congrArg (List.map OpenStream.lane) (List.filter_congr fun r _ => ?_)
      exact Bool.and_comm ..
    refine ⟨⟨?_, ?_⟩, fun r hr hcur => ?_⟩
    · rw [List.map_map]
      exact hwf.unique.sublist (hsub.map OpenStream.key)
    · rw [hcurrent]
      exact hwf.oneCurrent.sublist ((List.filter_sublist.trans (hsub.filter _)).map _)
    · obtain ⟨r₀, -, rfl⟩ := List.mem_map.mp hr
      exact of_decide_eq_true (Bool.and_eq_true_iff.mp hcur).2

/-- The pending requests that stay. -/
theorem pendingOf_cleared (ht : t'.pending = clearedPending customer touched consumed t.pending) :
    (touched = none → t'.pendingOf customer = []) ∧
      (∀ q ∈ t.pendingOf customer, touched ≠ none → q.entryId ∉ consumed → q ∈ t'.pendingOf customer) ∧
      ∀ c, c ≠ customer → t'.pendingOf c = t.pendingOf c := by
  unfold StreamTables.pendingOf
  rw [ht]
  refine ⟨fun hnone => ?_, fun q hq hsome hfree => ?_, fun c hc => ?_⟩
  · rw [hnone]
    refine List.filter_eq_nil_iff.mpr fun q hq hown => ?_
    have hgone := (List.mem_filter.mp hq).2
    rw [hown] at hgone
    cases hgone
  · obtain ⟨hmem, hown⟩ := List.mem_filter.mp hq
    refine List.mem_filter.mpr ⟨?_, hown⟩
    cases touched with
    | none => exact absurd rfl hsome
    | some touched =>
      refine List.mem_filter.mpr ⟨hmem, ?_⟩
      rw [decide_eq_false hfree, Bool.and_false]
      rfl
  · -- the rows of another customer are outside both forms of the delete
    have hother : ∀ q : PendingRow, decide (q.customerCode = c) = true → decide (q.customerCode = customer) = false :=
      fun q hq => decide_eq_false fun h => hc ((of_decide_eq_true hq).symm.trans h)
    cases touched with
    | none =>
      unfold clearedPending
      rw [List.filter_filter]
      refine List.filter_congr fun q _ => ?_
      cases hq : decide (q.customerCode = c) with
      | false => rfl
      | true => rw [hother q hq]; rfl
    | some touched =>
      unfold clearedPending
      rw [List.filter_filter]
      refine List.filter_congr fun q _ => ?_
      cases hq : decide (q.customerCode = c) with
      | false => rfl
      | true => rw [hother q hq]; rfl

/-- The rows that are written are current as they come. -/
theorem current_written (hcur : ∀ s ∈ p.streams, s.isCurrent = true) :
    ((p.streams.map OpenStream.stored).filter OpenStream.isCurrent).map OpenStream.lane =
      p.streams.map OpenStream.lane := by
  have hall : (p.streams.map OpenStream.stored).filter OpenStream.isCurrent = p.streams.map OpenStream.stored := by
    refine List.filter_eq_self.mpr fun s hs => ?_
    obtain ⟨s₀, hs₀, rfl⟩ := List.mem_map.mp hs
    exact hcur s₀ hs₀
  rw [hall, List.map_map]
  rfl

/-- What is well formed after a save has one row that was written on each thread. -/
theorem lanes_of_preserves (hcur : ∀ s ∈ p.streams, s.isCurrent = true)
    (h : Preserves customer p touched consumed t) : (p.streams.map OpenStream.lane).Nodup := by
  obtain ⟨t', ht', -, hwf, -⟩ := h
  have hone := hwf.oneCurrent
  rw [(streamsOf_save ht').1, List.filter_append, List.map_append, current_written hcur] at hone
  exact (List.nodup_append.mp hone).2.1

/-- **A save keeps the stored state as it should be exactly when no two rows that are written share a thread of a
    server.** -/
theorem save_preserves_iff (customer : String) (t : StreamTables) (hwf : WellFormed (t.streamsOf customer))
    (p : Parked) (hp : Produced p) (touched : Option (List UUID)) (consumed : List UUID) :
    Preserves customer p touched consumed t ↔ (p.streams.map OpenStream.lane).Nodup := by
  have hcur := current_of_produced hp
  have hpending := pending_of_produced hp
  constructor
  · exact lanes_of_preserves hcur
  · intro hlanes
    -- a key names its thread, so the insert meets no constraint
    have hkeys : (p.streams.map OpenStream.key).Nodup := by
      refine List.Nodup.of_map (fun k => (k.1, k.2.1)) ?_
      rw [List.map_map]
      exact hlanes
    obtain ⟨t', ht', hpend⟩ := save_ne_none touched consumed t hpending hkeys
    obtain ⟨hrows, hothers⟩ := streamsOf_save ht'
    obtain ⟨hkept, hfree⟩ := kept_wellFormed p touched hwf
    obtain ⟨hnone, hstay, hpothers⟩ := pendingOf_cleared hpend
    refine ⟨t', ht', ?_, ⟨?_, ?_⟩, fun c hc => ⟨hothers c hc, hpothers c hc⟩⟩
    · cases touched with
      | none =>
        refine ⟨?_, by rw [hnone rfl, hpending]; rfl⟩
        rw [hrows]
        unfold StreamTables.kept
        rw [ofTenant_clearedStreams]
        rfl
      | some touched =>
        refine ⟨fun r hr hid hkey => ?_, fun q hq hfree => hstay q hq (Option.some_ne_none _) hfree, fun s hs => ?_⟩
        · rw [hrows]
          refine List.mem_append_left _ ?_
          unfold StreamTables.kept
          rw [ofTenant_clearedStreams]
          refine List.mem_map_of_mem (List.mem_filter.mpr ⟨hr, ?_⟩)
          rw [decide_eq_true hid, decide_eq_true hkey]
          rfl
        · rw [hrows]
          exact List.mem_append_right _ (List.mem_map_of_mem hs)
    · rw [hrows, List.map_append, List.nodup_append]
      refine ⟨hkept.unique, ?_, fun k hk k' hk' heq => ?_⟩
      · rw [List.map_map]
        exact hkeys
      · obtain ⟨r, hr, rfl⟩ := List.mem_map.mp hk
        rw [List.map_map] at hk'
        -- what is kept has no key that is written
        exact key_of_kept hr (heq ▸ hk')
    · rw [hrows, List.filter_append, List.map_append, List.nodup_append]
      refine ⟨hkept.oneCurrent, by rw [current_written hcur]; exact hlanes, fun l hl l' hl' heq => ?_⟩
      obtain ⟨r, hr, rfl⟩ := List.mem_map.mp hl
      obtain ⟨hr, hrc⟩ := List.mem_filter.mp hr
      -- a thread that gets a current row has no mark left on it
      rw [current_written hcur] at hl'
      refine hfree r hr hrc (List.mem_dedup.mpr ?_)
      rw [List.filter_eq_self.mpr hcur, heq]
      exact hl'

end Save

/-! ## §6. Two users on one thread. -/

/-- A statement of a user on thread 7. -/
def statementOf (id : UUID) (user : String) (t : Instant) : LogEntry where
  id := id
  sourceFile := "A/log"
  timestamp := some t
  thread := some "7"
  userCtx := some user
  entryType := .sql

/-- What a rebuild parks of two users who are open on one thread. -/
def flipped : Parked :=
  ⟨rebuildStreams (300 * second) 10 (assignedBuilders plainWorld Continuity.none
    (group (300 * second) {} [statementOf 1 "AMIN" 1, statementOf 2 "BILAL" 2])), []⟩

/-- Both rows are written as current. -/
theorem flipped_not_preserved : ¬∀ (customer : String) (t : StreamTables), WellFormed (t.streamsOf customer) →
    ∀ p, Produced p → ∀ touched consumed, Preserves customer p touched consumed t := by
  intro h
  have hp : Produced flipped := .rebuild plainWorld (300 * second) 10 Continuity.none _
  have hpreserved := h "A" {} ⟨List.nodup_nil, List.nodup_nil⟩ flipped hp (some []) []
  have hlanes : flipped.streams.map OpenStream.lane = [("A", some "7"), ("A", some "7")] := by
    decide +kernel
  have hnodup := lanes_of_preserves (current_of_produced hp) hpreserved
  rw [hlanes] at hnodup
  exact absurd hnodup (by decide)

/-- A stream on thread 7 that was saved before. -/
def openOnSeven (user : String) (txnId : UUID) (isCurrent : Bool) : OpenStream :=
  ⟨"A", some "7", some user, txnId, false, some 1, noPos, isCurrent⟩

/-- AMIN was on the thread before BILAL; another tenant has a thread 7 too. -/
def flippedBefore : StreamTables where
  streams := [("A", openOnSeven "AMIN" 1 false), ("A", openOnSeven "BILAL" 2 true), ("B", openOnSeven "AMIN" 3 true)]

/-- What the head lane parks when AMIN's conversation goes on. -/
def aminAgain : Parked :=
  ⟨headStreams (300 * second) 10 ([1].zip ([{ entries := [statementOf 1 "AMIN" 9] }].map TxnBuilder.sorted)), []⟩

/-- AMIN's row is written again, and BILAL's loses its mark. -/
theorem save_preserves_iff_oneUser :
    Preserves "A" aminAgain (some [1]) [] flippedBefore ∧
      ∃ r ∈ flippedBefore.streamsOf "A", r.demotedBy aminAgain.streams ≠ r :=
  ⟨(save_preserves_iff "A" flippedBefore ⟨by decide, by decide⟩ aminAgain
      (.head (300 * second) 10 [1] [{ entries := [statementOf 1 "AMIN" 9] }]) (some [1]) []).mpr (by decide +kernel),
    openOnSeven "BILAL" 2 true, by decide, by decide +kernel⟩

end RagPipeline.Stage2
