/-
  RagPipeline.Stage2.Persist — `_persist`: write the groups of a rebuild, and only what changed.

  Each group is SKIPPED (its id was taken by an earlier group, or by a stored transaction the rebuild
  does not own), left UNCHANGED (both digests match), updated as a ROW ONLY (the members digest
  matches), REWRITTEN, or CREATED; afterwards every stored transaction no group produced is deleted.

  What it leaves is read off the groups that are not skipped (`kept`):

    * `persist_assigned` — the assignments: one `Write` for every group whose members are written;
    * `persist_live`     — the transactions that have a row afterwards;
    * `persist_row`      — which row that is.
-/
import RagPipeline.Stage2.Store

namespace RagPipeline.Stage2

open RagPipeline.Lib

variable {Fp : Type} [DecidableEq Fp]

/-! ## §1. Ids. -/

/-- A group of lines in their final order, under the id it was given. -/
abbrev Group := UUID × List LogEntry

/-- The ids of a group's lines. -/
def Group.ids (g : Group) : List UUID := g.2.map (·.id)

/-- `_clash_window`: half-open, one pad around the timestamps; none when there are none. -/
def clashWindow (pad : Duration) (ts : List Instant) : Option (Instant × Instant) :=
  ts.min?.bind fun lo => ts.max?.map fun hi => (lo - pad, hi + pad + 1)

/-- `window.covers(started_at, include_null=True)`; no window covers everything. -/
def covers (window : Option (Instant × Instant)) (t : Option Instant) : Bool :=
  match window, t with
  | some (lo, hi), some t => decide (lo ≤ t ∧ t < hi)
  | _, _ => true

/-- `_existing_transaction_ids`. -/
def Store.existingIds (st : Store Fp) (window : Option (Instant × Instant)) (ids : List UUID) :
    List UUID :=
  (st.txns.filter fun r => decide (r.id ∈ ids) && covers window r.startedAt).map TxnRow.id

/-- `continuity.assign` on the sorted lines of the builders. -/
def assignIds (w : World Fp) (cont : Continuity) (builders : List TxnBuilder) : List Group :=
  let lines := builders.map fun b => sortEntries b.entries
  (cont.assign w.txnId lines).zip lines

/-- The second half of `_resolve_ids`: the ids that exist already. -/
def Store.clashes (c : Settings) (st : Store Fp) (gs : List Group) : List UUID :=
  st.existingIds (clashWindow c.pad (gs.flatMap fun g => stamps g.2)) (gs.map Prod.fst)

/-! ## §2. One group. -/

/-- What a run reports. -/
structure Stats where
  created : Nat := 0
  sealedRows : Nat := 0
  assigned : Nat := 0
  skipped : Nat := 0
  entriesSkipped : Nat := 0
  unchanged : Nat := 0
  rowOnly : Nat := 0
  rewritten : Nat := 0
  deleted : Nat := 0
  deriving DecidableEq, Repr

/-- The arguments of `_persist` that stay the same from group to group. -/
structure PersistArgs (Fp : Type) where
  stored : List (TxnRow Fp) := []
  existing : List UUID := []
  cutoffs : Option (Instant × Instant) := none

/-- `stored.get(tid)`; the dictionary is built row by row, so the last row of an id is the one. -/
def PersistArgs.prior (a : PersistArgs Fp) (tid : UUID) : Option (TxnRow Fp) :=
  a.stored.reverse.find? fun r => decide (r.id = tid)

/-- The row a write makes of a group. -/
def freshRow (w : World Fp) (cutoffs : Option (Instant × Instant)) (g : Group) : TxnRow Fp :=
  let values := w.values g.2
  let isSealed := isSealedBy cutoffs values
  { id := g.1
    values := values
    isSealed := isSealed
    rowFingerprint := some (w.row values isSealed)
    membersFingerprint := some (w.members g.ids) }

/-- `_persist`'s local variables. -/
structure PersistState (Fp : Type) where
  store : Store Fp
  seen : List UUID := []
  stats : Stats := {}

/-- The id is that of a stored transaction which this rebuild does not own. -/
def PersistArgs.clash (a : PersistArgs Fp) (tid : UUID) : Bool :=
  decide (tid ∈ a.existing) && decide (tid ∉ a.stored.map TxnRow.id)

/-- Count a written row. -/
def Stats.wrote (s : Stats) (row : TxnRow Fp) : Stats :=
  { s with sealedRows := s.sealedRows + if row.isSealed then 1 else 0 }

/-- One turn of the loop of `_persist`. -/
def persistOne (w : World Fp) (a : PersistArgs Fp) (ps : PersistState Fp) (g : Group) :
    PersistState Fp :=
  if g.1 ∈ ps.seen ∨ a.clash g.1 = true then
    { ps with
      stats := { ps.stats with
        skipped := ps.stats.skipped + 1
        entriesSkipped := ps.stats.entriesSkipped + g.2.length } }
  else
    let row := freshRow w a.cutoffs g
    let ps := { ps with seen := g.1 :: ps.seen }
    match a.prior g.1 with
    | some prior =>
        if prior.rowFingerprint = row.rowFingerprint ∧
            prior.membersFingerprint = row.membersFingerprint then
          { ps with stats := { ps.stats with unchanged := ps.stats.unchanged + 1 } }
        else
          let st := ps.store.updateTransaction prior.startedAt row
          if prior.membersFingerprint ≠ row.membersFingerprint then
            { ps with
              store := (st.deleteAssignments [g.1]).writeAssignments g.1 g.2
              stats := { ps.stats with
                assigned := ps.stats.assigned + g.2.length
                rewritten := ps.stats.rewritten + 1 }.wrote row }
          else
            { ps with
              store := st
              stats := { ps.stats with rowOnly := ps.stats.rowOnly + 1 }.wrote row }
    | none =>
        { ps with
          store := ps.store.writeTransaction row g.2
          stats := { ps.stats with
            assigned := ps.stats.assigned + g.2.length
            created := ps.stats.created + 1 }.wrote row }

/-! ## §3. The loop, and the deletion. -/

/-- The stored transactions that no group produced. -/
def PersistArgs.vanished (a : PersistArgs Fp) (seen : List UUID) : List UUID :=
  (a.stored.map TxnRow.id).filter fun t => decide (t ∉ seen)

/-- **`_persist`**, for groups that have their ids. -/
def persist (w : World Fp) (a : PersistArgs Fp) (st : Store Fp) (gs : List Group) :
    Store Fp × Stats :=
  let ps := gs.foldl (persistOne w a) { store := st }
  let gone := a.vanished ps.seen
  ((ps.store.deleteAssignments gone).deleteTransactions gone,
    { ps.stats with deleted := gone.length })

/-! ## §4. The groups that are not skipped. -/

omit [DecidableEq Fp] in
/-- The groups `_persist` does not skip, when the ids of `seen` are taken. -/
def PersistArgs.kept (a : PersistArgs Fp) : List UUID → List Group → List Group
  | _, [] => []
  | seen, g :: gs =>
      if g.1 ∈ seen ∨ a.clash g.1 = true then a.kept seen gs else g :: a.kept (g.1 :: seen) gs

omit [DecidableEq Fp] in
theorem mem_kept {a : PersistArgs Fp} {g : Group} {gs : List Group} {seen : List UUID}
    (h : g ∈ a.kept seen gs) : g ∈ gs ∧ g.1 ∉ seen ∧ a.clash g.1 = false := by
  induction gs generalizing seen with
  | nil => simp [PersistArgs.kept] at h
  | cons g' gs ih =>
    unfold PersistArgs.kept at h
    split at h
    · obtain ⟨hmem, hrest⟩ := ih h
      exact ⟨List.mem_cons_of_mem _ hmem, hrest⟩
    · next hfree =>
      rcases List.mem_cons.mp h with rfl | htail
      · have hclash : a.clash g.1 = false := by
          simpa using fun hc => hfree (Or.inr hc)
        exact ⟨List.mem_cons_self, fun hs => hfree (Or.inl hs), hclash⟩
      · obtain ⟨hmem, hseen, hclash⟩ := ih htail
        exact ⟨List.mem_cons_of_mem _ hmem, fun hs => hseen (List.mem_cons_of_mem _ hs), hclash⟩

omit [DecidableEq Fp] in
/-- The kept groups have distinct ids. -/
theorem kept_nodup (a : PersistArgs Fp) (seen : List UUID) (gs : List Group) :
    ((a.kept seen gs).map Prod.fst).Nodup := by
  induction gs generalizing seen with
  | nil => simp [PersistArgs.kept]
  | cons g gs ih =>
    unfold PersistArgs.kept
    split
    · exact ih seen
    · rw [List.map_cons, List.nodup_cons]
      refine ⟨?_, ih _⟩
      intro hmem
      obtain ⟨g', hg', heq⟩ := List.mem_map.mp hmem
      exact (mem_kept hg').2.1 (heq ▸ List.mem_cons_self)

/-! ## §5. What the loop leaves. -/

/-- The members of the group are those of the stored row, as far as the digest tells. -/
def PersistArgs.sameMembers (a : PersistArgs Fp) (w : World Fp) (g : Group) : Bool :=
  match a.prior g.1 with
  | some prior => decide (prior.membersFingerprint = some (w.members g.ids))
  | none => false

/-- Both digests of the group are those of the stored row. -/
def PersistArgs.unchanged (a : PersistArgs Fp) (w : World Fp) (g : Group) : Bool :=
  match a.prior g.1 with
  | some prior => decide (prior.rowFingerprint = (freshRow w a.cutoffs g).rowFingerprint ∧
      prior.membersFingerprint = (freshRow w a.cutoffs g).membersFingerprint)
  | none => false

/-- The assignment rows the loop writes for a group, if it writes any. -/
def PersistArgs.writeOf (a : PersistArgs Fp) (w : World Fp) (g : Group) :
    Option (Write UUID UUID) :=
  if a.sameMembers w g then none else some ⟨g.1, g.ids, (a.prior g.1).isNone⟩

/-- The transaction rows after the loop has written a group. -/
def PersistArgs.putRow (a : PersistArgs Fp) (w : World Fp) (txns : List (TxnRow Fp)) (g : Group) :
    List (TxnRow Fp) :=
  match a.prior g.1 with
  | some prior =>
      if a.unchanged w g then txns
      else txns.map fun r =>
        if r.id = g.1 ∧ r.startedAt = prior.startedAt then freshRow w a.cutoffs g else r
  | none => txns ++ [freshRow w a.cutoffs g]

/-- The tables the loop leaves, group by group. -/
structure PersistState.After (ps : PersistState Fp) (w : World Fp) (a : PersistArgs Fp)
    (gs : List Group) (ps' : PersistState Fp) : Prop where
  seen : ps'.seen = (gs.map Prod.fst).reverse ++ ps.seen
  assigned : ps'.store.assigned = ps.store.assigned.writeAll (gs.filterMap (a.writeOf w))
  txns : ps'.store.txns = gs.foldl (a.putRow w) ps.store.txns
  entries : ps'.store.entries = ps.store.entries
  streams : ps'.store.streams = ps.store.streams
  pending : ps'.store.pending = ps.store.pending
  checkpoint : ps'.store.checkpoint = ps.store.checkpoint

/-- A skipped group leaves the tables as they were. -/
theorem persistOne_skipped {w : World Fp} {a : PersistArgs Fp} {ps : PersistState Fp} {g : Group}
    (h : g.1 ∈ ps.seen ∨ a.clash g.1 = true) :
    (persistOne w a ps g).store = ps.store ∧ (persistOne w a ps g).seen = ps.seen := by
  rw [persistOne, if_pos h]
  exact ⟨rfl, rfl⟩

/-- Deleting the owner's assignments and writing the new ones is one `Write`. -/
theorem write_rewritten (o : Owners UUID UUID) (t : UUID) (ids : List UUID) :
    (o.release fun x => decide (x ∈ [t])).claim t ids = o.write ⟨t, ids, false⟩ := by
  simp [Owners.write]

theorem writeAll_of_none (o : Owners UUID UUID) {a : PersistArgs Fp} {w : World Fp} {g : Group}
    (h : a.writeOf w g = none) : o.writeAll ([g].filterMap (a.writeOf w)) = o := by
  rw [List.filterMap_cons_none h, List.filterMap_nil, Owners.writeAll_nil]

theorem writeAll_of_some (o : Owners UUID UUID) {a : PersistArgs Fp} {w : World Fp} {g : Group}
    {x : Write UUID UUID} (h : a.writeOf w g = some x) :
    o.writeAll ([g].filterMap (a.writeOf w)) = o.write x := by
  rw [List.filterMap_cons_some h, List.filterMap_nil, Owners.writeAll_cons, Owners.writeAll_nil]

/-- One group that is not skipped: its row, its assignments, and nothing else. -/
theorem persistOne_kept {w : World Fp} {a : PersistArgs Fp} {ps : PersistState Fp} {g : Group}
    (h : ¬(g.1 ∈ ps.seen ∨ a.clash g.1 = true)) : ps.After w a [g] (persistOne w a ps g) := by
  rw [persistOne, if_neg h]
  cases hp : a.prior g.1 with
  | none =>
    have hw : a.writeOf w g = some ⟨g.1, g.ids, true⟩ := by
      simp [PersistArgs.writeOf, PersistArgs.sameMembers, hp]
    have hput : a.putRow w ps.store.txns g = ps.store.txns ++ [freshRow w a.cutoffs g] := by
      simp [PersistArgs.putRow, hp]
    exact ⟨rfl, (writeAll_of_some _ hw).symm, hput.symm, rfl, rfl, rfl, rfl⟩
  | some prior =>
    by_cases hm : prior.membersFingerprint = some (w.members g.ids)
    · have hw : a.writeOf w g = none := by
        simp [PersistArgs.writeOf, PersistArgs.sameMembers, hp, hm]
      have hrow : prior.membersFingerprint = (freshRow w a.cutoffs g).membersFingerprint := hm
      by_cases hr : prior.rowFingerprint = (freshRow w a.cutoffs g).rowFingerprint
      -- unchanged
      · have hput : a.putRow w ps.store.txns g = ps.store.txns := by
          simp [PersistArgs.putRow, PersistArgs.unchanged, hp, hr, hrow]
        simp only [if_pos (And.intro hr hrow)]
        exact ⟨rfl, (writeAll_of_none _ hw).symm, hput.symm, rfl, rfl, rfl, rfl⟩
      -- the row only
      · have hput : a.putRow w ps.store.txns g = ps.store.txns.map fun r =>
            if r.id = g.1 ∧ r.startedAt = prior.startedAt then freshRow w a.cutoffs g else r := by
          simp [PersistArgs.putRow, PersistArgs.unchanged, hp, hr]
        simp only [if_neg fun hc => hr (And.left hc), if_neg (not_not_intro hrow)]
        exact ⟨rfl, (writeAll_of_none _ hw).symm, hput.symm, rfl, rfl, rfl, rfl⟩
    -- the row and its members
    · have hw : a.writeOf w g = some ⟨g.1, g.ids, false⟩ := by
        simp [PersistArgs.writeOf, PersistArgs.sameMembers, hp, hm]
      have hrow : prior.membersFingerprint ≠ (freshRow w a.cutoffs g).membersFingerprint := hm
      have hput : a.putRow w ps.store.txns g = ps.store.txns.map fun r =>
          if r.id = g.1 ∧ r.startedAt = prior.startedAt then freshRow w a.cutoffs g else r := by
        simp [PersistArgs.putRow, PersistArgs.unchanged, hp, hrow]
      simp only [if_neg fun hc => hrow (And.right hc), if_pos hrow]
      refine ⟨rfl, ?_, hput.symm, rfl, rfl, rfl, rfl⟩
      rw [writeAll_of_some _ hw]
      exact write_rewritten ps.store.assigned g.1 g.ids

theorem PersistState.After.trans {w : World Fp} {a : PersistArgs Fp} {gs gs' : List Group}
    {ps ps' ps'' : PersistState Fp} (h : ps.After w a gs ps') (h' : ps'.After w a gs' ps'') :
    ps.After w a (gs ++ gs') ps'' where
  seen := by rw [h'.seen, h.seen]; simp
  assigned := by
    rw [h'.assigned, h.assigned, List.filterMap_append, Owners.writeAll, Owners.writeAll,
      Owners.writeAll, List.foldl_append]
  txns := by rw [h'.txns, h.txns, List.foldl_append]
  entries := h'.entries.trans h.entries
  streams := h'.streams.trans h.streams
  pending := h'.pending.trans h.pending
  checkpoint := h'.checkpoint.trans h.checkpoint

/-- **The loop writes the kept groups, one after the other.** -/
theorem persist_loop (w : World Fp) (a : PersistArgs Fp) (gs : List Group) (ps : PersistState Fp) :
    ps.After w a (a.kept ps.seen gs) (gs.foldl (persistOne w a) ps) := by
  induction gs generalizing ps with
  | nil => exact ⟨rfl, rfl, rfl, rfl, rfl, rfl, rfl⟩
  | cons g gs ih =>
    rw [List.foldl_cons, PersistArgs.kept]
    by_cases h : g.1 ∈ ps.seen ∨ a.clash g.1 = true
    · obtain ⟨hstore, hseen⟩ := persistOne_skipped (w := w) h
      have hrest := ih (persistOne w a ps g)
      rw [hseen] at hrest
      rw [if_pos h]
      exact ⟨hseen ▸ hrest.seen, hstore ▸ hrest.assigned, hstore ▸ hrest.txns, hstore ▸ hrest.entries,
        hstore ▸ hrest.streams, hstore ▸ hrest.pending, hstore ▸ hrest.checkpoint⟩
    · have hone := persistOne_kept (w := w) h
      have hrest := ih (persistOne w a ps g)
      have hseen : (persistOne w a ps g).seen = g.1 :: ps.seen := hone.seen
      rw [hseen] at hrest
      rw [if_neg h]
      exact hone.trans hrest

/-- Every group is either kept or counted as skipped. -/
theorem skipped_loop (w : World Fp) (a : PersistArgs Fp) (gs : List Group) (ps : PersistState Fp) :
    (gs.foldl (persistOne w a) ps).stats.skipped + (a.kept ps.seen gs).length =
      ps.stats.skipped + gs.length := by
  induction gs generalizing ps with
  | nil => rfl
  | cons g gs ih =>
    rw [List.foldl_cons, PersistArgs.kept]
    have hrest := ih (persistOne w a ps g)
    by_cases h : g.1 ∈ ps.seen ∨ a.clash g.1 = true
    · have hstep : (persistOne w a ps g).stats.skipped = ps.stats.skipped + 1 := by
        rw [persistOne, if_pos h]
      rw [(persistOne_skipped (w := w) h).2, hstep] at hrest
      rw [if_pos h, List.length_cons]
      omega
    · have hstep : (persistOne w a ps g).stats.skipped = ps.stats.skipped := by
        rw [persistOne, if_neg h]
        cases a.prior g.1 with
        | none => rfl
        | some prior => dsimp only; split_ifs <;> rfl
      have hseen : (persistOne w a ps g).seen = g.1 :: ps.seen := (persistOne_kept (w := w) h).seen
      rw [hseen, hstep] at hrest
      rw [if_neg h, List.length_cons, List.length_cons]
      omega

/-! ## §6. What `_persist` leaves. -/

/-- The stored transactions the deletion removes. -/
def PersistArgs.gone (a : PersistArgs Fp) (gs : List Group) : List UUID :=
  a.vanished ((a.kept [] gs).map Prod.fst)

/-- The assignment rows `_persist` writes. -/
def PersistArgs.writes (a : PersistArgs Fp) (w : World Fp) (gs : List Group) :
    List (Write UUID UUID) :=
  (a.kept [] gs).filterMap (a.writeOf w)

section Spec

variable {w : World Fp} {a : PersistArgs Fp} {st : Store Fp} {gs : List Group}

omit [DecidableEq Fp] in
theorem mem_gone {t : UUID} :
    t ∈ a.gone gs ↔ t ∈ a.stored.map TxnRow.id ∧ t ∉ (a.kept [] gs).map Prod.fst := by
  simp only [PersistArgs.gone, PersistArgs.vanished, List.mem_filter, decide_eq_true_eq]

omit [DecidableEq Fp] in
theorem vanished_reverse (ids : List UUID) : a.vanished (ids.reverse ++ []) = a.vanished ids := by
  simp [PersistArgs.vanished]

theorem persist_assigned (w : World Fp) (a : PersistArgs Fp) (st : Store Fp) (gs : List Group) :
    (persist w a st gs).1.assigned =
      (st.assigned.writeAll (a.writes w gs)).release fun t => decide (t ∈ a.gone gs) := by
  have hloop := persist_loop w a gs { store := st }
  simp only [persist, Store.deleteTransactions, Store.deleteAssignments]
  rw [hloop.seen, vanished_reverse, hloop.assigned]
  rfl

theorem persist_txns (w : World Fp) (a : PersistArgs Fp) (st : Store Fp) (gs : List Group) :
    (persist w a st gs).1.txns =
      ((a.kept [] gs).foldl (a.putRow w) st.txns).filter fun r => decide (r.id ∉ a.gone gs) := by
  have hloop := persist_loop w a gs { store := st }
  simp only [persist, Store.deleteTransactions, Store.deleteAssignments]
  rw [hloop.seen, vanished_reverse, hloop.txns]
  rfl

/-- `_persist` touches the assignments and the transactions, nothing else. -/
theorem persist_rest (w : World Fp) (a : PersistArgs Fp) (st : Store Fp) (gs : List Group) :
    (persist w a st gs).1.entries = st.entries ∧ (persist w a st gs).1.streams = st.streams ∧
      (persist w a st gs).1.pending = st.pending ∧
      (persist w a st gs).1.checkpoint = st.checkpoint := by
  have hloop := persist_loop w a gs { store := st }
  exact ⟨hloop.entries, hloop.streams, hloop.pending, hloop.checkpoint⟩

theorem writeOf_eq_some {g : Group} {x : Write UUID UUID} :
    a.writeOf w g = some x ↔
      a.sameMembers w g = false ∧ x = ⟨g.1, g.ids, (a.prior g.1).isNone⟩ := by
  unfold PersistArgs.writeOf
  cases a.sameMembers w g <;> simp [eq_comm]

theorem mem_writes {x : Write UUID UUID} :
    x ∈ a.writes w gs ↔ ∃ g ∈ a.kept [] gs, a.sameMembers w g = false ∧
      x = ⟨g.1, g.ids, (a.prior g.1).isNone⟩ := by
  simp only [PersistArgs.writes, List.mem_filterMap, writeOf_eq_some]

theorem map_owner_writes (ks : List Group) :
    ((ks.filterMap (a.writeOf w)).map Write.owner).Sublist (ks.map Prod.fst) := by
  induction ks with
  | nil => simp
  | cons g ks ih =>
    cases hg : a.writeOf w g with
    | none =>
      rw [List.filterMap_cons_none hg, List.map_cons]
      exact ih.cons _
    | some x =>
      rw [List.filterMap_cons_some hg, List.map_cons, List.map_cons, (writeOf_eq_some.mp hg).2]
      exact ih.cons_cons _

/-- Every write is for an owner of its own. -/
theorem writes_nodup : ((a.writes w gs).map Write.owner).Nodup :=
  (kept_nodup a [] gs).sublist (map_owner_writes _)

/-- What a run reports as skipped is what it did not keep. -/
theorem persist_skipped (w : World Fp) (a : PersistArgs Fp) (st : Store Fp) (gs : List Group) :
    (persist w a st gs).2.skipped + (a.kept [] gs).length = gs.length := by
  have hloop := skipped_loop w a gs { store := st }
  simpa only [persist, Nat.zero_add] using hloop

omit [DecidableEq Fp] in
theorem prior_eq_none {t : UUID} : a.prior t = none ↔ t ∉ a.stored.map TxnRow.id := by
  simp only [PersistArgs.prior, List.find?_eq_none, List.mem_reverse, decide_eq_true_eq,
    List.mem_map, not_exists, not_and]

omit [DecidableEq Fp] in
theorem prior_eq_some {t : UUID} {r : TxnRow Fp} (h : a.prior t = some r) :
    r ∈ a.stored ∧ r.id = t := by
  have hmem := List.mem_of_find?_eq_some h
  have hid := List.find?_some h
  exact ⟨List.mem_reverse.mp hmem, of_decide_eq_true hid⟩

/-- A transaction keeps the members it has: the rebuild does not own it, or the group that has its id
    has its members, as far as the digest tells. -/
def PersistArgs.Stays (a : PersistArgs Fp) (w : World Fp) (gs : List Group) (t : UUID) : Prop :=
  t ∉ a.stored.map TxnRow.id ∨ ∃ g ∈ a.kept [] gs, g.1 = t ∧ a.sameMembers w g = true

omit [DecidableEq Fp] in
theorem kept_unique {g g' : Group} (h : g ∈ a.kept [] gs) (h' : g' ∈ a.kept [] gs)
    (heq : g.1 = g'.1) : g = g' :=
  List.inj_on_of_nodup_map (kept_nodup a [] gs) h h' heq

/-- Who stays is exactly who is neither rewritten nor deleted. -/
theorem stays_iff {t : UUID} :
    a.Stays w gs t ↔ Owners.releasedBy (a.writes w gs) t = false ∧ t ∉ a.gone gs := by
  rw [Bool.eq_false_iff, Ne, Owners.releasedBy_eq_true, mem_gone]
  constructor
  · intro h
    rcases h with hnot | ⟨g, hg, rfl, hsame⟩
    · refine ⟨?_, fun hgone => hnot hgone.1⟩
      rintro ⟨x, hx, hfresh, rfl⟩
      obtain ⟨g, -, -, rfl⟩ := mem_writes.mp hx
      have hnone : a.prior g.1 = none := prior_eq_none.mpr hnot
      simp [hnone] at hfresh
    · refine ⟨?_, fun hgone => hgone.2 (List.mem_map_of_mem hg)⟩
      rintro ⟨x, hx, -, heq⟩
      obtain ⟨g', hg', hdiff, rfl⟩ := mem_writes.mp hx
      rw [kept_unique hg' hg heq, hsame] at hdiff
      exact Bool.noConfusion hdiff
  · rintro ⟨hrel, hgone⟩
    by_cases hst : t ∈ a.stored.map TxnRow.id
    · have hk : t ∈ (a.kept [] gs).map Prod.fst := by
        by_contra hnot
        exact hgone ⟨hst, hnot⟩
      obtain ⟨g, hg, rfl⟩ := List.mem_map.mp hk
      have hprior : (a.prior g.1).isNone = false := by
        rw [Option.isNone_eq_false_iff, Option.isSome_iff_ne_none]
        exact fun hnone => prior_eq_none.mp hnone hst
      refine Or.inr ⟨g, hg, rfl, ?_⟩
      by_contra hdiff
      exact hrel ⟨_, mem_writes.mpr ⟨g, hg, by simpa using hdiff, rfl⟩, hprior, rfl⟩
    · exact Or.inl hst

/-- The ids that have a row do not change while a group is written, but for the id of the group. -/
theorem live_putRow {txns : List (TxnRow Fp)} {g : Group} {t : UUID} :
    t ∈ (a.putRow w txns g).map TxnRow.id ↔
      t ∈ txns.map TxnRow.id ∨ (a.prior g.1 = none ∧ t = g.1) := by
  unfold PersistArgs.putRow
  cases hp : a.prior g.1 with
  | none => simp [freshRow]
  | some prior =>
    have hids : ∀ r : TxnRow Fp, (if r.id = g.1 ∧ r.startedAt = prior.startedAt then
        freshRow w a.cutoffs g else r).id = r.id := by
      intro r
      split
      · next hr => exact hr.1.symm
      · rfl
    by_cases hun : a.unchanged w g = true
    · simp [hun]
    · simp [hun, hids]

theorem live_foldl_putRow (ks : List Group) {txns : List (TxnRow Fp)} {t : UUID} :
    t ∈ (ks.foldl (a.putRow w) txns).map TxnRow.id ↔
      t ∈ txns.map TxnRow.id ∨ ∃ g ∈ ks, a.prior g.1 = none ∧ t = g.1 := by
  induction ks generalizing txns with
  | nil => simp
  | cons g ks ih =>
    rw [List.foldl_cons, ih, live_putRow, List.exists_mem_cons_iff, or_assoc]

omit [DecidableEq Fp] in
theorem Store.live_iff {t : UUID} : st.Live t ↔ t ∈ st.txns.map TxnRow.id := by
  simp [Store.Live, List.mem_map]

/-- Which transactions have a row afterwards: those that had one and are not deleted, and those a
    group creates. -/
theorem persist_live {t : UUID} :
    (persist w a st gs).1.Live t ↔
      (st.Live t ∧ t ∉ a.gone gs) ∨ ∃ g ∈ a.kept [] gs, a.prior g.1 = none ∧ t = g.1 := by
  have hfold : t ∈ ((a.kept [] gs).foldl (a.putRow w) st.txns).map TxnRow.id ↔
      t ∈ st.txns.map TxnRow.id ∨ ∃ g ∈ a.kept [] gs, a.prior g.1 = none ∧ t = g.1 :=
    live_foldl_putRow (a.kept [] gs)
  have hfilter : (persist w a st gs).1.Live t ↔
      t ∈ ((a.kept [] gs).foldl (a.putRow w) st.txns).map TxnRow.id ∧ t ∉ a.gone gs := by
    simp only [Store.live_iff, persist_txns, List.mem_map, List.mem_filter, decide_eq_true_eq]
    constructor
    · rintro ⟨r, ⟨hr, hgone⟩, rfl⟩
      exact ⟨⟨r, hr, rfl⟩, hgone⟩
    · rintro ⟨⟨r, hr, rfl⟩, hgone⟩
      exact ⟨r, ⟨hr, hgone⟩, rfl⟩
  rw [hfilter, hfold, Store.live_iff]
  constructor
  · rintro ⟨hlive | hnew, hgone⟩
    · exact Or.inl ⟨hlive, hgone⟩
    · exact Or.inr hnew
  · rintro (⟨hlive, hgone⟩ | ⟨g, hg, hnone, rfl⟩)
    · exact ⟨Or.inl hlive, hgone⟩
    · exact ⟨Or.inr ⟨g, hg, hnone, rfl⟩, fun hgone => (mem_gone.mp hgone).2 (List.mem_map_of_mem hg)⟩

/-- The stored rows are rows of the table. -/
def PersistArgs.Reads (a : PersistArgs Fp) (st : Store Fp) : Prop :=
  ∀ t ∈ a.stored.map TxnRow.id, st.Live t

/-- The group whose members are written has a row afterwards. -/
theorem persist_live_kept (hr : a.Reads st) {g : Group} (hg : g ∈ a.kept [] gs) :
    (persist w a st gs).1.Live g.1 := by
  apply persist_live.mpr
  by_cases hst : g.1 ∈ a.stored.map TxnRow.id
  · exact Or.inl ⟨hr _ hst, fun hgone => (mem_gone.mp hgone).2 (List.mem_map_of_mem hg)⟩
  · exact Or.inr ⟨g, hg, prior_eq_none.mpr hst, rfl⟩

/-- The id is that of a line of a group whose members are written. -/
def PersistArgs.Claims (a : PersistArgs Fp) (w : World Fp) (gs : List Group) (i : UUID) : Prop :=
  ∃ g ∈ a.kept [] gs, a.sameMembers w g = false ∧ i ∈ g.ids

theorem claims_iff {i : UUID} : a.Claims w gs i ↔ ∃ x ∈ a.writes w gs, i ∈ x.items := by
  constructor
  · rintro ⟨g, hg, hdiff, hmem⟩
    exact ⟨_, mem_writes.mpr ⟨g, hg, hdiff, rfl⟩, hmem⟩
  · rintro ⟨x, hx, hmem⟩
    obtain ⟨g, hg, hdiff, rfl⟩ := mem_writes.mp hx
    exact ⟨g, hg, hdiff, hmem⟩

/-- The last group that claims a line has it afterwards, at its place in the group. -/
theorem persist_last {pre post : List Group} {g : Group} {i : UUID}
    (hsplit : a.kept [] gs = pre ++ g :: post) (hdiff : a.sameMembers w g = false) (hmem : i ∈ g.ids)
    (hpost : ∀ g' ∈ post, a.sameMembers w g' = false → i ∉ g'.ids) :
    (persist w a st gs).1.assigned i = some (g.1, g.ids.idxOf i) := by
  have hwrite : a.writeOf w g = some ⟨g.1, g.ids, (a.prior g.1).isNone⟩ :=
    writeOf_eq_some.mpr ⟨hdiff, rfl⟩
  have hwrites : a.writes w gs = pre.filterMap (a.writeOf w) ++
      ⟨g.1, g.ids, (a.prior g.1).isNone⟩ :: post.filterMap (a.writeOf w) := by
    rw [PersistArgs.writes, hsplit, List.filterMap_append, List.filterMap_cons_some hwrite]
  have hlater : ∀ x ∈ post.filterMap (a.writeOf w), i ∉ x.items := by
    intro x hx
    obtain ⟨g', hg', hx'⟩ := List.mem_filterMap.mp hx
    obtain ⟨hdiff', rfl⟩ := writeOf_eq_some.mp hx'
    exact hpost g' hg' hdiff'
  have hlast : st.assigned.writeAll (a.writes w gs) i = some (g.1, g.ids.idxOf i) := by
    rw [hwrites]
    exact Owners.writeAll_last hmem hlater (Owners.owner_ne_of_nodup (hwrites ▸ writes_nodup))
  have hkept : g ∈ a.kept [] gs := by rw [hsplit]; simp
  have hkeep : g.1 ∉ a.gone gs := fun hgone => (mem_gone.mp hgone).2 (List.mem_map_of_mem hkept)
  rw [persist_assigned]
  exact Owners.release_eq_some.mpr ⟨hlast, by simpa using hkeep⟩

/-- Some group is the last that claims a claimed line. -/
theorem exists_last_claim {i : UUID} {ks : List Group} {p : Group → Prop}
    (h : ∃ g ∈ ks, p g ∧ i ∈ g.ids) :
    ∃ pre g post, ks = pre ++ g :: post ∧ p g ∧ i ∈ g.ids ∧ ∀ g' ∈ post, p g' → i ∉ g'.ids := by
  induction ks with
  | nil =>
    obtain ⟨g, hg, -⟩ := h
    exact absurd hg List.not_mem_nil
  | cons k ks ih =>
    by_cases htail : ∃ g ∈ ks, p g ∧ i ∈ g.ids
    · obtain ⟨pre, g, post, rfl, hrest⟩ := ih htail
      exact ⟨k :: pre, g, post, rfl, hrest⟩
    · obtain ⟨g, hg, hp, hmem⟩ := h
      rcases List.mem_cons.mp hg with rfl | hg
      · exact ⟨[], g, ks, rfl, hp, hmem, fun g' hg' hp' hmem' => htail ⟨g', hg', hp', hmem'⟩⟩
      · exact absurd ⟨g, hg, hp, hmem⟩ htail

/-- A line that is claimed is owned afterwards. -/
theorem persist_claimed (hr : a.Reads st) {e : LogEntry} (hc : a.Claims w gs e.id) :
    ∃ t', (persist w a st gs).1.Owns t' e := by
  obtain ⟨pre, g, post, hsplit, hdiff, hmem, hpost⟩ := exists_last_claim hc
  have hg : g ∈ a.kept [] gs := by rw [hsplit]; simp
  exact ⟨g.1, Owners.owner_eq_some.mpr ⟨_, persist_last hsplit hdiff hmem hpost⟩,
    persist_live_kept hr hg⟩

/-- A line that is not claimed keeps its assignment, unless its transaction is rewritten or deleted. -/
theorem persist_unclaimed {i : UUID} (hc : ¬a.Claims w gs i) :
    (persist w a st gs).1.assigned i =
      st.assigned.release (fun t => Owners.releasedBy (a.writes w gs) t ||
        decide (t ∈ a.gone gs)) i := by
  have hun : st.assigned.writeAll (a.writes w gs) i =
      st.assigned.release (Owners.releasedBy (a.writes w gs)) i :=
    Owners.writeAll_unclaimed _ fun x hx hmem => hc (claims_iff.mpr ⟨x, hx, hmem⟩)
  rw [persist_assigned, ← Owners.release_release]
  simp only [Owners.release] at hun ⊢
  rw [hun]

/-- A line without an owner has one afterwards only if it is claimed. -/
theorem persist_unowned_iff (hr : a.Reads st) {e : LogEntry} (ho : st.assigned e.id = none) :
    (∃ t', (persist w a st gs).1.Owns t' e) ↔ a.Claims w gs e.id := by
  constructor
  · rintro ⟨t', howner, -⟩
    by_contra hc
    rw [Owners.owner, persist_unclaimed hc, Owners.release, ho] at howner
    simp at howner
  · exact persist_claimed hr

/-- **Who is still owned.**  An entry that a live transaction owned is owned afterwards exactly when it
    is a line of a group whose members are written, or its transaction keeps its members. -/
theorem persist_owned_iff (hr : a.Reads st) {e : LogEntry} {t : UUID} (ho : st.Owns t e) :
    (∃ t', (persist w a st gs).1.Owns t' e) ↔
      (∃ g ∈ a.kept [] gs, a.sameMembers w g = false ∧ e.id ∈ g.ids) ∨ a.Stays w gs t := by
  by_cases hc : a.Claims w gs e.id
  · exact ⟨fun _ => Or.inl hc, fun _ => persist_claimed hr hc⟩
  · have hleft : ¬∃ g ∈ a.kept [] gs, a.sameMembers w g = false ∧ e.id ∈ g.ids := hc
    have hafter := @persist_unclaimed _ _ w a st gs e.id hc
    simp only [hleft, false_or, stays_iff]
    constructor
    · rintro ⟨t', howner, -⟩
      rw [Owners.owner, hafter] at howner
      by_contra hnot
      have hp : (Owners.releasedBy (a.writes w gs) t || decide (t ∈ a.gone gs)) = true := by
        by_contra hp
        simp only [Bool.or_eq_true, decide_eq_true_eq, not_or, Bool.not_eq_true] at hp
        exact hnot hp
      rw [Owners.release_of ho.1 hp] at howner
      simp at howner
    · rintro ⟨hrel, hgone⟩
      have hp : ∀ t', st.assigned.owner e.id = some t' →
          (Owners.releasedBy (a.writes w gs) t' || decide (t' ∈ a.gone gs)) = false := by
        intro t' ht'
        rw [Option.some.inj (ht'.symm.trans ho.1), hrel]
        simpa using hgone
      have hsame : (persist w a st gs).1.assigned e.id = st.assigned e.id := by
        rw [hafter, Owners.release_of_not hp]
      exact ⟨t, by rw [Owners.owner, hsame]; exact ho.1, persist_live.mpr (Or.inl ⟨ho.2, hgone⟩)⟩

end Spec

end RagPipeline.Stage2
