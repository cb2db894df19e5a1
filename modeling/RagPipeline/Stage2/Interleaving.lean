/-
  RagPipeline.Stage2.Interleaving — the head lane and the rebuild, in any order.

  A plan is made from a snapshot and applied later, under the lock of the tenant; a rebuild, new lines or another
  plan may commit in between.  `apply_plan` looks again at the row digest of every continuation, and at nothing
  else: not at the lines of the plan, and not at the ids of its creations.

    * `Tenant`, `step`  — the tables, the open streams among them, and the plans in flight;
    * `Fits`            — what a step relies on, on the state before it;
    * `fit_run_safe`    — in every run whose steps all fit, each commit leaves the tables consistent and no line
                          loses its owner;
    * `staleCreation_unsafe` — a creation that is applied after a rebuild has taken its line.
-/
import RagPipeline.Stage2.HeadLane
import RagPipeline.Stage2.Lossless
import RagPipeline.Stage2.SkipEquivalence
import RagPipeline.Stage2.StreamState

namespace RagPipeline.Stage2

open RagPipeline.Lib

variable {Fp : Type} [DecidableEq Fp]

/-! ## §1. The steps. -/

/-- A tenant's tables, and the plans that are not applied yet. -/
structure Tenant (Fp : Type) where
  store : Store Fp := {}
  flights : List (ParkingPlan Fp) := []

/-- What commits: a plan is made, a plan is applied, a window is rebuilt, Stage 1 stores lines, the bookmark
    advances. -/
inductive Event where
  | plan (lo hi : Instant)
  | apply (flight : Nat) (now : Instant)
  | rebuild (lo hi : Instant)
  | arrive (es : List LogEntry)
  | advance (hi : Instant)

/-- `stream_state.save` in the transaction of a tenant; `none` is a constraint that is violated.  The rows of other
    tenants do not matter (`save_own`), so it has its tables to itself. -/
def Store.saveStreams (st : Store Fp) (p : Parked) (touched : Option (List UUID)) (consumed : List UUID) :
    Option (Store Fp) :=
  (save "" p touched consumed
    ⟨st.streams.map fun r => ("", r), st.pendingLines.map (pendingRow "")⟩).map fun t =>
      { st with streams := t.streamsOf "", pending := (t.pendingOf "").map PendingRow.entryId }

/-- `apply_plan`'s commit: the streams and the pending requests are replaced by those of the plan, and two rows of
    one key roll the whole plan back. -/
def commitPlan (now : Instant) (st : Store Fp) (plan : ParkingPlan Fp) : Option (Store Fp) :=
  (applyPlan now st plan.writes).bind fun done => done.store.saveStreams ⟨plan.parked.map Prod.snd, []⟩ none []

/-- The continuity a window is rebuilt under. -/
def windowContinuity (st : Store Fp) (lo hi hiP : Instant) : Continuity :=
  ⟨st.ownersInWindow lo hiP, st.freedIds lo hi⟩

/-- `open_streams` of `_shadow_compare`: those of the groups that are written. -/
def windowStreams (w : World Fp) (c : Settings) (st : Store Fp) (lo hi hiP : Instant) : List OpenStream :=
  rebuildStreams c.logOpenGap lo
    (assignedBuilders w (windowContinuity st lo hi hiP) (group c.logOpenGap {} (st.windowRows c lo hi hiP)))

/-- `regroup_window` with the save of `_shadow_compare`, in one transaction: for what was freed and what is rebuilt,
    in every mode but `off`, and not for a window without lines. -/
def regroupSaved (w : World Fp) (c : Settings) (st : Store Fp) (lo hi : Instant) : Option (Store Fp) :=
  (crossPadFloor c st (lo - c.pad) (hi + c.pad)).bind fun floor =>
    (regroupWindow w c st lo hi).bind fun done =>
      if c.streamLookup = .off ∨ st.windowRows c floor hi (hi + c.pad) = [] then some done.store
      else
        done.store.saveStreams ⟨windowStreams w c st floor hi (hi + c.pad), []⟩
          (some (st.freedIds floor hi ++ (windowGroups w c st floor hi (hi + c.pad)).map Prod.fst))
          ((st.windowRows c floor hi (hi + c.pad)).map (·.id))

/-- One step; `none` commits nothing. -/
def step (w : World Fp) (c : Settings) (s : Tenant Fp) : Event → Option (Tenant Fp)
  | .plan lo hi =>
      match buildPlan w c s.store lo hi with
      | .ok plan => some { s with flights := s.flights ++ [plan] }
      | .error _ => none
  | .apply flight now =>
      s.flights[flight]?.bind fun plan =>
        (commitPlan now s.store plan).map fun st => ⟨st, s.flights.eraseIdx flight⟩
  | .rebuild lo hi => (regroupSaved w c s.store lo hi).map fun st => { s with store := st }
  | .arrive es => some { s with store := { s.store with entries := s.store.entries ++ es } }
  | .advance hi =>
      some { s with store := { s.store with checkpoint := some ((s.store.checkpoint.map (max hi)).getD hi) } }

/-! ## §2. What is claimed. -/

/-- A line has one live transaction at most, and the members digest of a live transaction is that of the lines
    assigned to it. -/
structure Store.Consistent (w : World Fp) (st : Store Fp) : Prop where
  oneOwner : ∀ e ∈ st.entries, (st.txns.filter fun r => decide (st.assigned.owner e.id = some r.id)).length ≤ 1
  digest : ∀ r ∈ st.txns, ∀ fp, r.membersFingerprint = some fp → fp = w.members ((st.linesOf r.id).map (·.id))

/-- No line that a live transaction owns is left without one. -/
def KeepsOwned (st st' : Store Fp) : Prop := ∀ e ∈ st.entries, (∃ t, st.Owns t e) → ∃ t, st'.Owns t e

/-- Every commit of a run leaves the tables consistent, and no step leaves an owned line without owner. -/
def SafeRun (w : World Fp) (c : Settings) (s : Tenant Fp) : List Event → Prop
  | [] => s.store.Consistent w
  | ev :: evs =>
      s.store.Consistent w ∧ ∀ s' ∈ step w c s ev, KeepsOwned s.store s'.store ∧ SafeRun w c s' evs

/-! ## §3. What a step relies on. -/

/-- The plan still fits the tables: no two of its builders share a transaction or a line, its lines are stored and
    no other transaction has one of them, a continued transaction has its row and no line beyond the plan's, and
    the id of a creation is free. -/
structure PlanFits (st : Store Fp) (p : HeadPlan Fp) : Prop where
  owners : (p.assigns.map Write.owner).Nodup
  lines : (p.assigns.flatMap Write.items).Nodup
  stored : ∀ a ∈ p.assigns, ∀ i ∈ a.items, i ∈ st.entries.map (·.id)
  free : ∀ a ∈ p.assigns, ∀ i ∈ a.items, ∀ t ∈ st.assigned.owner i, t = a.owner
  row : ∀ x ∈ p.continued, ∃ r ∈ st.txns, r.id = x.txnId ∧ r.startedAt = x.startedAt
  whole : ∀ x ∈ p.continued, ∀ e ∈ st.linesOf x.txnId, e.id ∈ x.entries.map (·.id)
  fresh : ∀ x ∈ p.created, x.txnId ∉ st.txns.map TxnRow.id

/-- The groups a rebuild writes share no line, the id of a group that is created is free, and every line of a
    transaction that is freed is rehomed. -/
structure RebuildFits (w : World Fp) (c : Settings) (st : Store Fp) (floor hi hiP : Instant) : Prop where
  lines : (((windowArgs w c st floor hi hiP).kept [] (windowGroups w c st floor hi hiP)).flatMap Group.ids).Nodup
  fresh : ∀ g ∈ (windowArgs w c st floor hi hiP).kept [] (windowGroups w c st floor hi hiP),
    g.1 ∈ (st.cleared c floor hi).txns.map TxnRow.id → g.1 ∈ (st.storedRows c floor hi).map TxnRow.id
  rehomed : ∀ e ∈ st.entries, ∀ t ∈ st.freedIds floor hi, st.assigned.owner e.id = some t →
    Rehomed w c st floor hi hiP t e

/-- What a step relies on: a plan that is applied fits, a window that is rebuilt fits, a line that is stored is
    new. -/
def Fits (w : World Fp) (c : Settings) (s : Tenant Fp) : Event → Prop
  | .plan _ _ | .advance _ => True
  | .apply flight _ => ∀ plan ∈ s.flights[flight]?, PlanFits s.store plan.writes
  | .rebuild lo hi =>
      ∀ floor ∈ crossPadFloor c s.store (lo - c.pad) (hi + c.pad), RebuildFits w c s.store floor hi (hi + c.pad)
  | .arrive es =>
      ((s.store.entries ++ es).map (·.id)).Nodup ∧ ∀ e ∈ es, s.store.assigned.owner e.id = none

/-- Every step of the run fits. -/
def FitRun (w : World Fp) (c : Settings) (s : Tenant Fp) : List Event → Prop
  | [] => True
  | ev :: evs => Fits w c s ev ∧ ∀ s' ∈ step w c s ev, FitRun w c s' evs

/-! ## §4. The invariant. -/

/-- Lines and rows have an id of their own, whoever a line is assigned to has a row, and the digests are those of
    the lines. -/
structure Store.Kept (w : World Fp) (st : Store Fp) : Prop where
  ids : (st.entries.map (·.id)).Nodup
  rows : (st.txns.map TxnRow.id).Nodup
  backed : ∀ e ∈ st.entries, ∀ t, st.assigned.owner e.id = some t → st.Live t
  digest : ∀ r ∈ st.txns, ∀ fp, r.membersFingerprint = some fp → fp = w.members ((st.linesOf r.id).map (·.id))

/-- The tables are kept, and the digests of the plans in flight are those of their lines. -/
structure Tenant.Kept (w : World Fp) (s : Tenant Fp) : Prop where
  store : s.store.Kept w
  continued : ∀ plan ∈ s.flights, ∀ x ∈ plan.writes.continued, x.membersFp = w.members (x.entries.map (·.id))
  created : ∀ plan ∈ s.flights, ∀ x ∈ plan.writes.created, x.membersFp = w.members (x.entries.map (·.id))

/-! ## §5. Reading the tables. -/

/-- Parts that share an item are one, where no item is in two. -/
theorem part_unique {α β : Type} {l : List α} {f : α → List β} (h : (l.flatMap f).Nodup) {x y : α} (hx : x ∈ l)
    (hy : y ∈ l) {i : β} (hi : i ∈ f x) (hi' : i ∈ f y) : x = y := by
  by_contra hne
  have hsymm : Std.Symm (Function.onFun List.Disjoint f) := ⟨fun _ _ hd => List.Disjoint.symm hd⟩
  exact (List.nodup_flatMap.mp h).2.forall hx hy hne hi hi'

section Reading

variable {w : World Fp} {st st' : Store Fp}

omit [DecidableEq Fp] in
/-- The lines of a transaction, told by their ids. -/
theorem linesOf_perm (hids : (st.entries.map (·.id)).Nodup) {t : UUID} {is : List UUID} (hn : is.Nodup)
    (hin : ∀ i ∈ is, i ∈ st.entries.map (·.id))
    (h : ∀ e ∈ st.entries, st.assigned.owner e.id = some t ↔ e.id ∈ is) :
    ((st.linesOf t).map (·.id)).Perm is := by
  rw [List.perm_ext_iff_of_nodup (nodup_linesOf hids t) hn]
  intro i
  rw [List.mem_map]
  constructor
  · intro hi
    obtain ⟨e, he, rfl⟩ := hi
    obtain ⟨hmem, hown⟩ := mem_linesOf.mp he
    exact (h e hmem).mp hown
  · intro hi
    obtain ⟨e, he, rfl⟩ := List.mem_map.mp (hin i hi)
    exact ⟨e, mem_linesOf.mpr ⟨he, (h e he).mpr hi⟩, rfl⟩

omit [DecidableEq Fp] in
/-- The lines of a transaction nobody gave a line to or took one from. -/
theorem linesOf_congr (hids : (st.entries.map (·.id)).Nodup) (hentries : st'.entries = st.entries) {t : UUID}
    (h : ∀ e ∈ st.entries, st'.assigned.owner e.id = some t ↔ st.assigned.owner e.id = some t) :
    ((st'.linesOf t).map (·.id)).Perm ((st.linesOf t).map (·.id)) := by
  refine linesOf_perm (hentries ▸ hids) (nodup_linesOf hids t) (fun i hi => ?_) (fun e he => ?_)
  · obtain ⟨e, he, rfl⟩ := List.mem_map.mp hi
    rw [hentries]
    exact List.mem_map_of_mem (mem_linesOf.mp he).1
  · rw [hentries] at he
    rw [h e he]
    constructor
    · intro hown
      exact List.mem_map_of_mem (mem_linesOf.mpr ⟨he, hown⟩)
    · intro hi
      obtain ⟨e', he', hid⟩ := List.mem_map.mp hi
      rw [← hid]
      exact (mem_linesOf.mp he').2

omit [DecidableEq Fp] in
theorem members_perm {is is' : List UUID} (h : is.Perm is') : w.members is = w.members is' := by
  unfold World.members
  rw [sortedIds_eq_iff.mpr h]

omit [DecidableEq Fp] in
/-- **What is kept is consistent.** -/
theorem Store.Kept.consistent (h : st.Kept w) : st.Consistent w where
  oneOwner e he := by
    have hsub : ((st.txns.filter fun r => decide (st.assigned.owner e.id = some r.id)).map TxnRow.id).Nodup :=
      h.rows.sublist (List.filter_sublist.map _)
    cases hrows : st.txns.filter fun r => decide (st.assigned.owner e.id = some r.id) with
    | nil => exact Nat.zero_le 1
    | cons r rs =>
      cases rs with
      | nil => exact Nat.le_refl 1
      | cons r' rs =>
        -- both rows have the id of the one owner
        have hown : ∀ q ∈ r :: r' :: rs, st.assigned.owner e.id = some q.id := by
          intro q hq
          rw [← hrows] at hq
          exact of_decide_eq_true (List.mem_filter.mp hq).2
        have heq : r.id = r'.id :=
          Option.some.inj ((hown r (by simp)).symm.trans (hown r' (by simp)))
        rw [hrows, List.map_cons, List.map_cons, List.nodup_cons] at hsub
        exact absurd (heq ▸ List.mem_cons_self) hsub.1
  digest := h.digest

omit [DecidableEq Fp] in
theorem Store.Kept.row_unique (h : st.Kept w) {r r' : TxnRow Fp} (hr : r ∈ st.txns) (hr' : r' ∈ st.txns)
    (hid : r.id = r'.id) : r = r' := List.inj_on_of_nodup_map h.rows hr hr' hid

end Reading

/-! ## §6. A rebuild. -/

section Persist

variable {w : World Fp} {a : PersistArgs Fp} {st : Store Fp} {gs : List Group}

/-- What `_persist` relies on: its stored rows are rows of the table; the groups it writes share no line, hold
    stored lines that are free or those of a stored row, and create no id that is there already. -/
structure PersistArgs.Fits (a : PersistArgs Fp) (st : Store Fp) (gs : List Group) : Prop where
  reads : ∀ p ∈ a.stored, p ∈ st.txns
  lines : ((a.kept [] gs).flatMap Group.ids).Nodup
  known : ∀ g ∈ a.kept [] gs, ∀ i ∈ g.ids, i ∈ st.entries.map (·.id)
  free : ∀ g ∈ a.kept [] gs, ∀ i ∈ g.ids, ∀ t, st.assigned.owner i = some t → t ∈ a.stored.map TxnRow.id
  fresh : ∀ g ∈ a.kept [] gs, g.1 ∈ st.txns.map TxnRow.id → g.1 ∈ a.stored.map TxnRow.id

omit [DecidableEq Fp] in
theorem PersistArgs.Fits.live (h : a.Fits st gs) : a.Reads st := by
  intro t ht
  obtain ⟨p, hp, rfl⟩ := List.mem_map.mp ht
  exact ⟨p, h.reads p hp, rfl⟩

omit [DecidableEq Fp] in
/-- Kept groups that share a line are one. -/
theorem PersistArgs.Fits.shared (h : a.Fits st gs) {g g' : Group} (hg : g ∈ a.kept [] gs)
    (hg' : g' ∈ a.kept [] gs) {i : UUID} (hi : i ∈ g.ids) (hi' : i ∈ g'.ids) : g = g' :=
  part_unique h.lines hg hg' hi hi'

/-- The lines a stored group has when its members are left alone. -/
theorem lines_of_sameMembers (hw : w.CollisionFree) (hst : st.Kept w) (h : a.Fits st gs) {g : Group}
    (hsame : a.sameMembers w g = true) : ((st.linesOf g.1).map (·.id)).Perm g.ids := by
  unfold PersistArgs.sameMembers at hsame
  cases hp : a.prior g.1 with
  | none =>
    rw [hp] at hsame
    cases hsame
  | some p =>
    rw [hp] at hsame
    obtain ⟨hstored, hid⟩ := prior_eq_some hp
    have hdigest := hst.digest p (h.reads p hstored) _ (of_decide_eq_true hsame)
    rw [hid] at hdigest
    exact ((members_eq_iff hw).mp hdigest).symm

/-- The lines of a kept group are its lines afterwards. -/
theorem owner_of_kept (hw : w.CollisionFree) (hst : st.Kept w) (h : a.Fits st gs) {g : Group}
    (hg : g ∈ a.kept [] gs) {i : UUID} (hi : i ∈ g.ids) :
    (persist w a st gs).1.assigned.owner i = some g.1 := by
  cases hsame : a.sameMembers w g with
  | false =>
    obtain ⟨pre, post, hsplit⟩ := List.append_of_mem hg
    refine Owners.owner_eq_some.mpr ⟨_, persist_last hsplit hsame hi fun g' hg' _ hi' => ?_⟩
    have hin : g' ∈ a.kept [] gs := by
      rw [hsplit]
      exact List.mem_append_right _ (List.mem_cons_of_mem _ hg')
    -- a later group with the line would be the same group, and the ids are distinct
    have hids := kept_nodup a [] gs
    rw [hsplit, List.map_append, List.map_cons] at hids
    have hnot := (List.nodup_cons.mp hids.of_append_right).1
    exact hnot (h.shared hg hin hi hi' ▸ List.mem_map_of_mem hg')
  | true =>
    have hperm := lines_of_sameMembers hw hst h hsame
    obtain ⟨e, he, rfl⟩ := List.mem_map.mp (hperm.mem_iff.mpr hi)
    obtain ⟨n, hn⟩ := Owners.owner_eq_some.mp (mem_linesOf.mp he).2
    have hunclaimed : ¬a.Claims w gs e.id := by
      intro hc
      obtain ⟨g', hg', hdiff, hi'⟩ := hc
      rw [h.shared hg' hg hi' hi, hsame] at hdiff
      cases hdiff
    exact Owners.owner_eq_some.mpr ⟨n, skip_stays hunclaimed hn (.inr ⟨g, hg, rfl, hsame⟩)⟩

/-- A line of a transaction that is not stored stays with it. -/
theorem owner_of_not_stored (h : a.Fits st gs) {i t : UUID} (ht : st.assigned.owner i = some t)
    (hnot : t ∉ a.stored.map TxnRow.id) : (persist w a st gs).1.assigned.owner i = some t := by
  obtain ⟨n, hn⟩ := Owners.owner_eq_some.mp ht
  have hunclaimed : ¬a.Claims w gs i := by
    intro hc
    obtain ⟨g, hg, -, hi⟩ := hc
    exact hnot (h.free g hg i hi t ht)
  exact Owners.owner_eq_some.mpr ⟨n, skip_stays hunclaimed hn (.inl hnot)⟩

/-- **Who owns a line after `_persist`**: the kept group that holds it, else the owner it had. -/
theorem owner_cases (hw : w.CollisionFree) (hst : st.Kept w) (h : a.Fits st gs) {e : LogEntry}
    (he : e ∈ st.entries) {t : UUID} (ht : (persist w a st gs).1.assigned.owner e.id = some t) :
    (∃ g ∈ a.kept [] gs, g.1 = t ∧ e.id ∈ g.ids) ∨
      (st.assigned.owner e.id = some t ∧ t ∉ a.stored.map TxnRow.id ∧ t ∉ (a.kept [] gs).map Prod.fst) := by
  by_cases hc : a.Claims w gs e.id
  · obtain ⟨g, hg, -, hi⟩ := hc
    rw [owner_of_kept hw hst h hg hi] at ht
    exact .inl ⟨g, hg, Option.some.inj ht, hi⟩
  · obtain ⟨n, hn⟩ := Owners.owner_eq_some.mp ht
    rw [persist_unclaimed hc, Owners.release_eq_some] at hn
    obtain ⟨hbefore, hreleased⟩ := hn
    have hown : st.assigned.owner e.id = some t := Owners.owner_eq_some.mpr ⟨n, hbefore⟩
    have hstays : a.Stays w gs t := by
      rw [stays_iff]
      simpa using hreleased
    -- the line was not claimed, so its transaction stays: it was not stored, or its group was left alone
    cases hstays with
    | inl hnot =>
      refine .inr ⟨hown, hnot, fun hk => ?_⟩
      obtain ⟨g, hg, rfl⟩ := List.mem_map.mp hk
      exact hnot (h.fresh g hg (Store.live_iff.mp (hst.backed e he _ hown)))
    | inr hsame =>
      obtain ⟨g, hg, rfl, hsame⟩ := hsame
      refine .inl ⟨g, hg, rfl, (lines_of_sameMembers hw hst h hsame).mem_iff.mp ?_⟩
      exact List.mem_map_of_mem (mem_linesOf.mpr ⟨he, hown⟩)

/-- Writing groups under ids of their own leaves the ids of the rows distinct. -/
theorem nodup_foldl_putRow (ks : List Group) {txns : List (TxnRow Fp)} (hn : (txns.map TxnRow.id).Nodup)
    (hks : (ks.map Prod.fst).Nodup) (hfresh : ∀ g ∈ ks, a.prior g.1 = none → g.1 ∉ txns.map TxnRow.id) :
    ((ks.foldl (a.putRow w) txns).map TxnRow.id).Nodup := by
  induction ks generalizing txns with
  | nil => exact hn
  | cons g ks ih =>
    rw [List.map_cons, List.nodup_cons] at hks
    -- a created row has an id that is free, a rewritten one keeps the id it has
    have hput : ((a.putRow w txns g).map TxnRow.id).Nodup := by
      unfold PersistArgs.putRow
      cases hp : a.prior g.1 with
      | none =>
        rw [List.map_append, List.nodup_append]
        refine ⟨hn, List.nodup_singleton _, fun i hi j hj heq => ?_⟩
        rw [heq, List.mem_singleton.mp hj] at hi
        exact hfresh g List.mem_cons_self hp hi
      | some p =>
        dsimp only
        split
        · exact hn
        · have hids : (txns.map fun r => if r.id = g.1 ∧ r.startedAt = p.startedAt then
              freshRow w a.cutoffs g else r).map TxnRow.id = txns.map TxnRow.id := by
            rw [List.map_map]
            refine List.map_congr_left fun r _ => ?_
            show (if r.id = g.1 ∧ r.startedAt = p.startedAt then freshRow w a.cutoffs g else r).id = r.id
            split
            · next hr => exact hr.1.symm
            · rfl
          rw [hids]
          exact hn
    refine ih hput hks.2 fun g' hg' hprior hin => ?_
    cases live_putRow.mp hin with
    | inl hold => exact hfresh g' (List.mem_cons_of_mem _ hg') hprior hold
    | inr hnew => exact hks.1 (hnew.2 ▸ List.mem_map_of_mem hg')

/-- The row of a kept group has the digest of the group's lines. -/
theorem digest_of_kept (hst : st.Kept w) (h : a.Fits st gs) {g : Group} (hg : g ∈ a.kept [] gs) {r : TxnRow Fp}
    (hr : r ∈ (persist w a st gs).1.txns) (hid : r.id = g.1) : r.membersFingerprint = some (w.members g.ids) := by
  rw [mem_persist_of_kept hg hid, mem_putRow_iff] at hr
  cases hp : a.prior g.1 with
  | none =>
    rw [hp] at hr
    cases hr with
    | inl hold => exact absurd (h.fresh g hg (hid ▸ List.mem_map_of_mem hold)) (prior_eq_none.mp hp)
    | inr hnew => rw [hnew]; rfl
  | some p =>
    obtain ⟨hstored, hpid⟩ := prior_eq_some hp
    -- ids are distinct, so the stored row is the only one that can be replaced
    have hprior : ∀ q ∈ st.txns, q.id = g.1 → q = p := fun q hq hqid =>
      hst.row_unique hq (h.reads p hstored) (hqid.trans hpid.symm)
    rw [hp] at hr
    dsimp only at hr
    cases hun : a.unchanged w g with
    | true =>
      rw [hun, if_pos rfl] at hr
      unfold PersistArgs.unchanged at hun
      rw [hp] at hun
      rw [hprior r hr hid, (of_decide_eq_true hun).2]
      rfl
    | false =>
      rw [hun] at hr
      cases hr with
      | inl hold => exact absurd ⟨hid, congrArg TxnRow.startedAt (hprior r hold.1 hid)⟩ hold.2
      | inr hnew => rw [hnew.1]; rfl

/-- **`_persist` keeps the tables.** -/
theorem kept_persist (hw : w.CollisionFree) (hst : st.Kept w) (h : a.Fits st gs) :
    (persist w a st gs).1.Kept w := by
  have hentries := (persist_rest w a st gs).1
  refine ⟨hentries ▸ hst.ids, ?_, ?_, ?_⟩
  · rw [persist_txns]
    refine (nodup_foldl_putRow _ hst.rows (kept_nodup a [] gs) fun g hg hprior hin => ?_).sublist
      (List.filter_sublist.map _)
    exact prior_eq_none.mp hprior (h.fresh g hg hin)
  · intro e he t ht
    rw [hentries] at he
    cases owner_cases hw hst h he ht with
    | inl hkept =>
      obtain ⟨g, hg, rfl, -⟩ := hkept
      exact persist_live_kept h.live hg
    | inr hold =>
      exact persist_live.mpr (.inl ⟨hst.backed e he t hold.1, fun hgone => hold.2.1 (mem_gone.mp hgone).1⟩)
  · intro r hr fp hfp
    -- the row of a kept group has the lines of the group; any other row has the lines it had
    by_cases hk : r.id ∈ (a.kept [] gs).map Prod.fst
    · obtain ⟨g, hg, hid⟩ := List.mem_map.mp hk
      rw [digest_of_kept hst h hg hr hid.symm] at hfp
      cases hfp
      refine members_perm (List.Perm.symm ?_)
      refine linesOf_perm (hentries ▸ hst.ids) ((List.nodup_flatMap.mp h.lines).1 g hg)
        (fun i hi => hentries ▸ h.known g hg i hi) fun e he => ?_
      rw [hentries] at he
      constructor
      · intro hown
        cases owner_cases hw hst h he hown with
        | inl hkept =>
          obtain ⟨g', hg', hid', hi⟩ := hkept
          rw [kept_unique hg hg' (hid.trans hid'.symm)]
          exact hi
        | inr hold => exact absurd hk hold.2.2
      · intro hi
        rw [← hid]
        exact owner_of_kept hw hst h hg hi
    · obtain ⟨hold, hnot⟩ := (mem_persist_of_not_kept hk).mp hr
      rw [hst.digest r hold fp hfp]
      refine members_perm (List.Perm.symm (linesOf_congr hst.ids hentries fun e he => ?_))
      constructor
      · intro hown
        cases owner_cases hw hst h he hown with
        | inl hkept =>
          obtain ⟨g, hg, hid, -⟩ := hkept
          exact absurd (hid ▸ List.mem_map_of_mem hg) hk
        | inr hold' => exact hold'.1
      · intro hown
        exact owner_of_not_stored h hown hnot

end Persist

section Rebuild

variable {w : World Fp} {c : Settings} {st : Store Fp} {floor hi hiP : Instant}

omit [DecidableEq Fp] in
theorem owner_release {o : Owners UUID UUID} {p : UUID → Bool} {i t : UUID} :
    (o.release p).owner i = some t ↔ o.owner i = some t ∧ p t = false := by
  rw [Owners.owner_eq_some, Owners.owner_eq_some]
  constructor
  · intro h
    obtain ⟨n, hn⟩ := h
    obtain ⟨hold, hp⟩ := Owners.release_eq_some.mp hn
    exact ⟨⟨n, hold⟩, hp⟩
  · intro h
    obtain ⟨⟨n, hn⟩, hp⟩ := h
    exact ⟨n, Owners.release_eq_some.mpr ⟨hn, hp⟩⟩

omit [DecidableEq Fp] in
/-- Transactions that are deleted with their assignments leave nothing behind. -/
theorem kept_without (hst : st.Kept w) (ids : List UUID) : (st.without ids).Kept w := by
  have howner : ∀ i t, (st.without ids).assigned.owner i = some t ↔ st.assigned.owner i = some t ∧ t ∉ ids := by
    intro i t
    show (st.assigned.release fun t => decide (t ∈ ids)).owner i = some t ↔ _
    rw [owner_release, decide_eq_false_iff_not]
  refine ⟨hst.ids, hst.rows.sublist (List.filter_sublist.map _), fun e he t ht => ?_, fun r hr fp hfp => ?_⟩
  · obtain ⟨hold, hnot⟩ := (howner e.id t).mp ht
    obtain ⟨r, hr, hid⟩ := hst.backed e he t hold
    exact ⟨r, List.mem_filter.mpr ⟨hr, decide_eq_true (hid ▸ hnot)⟩, hid⟩
  · obtain ⟨hold, hnot⟩ := List.mem_filter.mp hr
    rw [hst.digest r hold fp hfp]
    have hlines : (((st.without ids).linesOf r.id).map (·.id)).Perm ((st.linesOf r.id).map (·.id)) := by
      have hentries : (st.without ids).entries = st.entries := rfl
      refine linesOf_congr hst.ids hentries fun e _ => ?_
      rw [howner]
      exact and_iff_left (of_decide_eq_true hnot)
    exact members_perm hlines.symm

omit [DecidableEq Fp] in
theorem kept_cleared (hst : st.Kept w) (c : Settings) (floor hi : Instant) : (st.cleared c floor hi).Kept w := by
  unfold Store.cleared
  split
  · exact hst
  · exact kept_without hst _

omit [DecidableEq Fp] in
/-- A line of a group that is written was read. -/
theorem read_of_kept (hids : (st.entries.map (·.id)).Nodup) {g : Group}
    (hg : g ∈ (windowArgs w c st floor hi hiP).kept [] (windowGroups w c st floor hi hiP)) {i : UUID}
    (hi' : i ∈ g.ids) :
    ∃ e ∈ st.entries, e.id = i ∧ within floor hiP e.timestamp = true ∧ st.eligible c floor hi hiP e = true := by
  obtain ⟨b, hb, hlines⟩ := mem_assignIds (mem_kept hg).1
  obtain ⟨e, he, hid⟩ := List.mem_map.mp hi'
  rw [hlines] at he
  have hread := mem_of_mem_group (readOrder_nodup hids _) hb ((sortEntries_perm _).mem_iff.mp he)
  obtain ⟨hin, hwin⟩ := List.mem_filter.mp ((readOrder_perm _).mem_iff.mp hread)
  rw [Bool.and_eq_true] at hwin
  exact ⟨e, hin, hid, hwin⟩

/-- A rebuild that fits gives `_persist` what it relies on. -/
theorem windowArgs_fits (hst : st.Kept w) (h : RebuildFits w c st floor hi hiP) :
    (windowArgs w c st floor hi hiP).Fits (st.cleared c floor hi) (windowGroups w c st floor hi hiP) := by
  refine ⟨fun p hp => ?_, h.lines, fun g hg i hin => ?_, fun g hg i hin t ht => ?_, h.fresh⟩
  · cases hk : st.keepsRows c floor hi with
    | true =>
      have hstored : p ∈ st.storedRows c floor hi := hp
      unfold Store.storedRows at hstored
      rw [if_pos hk] at hstored
      rw [cleared_eq hk]
      exact (List.mem_filter.mp hstored).1
    | false =>
      have hnil : (windowArgs w c st floor hi hiP).stored = [] := stored_eq_nil hk
      rw [hnil] at hp
      exact absurd hp List.not_mem_nil
  · obtain ⟨e, he, hid, -⟩ := read_of_kept hst.ids hg hin
    rw [cleared_entries, ← hid]
    exact List.mem_map_of_mem he
  · -- a line that is read is free, or that of a row that is rebuilt
    obtain ⟨e, he, rfl, hwin, heligible⟩ := read_of_kept hst.ids hg hin
    unfold Store.eligible at heligible
    cases hk : st.keepsRows c floor hi with
    | true =>
      rw [cleared_eq hk] at ht
      rw [if_pos hk, owner_in_window he hwin, ht] at heligible
      exact stored_of_freed hk (of_decide_eq_true heligible)
    | false =>
      rw [hk, if_neg Bool.false_ne_true] at heligible
      rw [Owners.owner_eq_none.mpr (Option.isNone_iff_eq_none.mp heligible)] at ht
      cases ht

/-- **A rebuild that fits keeps the tables.** -/
theorem kept_rebuild (hw : w.CollisionFree) (hst : st.Kept w) (h : RebuildFits w c st floor hi hiP) :
    (rebuild w c st floor hi hiP).Kept w := by
  unfold rebuild
  split
  · exact kept_without (kept_cleared hst c floor hi) _
  · exact kept_persist hw (kept_cleared hst c floor hi) (windowArgs_fits hst h)

theorem rebuild_keepsOwned (h : RebuildFits w c st floor hi hiP) : KeepsOwned st (rebuild w c st floor hi hiP) := by
  intro e he ho
  obtain ⟨t, ht⟩ := ho
  rw [rebuild_owned_iff ht]
  by_cases hfreed : t ∈ st.freedIds floor hi
  · exact .inr (h.rehomed e he t hfreed ht.1)
  · exact .inl hfreed

end Rebuild

/-! ## §7. A plan. -/

section Plan

variable {w : World Fp} {c : Settings} {st st' : Store Fp} {lo hi now : Instant}

/-- The digests of a verdict are those of its lines. -/
theorem judge_digest {parked : List OpenStream} {b : TxnBuilder} {v : Verdict Fp}
    (h : judge w c st parked hi b = .ok v) :
    (∀ y ∈ v.continuation?, y.1.membersFp = w.members (y.1.entries.map (·.id))) ∧
      ∀ x ∈ v.creation?, x.membersFp = w.members (x.entries.map (·.id)) := by
  unfold judge at h
  dsimp only at h
  obtain ⟨-, h⟩ := guard_ok h
  obtain ⟨-, h⟩ := guard_ok h
  split at h
  · split at h
    · cases h
    · split at h
      · split at h
        · cases h
          exact ⟨fun y hy => absurd hy (Option.not_mem_none y), fun x hx => absurd hx (Option.not_mem_none x)⟩
        · cases h
          exact ⟨fun y hy => Option.mem_some_iff.mp hy ▸ rfl, fun x hx => absurd hx (Option.not_mem_none x)⟩
      · cases h
  · cases h
    exact ⟨fun y hy => absurd hy (Option.not_mem_none y), fun x hx => Option.mem_some_iff.mp hx ▸ rfl⟩

/-- **The digests of a plan are those of its lines.** -/
theorem buildPlan_digest {plan : ParkingPlan Fp} (h : buildPlan w c st lo hi = .ok plan) :
    (∀ x ∈ plan.writes.continued, x.membersFp = w.members (x.entries.map (·.id))) ∧
      ∀ x ∈ plan.writes.created, x.membersFp = w.members (x.entries.map (·.id)) := by
  obtain ⟨parked, vs, -, -, hall, rfl⟩ := buildPlan_spec h
  constructor
  · intro x hx
    obtain ⟨y, hy, rfl⟩ := List.mem_map.mp hx
    obtain ⟨p, hp, hv⟩ := List.mem_filterMap.mp hy
    exact (judge_digest (hall p hp)).1 y hv
  · intro x hx
    obtain ⟨p, hp, hv⟩ := List.mem_filterMap.mp hx
    exact (judge_digest (hall p hp)).2 x hv

/-- What the continuations leave of the rows. -/
theorem rows_continued {xs : List (Continuation Fp)} (h : xs.foldlM continueOne st = some st') :
    st'.entries = st.entries ∧ st'.txns.map TxnRow.id = st.txns.map TxnRow.id ∧
      ∀ r ∈ st'.txns, (∃ x ∈ xs, r = x.row) ∨
        (r ∈ st.txns ∧ ∀ x ∈ xs, ¬(r.id = x.txnId ∧ r.startedAt = x.startedAt)) := by
  induction xs generalizing st with
  | nil =>
    cases h
    exact ⟨rfl, rfl, fun r hr => .inr ⟨hr, fun x hx => absurd hx List.not_mem_nil⟩⟩
  | cons x xs ih =>
    rw [List.foldlM_cons] at h
    obtain ⟨st₁, hone, hrest⟩ := Option.bind_eq_some_iff.mp h
    -- the digest of the row was the one the plan saw
    have hwritten : st₁ = (st.updateTransaction x.startedAt x.row).writeAssignments x.txnId x.entries := by
      unfold continueOne at hone
      dsimp only at hone
      split at hone
      · cases hone
        rfl
      · cases hone
    obtain ⟨hentries, hids, hrows⟩ := ih hrest
    rw [hwritten] at hentries hids hrows
    refine ⟨hentries, hids.trans ?_, fun r hr => ?_⟩
    · show (st.txns.map fun r => if r.id = x.row.id ∧ r.startedAt = x.startedAt then x.row else r).map TxnRow.id = _
      rw [List.map_map]
      refine List.map_congr_left fun r _ => ?_
      show (if r.id = x.row.id ∧ r.startedAt = x.startedAt then x.row else r).id = r.id
      split
      · next hkey => exact hkey.1.symm
      · rfl
    · cases hrows r hr with
      | inl hnew =>
        obtain ⟨x', hx', heq⟩ := hnew
        exact .inl ⟨x', List.mem_cons_of_mem _ hx', heq⟩
      | inr hold =>
        obtain ⟨q, hq, heq⟩ := List.mem_map.mp hold.1
        by_cases hkey : q.id = x.row.id ∧ q.startedAt = x.startedAt
        · rw [if_pos hkey] at heq
          exact .inl ⟨x, List.mem_cons_self, heq.symm⟩
        · rw [if_neg hkey] at heq
          subst heq
          refine .inr ⟨hq, fun x' hx' => ?_⟩
          cases List.mem_cons.mp hx' with
          | inl hhead => exact hhead ▸ hkey
          | inr htail => exact hold.2 x' htail

omit [DecidableEq Fp] in
/-- What the creations leave of the rows. -/
theorem rows_created (xs : List (Creation Fp)) :
    (xs.foldl (fun st x => st.writeTransaction x.row x.entries) st).entries = st.entries ∧
      (xs.foldl (fun st x => st.writeTransaction x.row x.entries) st).txns = st.txns ++ xs.map Creation.row := by
  induction xs generalizing st with
  | nil => exact ⟨rfl, (List.append_nil _).symm⟩
  | cons x xs ih =>
    obtain ⟨hentries, hrows⟩ := @ih (st.writeTransaction x.row x.entries)
    refine ⟨hentries, hrows.trans ?_⟩
    show (st.txns ++ [x.row]) ++ xs.map Creation.row = st.txns ++ (x :: xs).map Creation.row
    rw [List.append_assoc]
    rfl

/-- **What a plan leaves of the rows**: its own, and those it does not continue. -/
theorem rows_applyPlan {p : HeadPlan Fp} {done : Committed Fp} (h : applyPlan now st p = some done) :
    done.store.entries = st.entries ∧
      done.store.txns.map TxnRow.id = st.txns.map TxnRow.id ++ p.created.map Creation.txnId ∧
      ∀ r ∈ done.store.txns, (∃ x ∈ p.continued, r = x.row) ∨ (∃ x ∈ p.created, r = x.row) ∨
        (r ∈ st.txns ∧ ∀ x ∈ p.continued, ¬(r.id = x.txnId ∧ r.startedAt = x.startedAt)) := by
  obtain ⟨st₁, hcont, hrest⟩ := Option.bind_eq_some_iff.mp h
  obtain ⟨least, -, hdone⟩ := Option.bind_eq_some_iff.mp hrest
  cases hdone
  obtain ⟨hentries, hids, hrows⟩ := rows_continued hcont
  obtain ⟨hentries', hrows'⟩ := @rows_created _ st₁ p.created
  refine ⟨hentries'.trans hentries, ?_, fun r hr => ?_⟩
  · show (p.created.foldl (fun st x => st.writeTransaction x.row x.entries) st₁).txns.map TxnRow.id = _
    rw [hrows', List.map_append, hids, List.map_map]
    rfl
  · have hin : r ∈ st₁.txns ++ p.created.map Creation.row := hrows' ▸ hr
    cases List.mem_append.mp hin with
    | inl hold =>
      cases hrows r hold with
      | inl hnew => exact .inl hnew
      | inr hkept => exact .inr (.inr hkept)
    | inr hnew =>
      obtain ⟨x, hx, heq⟩ := List.mem_map.mp hnew
      exact .inr (.inl ⟨x, hx, heq.symm⟩)

end Plan

/-! ## §8. A plan that fits. -/

section Applied

variable {w : World Fp} {st : Store Fp} {p : HeadPlan Fp} {now : Instant} {done : Committed Fp}

omit [DecidableEq Fp] in
/-- Every write of a plan claims its lines and lets none go. -/
theorem fresh_assigns {a : Write UUID UUID} (ha : a ∈ p.assigns) : a.fresh = true := by
  unfold HeadPlan.assigns at ha
  cases List.mem_append.mp ha with
  | inl hcont =>
    obtain ⟨x, -, rfl⟩ := List.mem_map.mp hcont
    rfl
  | inr hcreate =>
    obtain ⟨x, -, rfl⟩ := List.mem_map.mp hcreate
    rfl

omit [DecidableEq Fp] in
theorem assigns_continued {x : Continuation Fp} (hx : x ∈ p.continued) :
    ⟨x.txnId, x.entries.map (·.id), true⟩ ∈ p.assigns :=
  List.mem_append_left _ (List.mem_map_of_mem hx)

omit [DecidableEq Fp] in
theorem assigns_created {x : Creation Fp} (hx : x ∈ p.created) :
    ⟨x.txnId, x.entries.map (·.id), true⟩ ∈ p.assigns :=
  List.mem_append_right _ (List.mem_map_of_mem hx)

omit [DecidableEq Fp] in
/-- Writes of a plan that share a line are one. -/
theorem PlanFits.shared (h : PlanFits st p) {a a' : Write UUID UUID} (ha : a ∈ p.assigns) (ha' : a' ∈ p.assigns)
    {i : UUID} (hi : i ∈ a.items) (hi' : i ∈ a'.items) : a = a' := part_unique h.lines ha ha' hi hi'

omit [DecidableEq Fp] in
theorem PlanFits.owner_unique (h : PlanFits st p) {a a' : Write UUID UUID} (ha : a ∈ p.assigns)
    (ha' : a' ∈ p.assigns) (heq : a.owner = a'.owner) : a = a' := List.inj_on_of_nodup_map h.owners ha ha' heq

/-- The lines of the plan are those of its transactions. -/
theorem owner_of_assigned (hfits : PlanFits st p) (hdone : applyPlan now st p = some done) {a : Write UUID UUID}
    (ha : a ∈ p.assigns) {i : UUID} (hi : i ∈ a.items) : done.store.assigned.owner i = some a.owner := by
  rw [assigned_applyPlan hdone]
  refine Owners.owner_writeAll_fresh (fun _ => fresh_assigns) (fun a' ha' hi' => ?_) (.inr ⟨a, ha, hi⟩)
  rw [hfits.shared ha' ha hi' hi]

/-- The other lines keep their owner. -/
theorem owner_of_unassigned (hdone : applyPlan now st p = some done) {i : UUID}
    (hi : ∀ a ∈ p.assigns, i ∉ a.items) : done.store.assigned.owner i = st.assigned.owner i := by
  rw [assigned_applyPlan hdone, Owners.owner, Owners.owner, Owners.writeAll_unclaimed _ hi]
  rw [Owners.release_of_not fun t _ => ?_]
  rw [Bool.eq_false_iff, Ne, Owners.releasedBy_eq_true]
  intro hreleased
  obtain ⟨a, ha, hfresh, -⟩ := hreleased
  rw [fresh_assigns ha] at hfresh
  cases hfresh

/-- **Who owns a line once the plan is applied.** -/
theorem owner_applied (hfits : PlanFits st p) (hdone : applyPlan now st p = some done) {i t : UUID}
    (ht : done.store.assigned.owner i = some t) :
    (∃ a ∈ p.assigns, i ∈ a.items ∧ a.owner = t) ∨
      ((∀ a ∈ p.assigns, i ∉ a.items) ∧ st.assigned.owner i = some t) := by
  by_cases hin : ∃ a ∈ p.assigns, i ∈ a.items
  · obtain ⟨a, ha, hi⟩ := hin
    rw [owner_of_assigned hfits hdone ha hi] at ht
    exact .inl ⟨a, ha, hi, Option.some.inj ht⟩
  · have hno : ∀ a ∈ p.assigns, i ∉ a.items := fun a ha hi => hin ⟨a, ha, hi⟩
    rw [owner_of_unassigned hdone hno] at ht
    exact .inr ⟨hno, ht⟩

/-- The transaction of a write has a row once the plan is applied. -/
theorem live_of_assigned (hfits : PlanFits st p) (hdone : applyPlan now st p = some done) {a : Write UUID UUID}
    (ha : a ∈ p.assigns) : done.store.Live a.owner := by
  rw [Store.live_iff, (rows_applyPlan hdone).2.1, List.mem_append]
  unfold HeadPlan.assigns at ha
  cases List.mem_append.mp ha with
  | inl hcont =>
    obtain ⟨x, hx, rfl⟩ := List.mem_map.mp hcont
    obtain ⟨r, hr, hid, -⟩ := hfits.row x hx
    exact .inl (hid ▸ List.mem_map_of_mem hr)
  | inr hcreate =>
    obtain ⟨x, hx, rfl⟩ := List.mem_map.mp hcreate
    exact .inr (List.mem_map_of_mem hx)

omit [DecidableEq Fp] in
/-- A line of the transaction of a write is a line of the write. -/
theorem lines_of_write (hst : st.Kept w) (hfits : PlanFits st p) {a : Write UUID UUID} (ha : a ∈ p.assigns)
    {e : LogEntry} (he : e ∈ st.entries) (hown : st.assigned.owner e.id = some a.owner) : e.id ∈ a.items := by
  unfold HeadPlan.assigns at ha
  cases List.mem_append.mp ha with
  | inl hcont =>
    obtain ⟨x, hx, rfl⟩ := List.mem_map.mp hcont
    exact hfits.whole x hx e (mem_linesOf.mpr ⟨he, hown⟩)
  | inr hcreate =>
    obtain ⟨x, hx, rfl⟩ := List.mem_map.mp hcreate
    exact absurd (Store.live_iff.mp (hst.backed e he _ hown)) (hfits.fresh x hx)

/-- The lines of the transaction of a write are those of the write. -/
theorem linesOf_write (hst : st.Kept w) (hfits : PlanFits st p) (hdone : applyPlan now st p = some done)
    {a : Write UUID UUID} (ha : a ∈ p.assigns) :
    ((done.store.linesOf a.owner).map (·.id)).Perm a.items := by
  have hentries := (rows_applyPlan hdone).1
  refine linesOf_perm (hentries ▸ hst.ids) ((List.nodup_flatMap.mp hfits.lines).1 a ha)
    (fun i hi => hentries ▸ hfits.stored a ha i hi) fun e he => ?_
  rw [hentries] at he
  constructor
  · intro hown
    cases owner_applied hfits hdone hown with
    | inl hnew =>
      obtain ⟨a', ha', hi, heq⟩ := hnew
      exact hfits.owner_unique ha' ha heq ▸ hi
    | inr hold => exact lines_of_write hst hfits ha he hold.2
  · exact owner_of_assigned hfits hdone ha

/-- **A plan that fits keeps the tables.** -/
theorem kept_applyPlan (hst : st.Kept w) (hfits : PlanFits st p)
    (hcontinued : ∀ x ∈ p.continued, x.membersFp = w.members (x.entries.map (·.id)))
    (hcreated : ∀ x ∈ p.created, x.membersFp = w.members (x.entries.map (·.id)))
    (hdone : applyPlan now st p = some done) : done.store.Kept w := by
  obtain ⟨hentries, hids, hrows⟩ := rows_applyPlan hdone
  refine ⟨hentries ▸ hst.ids, ?_, fun e he t ht => ?_, fun r hr fp hfp => ?_⟩
  · rw [hids, List.nodup_append]
    refine ⟨hst.rows, ?_, fun i hi j hj heq => ?_⟩
    · have howners := hfits.owners
      unfold HeadPlan.assigns at howners
      rw [List.map_append] at howners
      have hcreated := howners.of_append_right
      rw [List.map_map] at hcreated
      exact hcreated
    · obtain ⟨x, hx, hid⟩ := List.mem_map.mp hj
      exact hfits.fresh x hx (hid ▸ heq ▸ hi)
  · rw [hentries] at he
    cases owner_applied hfits hdone ht with
    | inl hnew =>
      obtain ⟨a, ha, -, rfl⟩ := hnew
      exact live_of_assigned hfits hdone ha
    | inr hold =>
      rw [Store.live_iff, hids]
      exact List.mem_append_left _ (Store.live_iff.mp (hst.backed e he t hold.2))
  · cases hrows r hr with
    | inl hcont =>
      obtain ⟨x, hx, rfl⟩ := hcont
      cases hfp
      rw [hcontinued x hx]
      exact members_perm (linesOf_write hst hfits hdone (assigns_continued hx)).symm
    | inr hrest =>
      cases hrest with
      | inl hnew =>
        obtain ⟨x, hx, rfl⟩ := hnew
        cases hfp
        rw [hcreated x hx]
        exact members_perm (linesOf_write hst hfits hdone (assigns_created hx)).symm
      | inr hold =>
        -- the row is that of no write, so no write has one of its lines
        have hother : ∀ a ∈ p.assigns, a.owner ≠ r.id := by
          intro a ha heq
          unfold HeadPlan.assigns at ha
          cases List.mem_append.mp ha with
          | inl hcont =>
            obtain ⟨x, hx, rfl⟩ := List.mem_map.mp hcont
            obtain ⟨q, hq, hid, hstart⟩ := hfits.row x hx
            have hsame : q = r := hst.row_unique hq hold.1 (hid.trans heq)
            exact hold.2 x hx ⟨heq.symm, hsame ▸ hstart⟩
          | inr hcreate =>
            obtain ⟨x, hx, rfl⟩ := List.mem_map.mp hcreate
            have hid : x.txnId = r.id := heq
            exact hfits.fresh x hx (hid ▸ List.mem_map_of_mem hold.1)
        rw [hst.digest r hold.1 fp hfp]
        refine members_perm (List.Perm.symm (linesOf_congr hst.ids hentries fun e _ => ?_))
        constructor
        · intro hown
          cases owner_applied hfits hdone hown with
          | inl hnew =>
            obtain ⟨a, ha, -, heq⟩ := hnew
            exact absurd heq (hother a ha)
          | inr hkept => exact hkept.2
        · intro hown
          rw [owner_of_unassigned hdone fun a ha hi => ?_]
          · exact hown
          · exact hother a ha (hfits.free a ha _ hi _ hown).symm

/-- A plan that fits leaves every owned line with an owner. -/
theorem applyPlan_keepsOwned (hfits : PlanFits st p) (hdone : applyPlan now st p = some done) :
    KeepsOwned st done.store := by
  intro e he ho
  obtain ⟨t, ht⟩ := ho
  by_cases hin : ∃ a ∈ p.assigns, e.id ∈ a.items
  · obtain ⟨a, ha, hi⟩ := hin
    exact ⟨a.owner, owner_of_assigned hfits hdone ha hi, live_of_assigned hfits hdone ha⟩
  · have hno : ∀ a ∈ p.assigns, e.id ∉ a.items := fun a ha hi => hin ⟨a, ha, hi⟩
    refine ⟨t, (owner_of_unassigned hdone hno).trans ht.1, ?_⟩
    rw [Store.live_iff, (rows_applyPlan hdone).2.1]
    exact List.mem_append_left _ (Store.live_iff.mp ht.2)

end Applied

/-! ## §9. Whole runs. -/

section Runs

variable {w : World Fp} {c : Settings} {s s' : Tenant Fp} {ev : Event}

omit [DecidableEq Fp] in
/-- Lines that nobody owns yet change nothing. -/
theorem kept_arrive {st : Store Fp} (hst : st.Kept w) {es : List LogEntry}
    (hids : ((st.entries ++ es).map (·.id)).Nodup) (hfree : ∀ e ∈ es, st.assigned.owner e.id = none) :
    ({ st with entries := st.entries ++ es } : Store Fp).Kept w := by
  have hlines : ∀ t, ({ st with entries := st.entries ++ es } : Store Fp).linesOf t = st.linesOf t := by
    intro t
    have hnone : es.filter (fun e => decide (st.assigned.owner e.id = some t)) = [] := by
      refine List.filter_eq_nil_iff.mpr fun e he hown => ?_
      rw [hfree e he] at hown
      cases of_decide_eq_true hown
    unfold Store.linesOf
    rw [List.filter_append, hnone, List.append_nil]
  refine ⟨hids, hst.rows, fun e he t ht => ?_, fun r hr fp hfp => ?_⟩
  · cases List.mem_append.mp he with
    | inl hold => exact hst.backed e hold t ht
    | inr hnew =>
      have hown : st.assigned.owner e.id = some t := ht
      rw [hfree e hnew] at hown
      cases hown
  · rw [hlines]
    exact hst.digest r hr fp hfp

omit [DecidableEq Fp] in
/-- The streams, the pending requests and the bookmark assign nothing. -/
theorem kept_rest {st st' : Store Fp} (hst : st.Kept w) (hentries : st'.entries = st.entries)
    (hassigned : st'.assigned = st.assigned) (htxns : st'.txns = st.txns) : st'.Kept w := by
  cases st
  cases st'
  cases hentries
  cases hassigned
  cases htxns
  exact ⟨hst.ids, hst.rows, hst.backed, hst.digest⟩

omit [DecidableEq Fp] in
/-- A save writes the open streams and the pending requests. -/
theorem rest_saveStreams {st st' : Store Fp} {p : Parked} {touched : Option (List UUID)} {consumed : List UUID}
    (h : st.saveStreams p touched consumed = some st') :
    st'.entries = st.entries ∧ st'.assigned = st.assigned ∧ st'.txns = st.txns := by
  obtain ⟨t, -, rfl⟩ := Option.map_eq_some_iff.mp h
  exact ⟨rfl, rfl, rfl⟩

/-- **What a rebuild commits**, but for the streams. -/
theorem rest_regroupSaved {st st' : Store Fp} {lo hi : Instant} (h : regroupSaved w c st lo hi = some st') :
    ∃ floor, crossPadFloor c st (lo - c.pad) (hi + c.pad) = some floor ∧
      st'.entries = (rebuild w c st floor hi (hi + c.pad)).entries ∧
      st'.assigned = (rebuild w c st floor hi (hi + c.pad)).assigned ∧
      st'.txns = (rebuild w c st floor hi (hi + c.pad)).txns := by
  obtain ⟨floor, hfloor, h⟩ := Option.bind_eq_some_iff.mp h
  obtain ⟨done, hdone, h⟩ := Option.bind_eq_some_iff.mp h
  unfold regroupWindow at hdone
  rw [hfloor] at hdone
  cases hdone
  refine ⟨floor, hfloor, ?_⟩
  split at h
  · cases h
    exact ⟨rfl, rfl, rfl⟩
  · exact rest_saveStreams h

omit [DecidableEq Fp] in
theorem keepsOwned_same {st st' : Store Fp} (hassigned : st'.assigned = st.assigned) (htxns : st'.txns = st.txns) :
    KeepsOwned st st' := by
  intro e _ ho
  obtain ⟨t, hown, hlive⟩ := ho
  refine ⟨t, hassigned ▸ hown, ?_⟩
  unfold Store.Live
  rw [htxns]
  exact hlive

omit [DecidableEq Fp] in
theorem KeepsOwned.of_same {st st₁ st' : Store Fp} (h : KeepsOwned st st₁) (hassigned : st'.assigned = st₁.assigned)
    (htxns : st'.txns = st₁.txns) : KeepsOwned st st' := by
  intro e he ho
  obtain ⟨t, hown, r, hr, hid⟩ := h e he ho
  exact ⟨t, hassigned ▸ hown, r, htxns ▸ hr, hid⟩

/-- **One step that fits**: the tables are kept, and so are the plans in flight. -/
theorem kept_step (hw : w.CollisionFree) (hs : s.Kept w) (hfits : Fits w c s ev) (hstep : s' ∈ step w c s ev) :
    s'.Kept w ∧ KeepsOwned s.store s'.store := by
  cases ev with
  | plan lo hi =>
    unfold step at hstep
    dsimp only at hstep
    split at hstep
    · next plan hplan =>
      cases hstep
      -- a plan is read-only: the tables are as they were, and its digests are those of its lines
      obtain ⟨hcont, hcreate⟩ := buildPlan_digest hplan
      refine ⟨⟨hs.store, fun p hp => ?_, fun p hp => ?_⟩, keepsOwned_same rfl rfl⟩
      · cases List.mem_append.mp hp with
        | inl hold => exact hs.continued p hold
        | inr hnew => exact List.mem_singleton.mp hnew ▸ hcont
      · cases List.mem_append.mp hp with
        | inl hold => exact hs.created p hold
        | inr hnew => exact List.mem_singleton.mp hnew ▸ hcreate
    · cases hstep
  | apply flight now =>
    obtain ⟨plan, hplan, hcommit⟩ := Option.bind_eq_some_iff.mp hstep
    obtain ⟨st, hst, rfl⟩ := Option.map_eq_some_iff.mp hcommit
    obtain ⟨done, hdone, hsaved⟩ := Option.bind_eq_some_iff.mp hst
    obtain ⟨hentries, hassigned, htxns⟩ := rest_saveStreams hsaved
    have hin : plan ∈ s.flights := List.mem_of_getElem? hplan
    -- the plan was made on an older state; what it relies on is asked of this one
    have hfit := hfits plan hplan
    have hkept := kept_applyPlan hs.store hfit (hs.continued plan hin) (hs.created plan hin) hdone
    have hrest : ∀ p ∈ s.flights.eraseIdx flight, p ∈ s.flights := fun p hp =>
      (List.eraseIdx_sublist s.flights flight).subset hp
    exact ⟨⟨kept_rest hkept hentries hassigned htxns, fun p hp => hs.continued p (hrest p hp),
      fun p hp => hs.created p (hrest p hp)⟩, (applyPlan_keepsOwned hfit hdone).of_same hassigned htxns⟩
  | rebuild lo hi =>
    obtain ⟨st, hst, rfl⟩ := Option.map_eq_some_iff.mp hstep
    obtain ⟨floor, hfloor, hentries, hassigned, htxns⟩ := rest_regroupSaved hst
    have hfit := hfits floor hfloor
    exact ⟨⟨kept_rest (kept_rebuild hw hs.store hfit) hentries hassigned htxns, hs.continued, hs.created⟩,
      (rebuild_keepsOwned hfit).of_same hassigned htxns⟩
  | arrive es =>
    cases hstep
    exact ⟨⟨kept_arrive hs.store hfits.1 hfits.2, hs.continued, hs.created⟩, keepsOwned_same rfl rfl⟩
  | advance hi =>
    cases hstep
    exact ⟨⟨kept_rest hs.store rfl rfl rfl, hs.continued, hs.created⟩, keepsOwned_same rfl rfl⟩

/-- **Every run whose steps fit.** -/
theorem safe_of_kept (hw : w.CollisionFree) (evs : List Event) (hs : s.Kept w) (hfit : FitRun w c s evs) :
    SafeRun w c s evs := by
  induction evs generalizing s with
  | nil => exact hs.store.consistent
  | cons ev evs ih =>
    refine ⟨hs.store.consistent, fun s' hstep => ?_⟩
    obtain ⟨hkept, howned⟩ := kept_step hw hs hfit.1 hstep
    exact ⟨howned, ih hkept (hfit.2 s' hstep)⟩

/-- **The two lanes in any order**: from tables that are kept and no plan in flight, a run whose steps fit is
    safe. -/
theorem fit_run_safe (hw : w.CollisionFree) {st : Store Fp} (hst : st.Kept w) {evs : List Event}
    (hfit : FitRun w c ⟨st, []⟩ evs) : SafeRun w c ⟨st, []⟩ evs :=
  safe_of_kept hw evs ⟨hst, fun _ hp => absurd hp List.not_mem_nil, fun _ hp => absurd hp List.not_mem_nil⟩ hfit

end Runs

/-! ## §10. A stale creation. -/

section Decide

variable {w : World Fp} {c : Settings}

instance {st : Store Fp} {p : HeadPlan Fp} : Decidable (PlanFits st p) :=
  decidable_of_iff
    ((p.assigns.map Write.owner).Nodup ∧ (p.assigns.flatMap Write.items).Nodup ∧
      (∀ a ∈ p.assigns, ∀ i ∈ a.items, i ∈ st.entries.map (·.id)) ∧
      (∀ a ∈ p.assigns, ∀ i ∈ a.items, ∀ t ∈ st.assigned.owner i, t = a.owner) ∧
      (∀ x ∈ p.continued, ∃ r ∈ st.txns, r.id = x.txnId ∧ r.startedAt = x.startedAt) ∧
      (∀ x ∈ p.continued, ∀ e ∈ st.linesOf x.txnId, e.id ∈ x.entries.map (·.id)) ∧
      ∀ x ∈ p.created, x.txnId ∉ st.txns.map TxnRow.id)
    ⟨fun ⟨a, b, c, d, e, f, g⟩ => ⟨a, b, c, d, e, f, g⟩, fun ⟨a, b, c, d, e, f, g⟩ => ⟨a, b, c, d, e, f, g⟩⟩

instance {st : Store Fp} {floor hi hiP : Instant} {t : UUID} {e : LogEntry} :
    Decidable (Rehomed w c st floor hi hiP t e) := by
  unfold Rehomed
  infer_instance

instance {st : Store Fp} {floor hi hiP : Instant} : Decidable (RebuildFits w c st floor hi hiP) :=
  decidable_of_iff
    ((((windowArgs w c st floor hi hiP).kept [] (windowGroups w c st floor hi hiP)).flatMap Group.ids).Nodup ∧
      (∀ g ∈ (windowArgs w c st floor hi hiP).kept [] (windowGroups w c st floor hi hiP),
        g.1 ∈ (st.cleared c floor hi).txns.map TxnRow.id → g.1 ∈ (st.storedRows c floor hi).map TxnRow.id) ∧
      ∀ e ∈ st.entries, ∀ t ∈ st.freedIds floor hi, st.assigned.owner e.id = some t →
        Rehomed w c st floor hi hiP t e)
    ⟨fun ⟨a, b, c⟩ => ⟨a, b, c⟩, fun ⟨a, b, c⟩ => ⟨a, b, c⟩⟩

instance {s : Tenant Fp} (ev : Event) : Decidable (Fits w c s ev) := by
  cases ev with
  | plan lo hi => exact isTrue trivial
  | apply flight now => exact Option.decidableForallMem _
  | rebuild lo hi => exact Option.decidableForallMem _
  | arrive es => exact instDecidableAnd
  | advance hi => exact isTrue trivial

/-- Whether every step fits can be run. -/
def decFitRun : (evs : List Event) → (s : Tenant Fp) → Decidable (FitRun w c s evs)
  | [], _ => isTrue trivial
  | ev :: evs, s =>
      have : DecidablePred fun s' => FitRun w c s' evs := decFitRun evs
      @instDecidableAnd (Fits w c s ev) (∀ s' ∈ step w c s ev, FitRun w c s' evs) inferInstance
        (Option.decidableForallMem _)

instance {s : Tenant Fp} {evs : List Event} : Decidable (FitRun w c s evs) := decFitRun evs s

end Decide

/-- A request and a call of one conversation, neither assigned yet. -/
def twoLines : Store Payload where
  entries := [stampedOf 1 .request 1, { stampedOf 2 .miCall 2 with lineNumber := some 10 }]
  checkpoint := some 0

/-- The second line is planned, a rebuild puts both into one transaction, and the plan is applied. -/
def staleRun : List Event := [.plan 2 10, .rebuild 0 10, .apply 0 20]

theorem kept_twoLines : twoLines.Kept payloadWorld where
  ids := by decide
  rows := List.nodup_nil
  backed _ _ _ ht := by cases ht
  digest _ hr := absurd hr List.not_mem_nil

/-- The ids a members digest is made of. -/
def Payload.ids : Payload → List UUID
  | .members ids => ids
  | .row _ _ _ _ => []

open Classical in
/-- The tables a run ends with. -/
noncomputable def runTo (w : World Payload) (s : Tenant Payload) (evs : List Event) : Option (Tenant Payload) :=
  evs.foldlM (step w {}) s

open Classical in
theorem consistent_runTo {w : World Payload} {s s' : Tenant Payload} {evs : List Event}
    (h : SafeRun w {} s evs) (hrun : runTo w s evs = some s') : s'.store.Consistent w := by
  induction evs generalizing s with
  | nil =>
    cases hrun
    exact h
  | cons ev evs ih =>
    obtain ⟨s₁, hstep, hrest⟩ := Option.bind_eq_some_iff.mp hrun
    exact ih (h.2 s₁ hstep).2 hrest

open Classical in
/-- The row of the rebuild keeps the digest of both lines, and has one. -/
theorem staleCreation_unsafe : ¬∀ (w : World Payload) (st : Store Payload) (evs : List Event),
    w.CollisionFree → st.Kept w → SafeRun w {} ⟨st, []⟩ evs := by
  intro h
  have hsafe := h payloadWorld twoLines staleRun (fun _ _ h => h) kept_twoLines
  have hlost : (runTo payloadWorld ⟨twoLines, []⟩ staleRun).map (fun s => s.store.txns.all fun r =>
      r.membersFingerprint.all fun fp => decide (fp.ids = sortedIds ((s.store.linesOf r.id).map (·.id)))) =
        some false := by
    decide +kernel
  obtain ⟨s, hrun, hfalse⟩ := Option.map_eq_some_iff.mp hlost
  have hdigest := (consistent_runTo hsafe hrun).digest
  have htrue : (s.store.txns.all fun r => r.membersFingerprint.all fun fp =>
      decide (fp.ids = sortedIds ((s.store.linesOf r.id).map (·.id)))) = true := by
    refine List.all_eq_true.mpr fun r hr => (Option.all_eq_true _ _).mpr fun fp hfp => decide_eq_true ?_
    rw [hdigest r hr fp hfp]
    rfl
  rw [htrue] at hfalse
  cases hfalse

-- the transaction of the rebuild is left with line 1, that of the plan has line 2
open Classical in
example : ((runTo payloadWorld ⟨twoLines, []⟩ staleRun).map fun s =>
    s.store.txns.map fun r => (r.membersFingerprint.map Payload.ids, (s.store.linesOf r.id).map (·.id))) =
      some [(some [1, 2], [1]), (some [2], [2])] := by
  decide +kernel

/-- A line of another hour. -/
def farLine : LogEntry := { stampedOf 3 .request (3600 * second) with lineNumber := some 100 }

/-- The two lines and the one of another hour. -/
def threeLines : Store Payload := { twoLines with entries := twoLines.entries ++ [farLine] }

theorem kept_threeLines : threeLines.Kept payloadWorld where
  ids := by decide
  rows := List.nodup_nil
  backed _ _ _ ht := by cases ht
  digest _ hr := absurd hr List.not_mem_nil

open Classical in
/-- The line of another hour is stitched between the plan of the two and its application. -/
theorem fit_run_safe_far : SafeRun payloadWorld {} ⟨threeLines, []⟩
    [.plan 0 10, .rebuild (3600 * second) (3600 * second), .apply 0 20, .advance 10] :=
  fit_run_safe (fun _ _ h => h) kept_threeLines (by decide +kernel)

end RagPipeline.Stage2
