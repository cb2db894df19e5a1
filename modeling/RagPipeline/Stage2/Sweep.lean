/-
  RagPipeline.Stage2.Sweep — what a sweep does, as one step.

  `evict_stale` closes slots one by one, forgets the ids of each builder it closes, then sweeps the
  ids that are left, then the pending requests.  Seen from outside it is one filter: every index
  keeps the builders heard from since the horizon (`Swept`).  Two sweeps in a row are the later one
  (`Swept.trans`), which is why it does not matter WHOSE clock drives them.
-/
import RagPipeline.Stage2.GrouperInvariant

namespace RagPipeline.Stage2

open RagPipeline.Lib

namespace GroupState

variable {ι : Type} [DecidableEq ι]

/-! ## §1. The specification. -/

/-- The builder in a slot was last heard from before the horizon. -/
def staleKey (s : GroupState ι) (horizon : Instant) (k : StreamKey ι) : Bool :=
  match s.openByKey.get? k with
  | some r => s.stale horizon r
  | none => false

/-- `s'` is `s` without what was last heard from before the horizon. -/
structure Swept (horizon : Instant) (s s' : GroupState ι) : Prop where
  heap : s'.heap = s.heap
  slots : s'.openByKey = s.openByKey.filterItems (fun p => !s.stale horizon p.2)
  current : s'.currentByThread = s.currentByThread.filterItems
    (fun p => !(decide (p.2.threadKey = p.1) && s.staleKey horizon p.2))
  ids : s'.openByReqid = s.openByReqid.filterItems (fun p => !s.stale horizon p.2)
  closed : s'.recentlyClosed = s.recentlyClosed
  pending : s'.pendingReqs = s.pendingReqs.filter (fun r => !olderThan horizon r.timestamp)
  out : ∀ r, r ∈ s'.outRefs ↔ r ∈ s.outRefs ∨
    (s.stale horizon r = true
      ∧ ((∃ k, (k, r) ∈ s.openByKey.items) ∨ ∃ k, (k, r) ∈ s.openByReqid.items))
  lones : ∀ e, e ∈ s'.lones ↔ e ∈ s.lones ∨
    (e ∈ s.pendingReqs ∧ olderThan horizon e.timestamp = true)

theorem Swept.builder {horizon : Instant} {s s' : GroupState ι} (h : Swept horizon s s')
    (r : BuilderRef ι) : s'.builder r = s.builder r := by
  unfold GroupState.builder
  rw [h.heap]

theorem Swept.stale {horizon : Instant} {s s' : GroupState ι} (h : Swept horizon s s')
    (horizon' : Instant) (r : BuilderRef ι) : s'.stale horizon' r = s.stale horizon' r := by
  unfold GroupState.stale
  rw [h.builder]

/-! ## §2. Closing a list of slots, and popping a list of ids. -/

/-- What closing one held slot leaves of the current streams. -/
theorem closeInto_current {s : GroupState ι} {k : StreamKey ι} {r : BuilderRef ι}
    (hr : s.openByKey.get? k = some r) :
    (s.closeInto k).currentByThread = s.currentByThread.filterItems
      (fun p => !(decide (p.2.threadKey = p.1) && decide (p.2 = k))) := by
  rw [closeInto_of_get? s k r hr]
  show (s.releaseSlot k).currentByThread = _
  unfold releaseSlot dropCurrent
  split
  · rename_i hcur
    have hm := OrderedDict.get?_eq_some.mp hcur
    refine OrderedDict.ext_items (List.filter_congr (fun p hp => ?_))
    -- the one item under the thread of `k` is the one that points at `k`
    by_cases hp1 : p.1 = k.threadKey
    · have hp2 : p.2 = k := by
        obtain ⟨t, k'⟩ := p
        have ht : t = k.threadKey := hp1
        subst ht
        exact OrderedDict.mem_unique _ hp hm
      simp [hp1, hp2]
    · have hn : ¬ (p.2.threadKey = p.1 ∧ p.2 = k) := fun h => hp1 (h.2 ▸ h.1.symm)
      rw [← Bool.decide_and, decide_eq_false hn]
      simpa using hp1
  · rename_i hcur
    refine OrderedDict.ext_items (List.filter_eq_self.mpr (fun p hp => ?_)).symm
    have hn : ¬ (p.2.threadKey = p.1 ∧ p.2 = k) := by
      rintro ⟨h1, h2⟩
      refine hcur (OrderedDict.get?_eq_some.mpr ?_)
      show (k.threadKey, k) ∈ s.currentByThread.items
      rw [← h2, h1]
      exact hp
    rw [← Bool.decide_and, decide_eq_false hn]
    rfl

/-- What closing a list of held slots leaves. -/
theorem foldl_closeInto (ks : List (StreamKey ι)) (hks : ks.Nodup) (s : GroupState ι)
    (hheld : ∀ k ∈ ks, k ∈ s.openByKey.keys) :
    (ks.foldl closeInto s).openByKey = s.openByKey.filterItems (fun p => decide (p.1 ∉ ks))
      ∧ (ks.foldl closeInto s).currentByThread = s.currentByThread.filterItems
          (fun p => !(decide (p.2.threadKey = p.1) && decide (p.2 ∈ ks)))
      ∧ (ks.foldl closeInto s).openByReqid = s.openByReqid.filterItems
          (fun p => decide (∀ k ∈ ks, s.openByKey.get? k ≠ some p.2))
      ∧ (ks.foldl closeInto s).recentlyClosed = s.recentlyClosed
      ∧ (ks.foldl closeInto s).pendingReqs = s.pendingReqs
      ∧ (ks.foldl closeInto s).lones = s.lones
      ∧ ∀ r, r ∈ (ks.foldl closeInto s).outRefs ↔
          r ∈ s.outRefs ∨ ∃ k ∈ ks, s.openByKey.get? k = some r := by
  induction ks generalizing s with
  | nil =>
      refine ⟨?_, ?_, ?_, rfl, rfl, rfl, fun r => by simp⟩ <;>
        exact OrderedDict.ext_items (by simp)
  | cons k ks ih =>
      obtain ⟨hk, hnd⟩ := List.nodup_cons.mp hks
      obtain ⟨r, hr⟩ := OrderedDict.get?_of_mem_keys (hheld k List.mem_cons_self)
      -- the keys are distinct: closing one leaves what the others stand for
      have hne : ∀ k' ∈ ks, k' ≠ k := fun k' hk' he => hk (he ▸ hk')
      have hget : ∀ k' ∈ ks, (s.closeInto k).openByKey.get? k' = s.openByKey.get? k' := by
        intro k' hk'
        rw [closeInto_openByKey]
        exact OrderedDict.get?_erase_ne _ (hne k' hk')
      have hheld' : ∀ k' ∈ ks, k' ∈ (s.closeInto k).openByKey.keys := by
        intro k' hk'
        rw [closeInto_openByKey, OrderedDict.mem_keys_erase_of_ne _ (hne k' hk')]
        exact hheld k' (List.mem_cons_of_mem _ hk')
      -- what the first close does, composed table by table with what the rest do
      obtain ⟨h1, h2, h3, h4, h5, h6, h7⟩ := ih hnd (s.closeInto k) hheld'
      rw [List.foldl_cons]
      refine ⟨?_, ?_, ?_, ?_, ?_, ?_, ?_⟩
      · rw [h1, closeInto_openByKey, OrderedDict.filterItems_erase_cons]
      · rw [h2, closeInto_current hr]
        refine OrderedDict.filterItems_filterItems _ (fun p => ?_)
        simp only [List.mem_cons, Bool.decide_or]
        cases decide (p.2.threadKey = p.1) with
        | false => rfl
        | true => rw [Bool.true_and, Bool.true_and, Bool.true_and, Bool.not_or, Bool.and_comm]
      · have hids : (s.closeInto k).openByReqid
            = s.openByReqid.filterItems (fun p => decide (p.2 ≠ r)) := by
          rw [closeInto_of_get? s k r hr]
          simp [giveBack, forgetId]
        rw [h3, hids]
        refine OrderedDict.filterItems_filterItems _ (fun p => ?_)
        rw [← Bool.decide_and, decide_eq_decide, List.forall_mem_cons, hr, and_comm]
        refine and_congr (not_congr ⟨fun h => h ▸ rfl, fun h => (Option.some.inj h).symm⟩) ?_
        exact forall₂_congr (fun k' hk' => by rw [hget k' hk'])
      · rw [h4, closeInto_of_get? s k r hr]
        simp [giveBack, forgetId]
      · rw [h5, closeInto_pendingReqs]
      · rw [h6, closeInto_lones]
      · intro r'
        rw [h7, closeInto_outRefs, hr, Option.toList_some, List.mem_append, List.mem_singleton,
          List.exists_mem_cons_iff, hr, or_assoc]
        refine or_congr Iff.rfl (or_congr ⟨fun h => h ▸ rfl, fun h => (Option.some.inj h).symm⟩ ?_)
        exact exists_congr (fun k' => and_congr_right (fun hk' => by rw [hget k' hk']))

omit [DecidableEq ι] in
/-- What popping a list of open ids leaves. -/
theorem foldl_popIdInto (ks : List (String × String)) (hks : ks.Nodup) (s : GroupState ι)
    (hheld : ∀ k ∈ ks, k ∈ s.openByReqid.keys) :
    (ks.foldl popIdInto s).openByKey = s.openByKey
      ∧ (ks.foldl popIdInto s).currentByThread = s.currentByThread
      ∧ (ks.foldl popIdInto s).openByReqid
          = s.openByReqid.filterItems (fun p => decide (p.1 ∉ ks))
      ∧ (ks.foldl popIdInto s).recentlyClosed = s.recentlyClosed
      ∧ (ks.foldl popIdInto s).pendingReqs = s.pendingReqs
      ∧ (ks.foldl popIdInto s).lones = s.lones
      ∧ ∀ r, r ∈ (ks.foldl popIdInto s).outRefs ↔
          r ∈ s.outRefs ∨ ∃ k ∈ ks, s.openByReqid.get? k = some r := by
  induction ks generalizing s with
  | nil =>
      refine ⟨rfl, rfl, ?_, rfl, rfl, rfl, fun r => by simp⟩
      exact OrderedDict.ext_items (by simp)
  | cons k ks ih =>
      obtain ⟨hk, hnd⟩ := List.nodup_cons.mp hks
      obtain ⟨r, hr⟩ := OrderedDict.get?_of_mem_keys (hheld k List.mem_cons_self)
      have hpop : s.popIdInto k = { s with openByReqid := s.openByReqid.erase k }.giveBack r := by
        unfold popIdInto
        rw [hr]
      have hids : (s.popIdInto k).openByReqid = s.openByReqid.erase k := by rw [hpop]; rfl
      -- the ids are distinct: popping one leaves what the others stand for
      have hne : ∀ k' ∈ ks, k' ≠ k := fun k' hk' he => hk (he ▸ hk')
      have hget : ∀ k' ∈ ks, (s.popIdInto k).openByReqid.get? k' = s.openByReqid.get? k' := by
        intro k' hk'
        rw [hids]
        exact OrderedDict.get?_erase_ne _ (hne k' hk')
      have hheld' : ∀ k' ∈ ks, k' ∈ (s.popIdInto k).openByReqid.keys := by
        intro k' hk'
        rw [hids, OrderedDict.mem_keys_erase_of_ne _ (hne k' hk')]
        exact hheld k' (List.mem_cons_of_mem _ hk')
      obtain ⟨h1, h2, h3, h4, h5, h6, h7⟩ := ih hnd (s.popIdInto k) hheld'
      rw [List.foldl_cons]
      refine ⟨h1.trans (popIdInto_openByKey s k), ?_, ?_, ?_, ?_, ?_, ?_⟩
      · rw [h2, hpop]
        rfl
      · rw [h3, hids, OrderedDict.filterItems_erase_cons]
      · rw [h4, hpop]
        rfl
      · rw [h5, popIdInto_pendingReqs]
      · rw [h6, popIdInto_lones]
      · intro r'
        rw [h7, popIdInto_outRefs, hr, Option.toList_some, List.mem_append, List.mem_singleton,
          List.exists_mem_cons_iff, hr, or_assoc]
        refine or_congr Iff.rfl (or_congr ⟨fun h => h ▸ rfl, fun h => (Option.some.inj h).symm⟩ ?_)
        exact exists_congr (fun k' => and_congr_right (fun hk' => by rw [hget k' hk']))

/-! ## §3. The sweep meets its specification. -/

/-- The keys of the items a test picks, and the lookups they answer. -/
theorem mem_picked {κ ν : Type} [DecidableEq κ] (d : OrderedDict κ ν) (p : ν → Bool) (k : κ) :
    k ∈ (d.items.filter (fun q => p q.2)).map Prod.fst ↔ ∃ v, d.get? k = some v ∧ p v = true := by
  constructor
  · intro h
    obtain ⟨⟨k', v⟩, hq, rfl⟩ := List.mem_map.mp h
    obtain ⟨hm, hp⟩ := List.mem_filter.mp hq
    exact ⟨v, OrderedDict.get?_eq_some.mpr hm, hp⟩
  · rintro ⟨v, hv, hp⟩
    exact List.mem_map.mpr ⟨(k, v), List.mem_filter.mpr ⟨OrderedDict.get?_eq_some.mp hv, hp⟩, rfl⟩

theorem nodup_picked {κ ν : Type} (d : OrderedDict κ ν) (p : κ × ν → Bool) :
    ((d.items.filter p).map Prod.fst).Nodup := (d.filterItems p).nodup

/-- An item that is not picked fails the test. -/
theorem not_picked {κ ν : Type} [DecidableEq κ] (d : OrderedDict κ ν) (p : ν → Bool) {q : κ × ν}
    (hq : q ∈ d.items) [Decidable (q.1 ∉ (d.items.filter (fun q => p q.2)).map Prod.fst)] :
    decide (q.1 ∉ (d.items.filter (fun q => p q.2)).map Prod.fst) = !p q.2 := by
  have hget : d.get? q.1 = some q.2 := OrderedDict.get?_eq_some.mpr hq
  have hiff : q.1 ∈ (d.items.filter (fun q => p q.2)).map Prod.fst ↔ p q.2 = true := by
    rw [mem_picked, hget]
    constructor
    · rintro ⟨v, hv, hp⟩
      exact Option.some.inj hv ▸ hp
    · intro hp
      exact ⟨q.2, rfl, hp⟩
  cases hp : p q.2 with
  | true => exact decide_eq_false (fun h => h (hiff.mpr hp))
  | false => exact decide_eq_true (fun h => by rw [hiff.mp h] at hp; cases hp)

/-- Without the items a test picks. -/
theorem filterItems_not_picked {κ ν : Type} [DecidableEq κ] (d : OrderedDict κ ν) (p : ν → Bool)
    [∀ q : κ × ν, Decidable (q.1 ∉ (d.items.filter (fun q => p q.2)).map Prod.fst)] :
    d.filterItems (fun q => decide (q.1 ∉ (d.items.filter (fun q => p q.2)).map Prod.fst))
      = d.filterItems (fun q => !p q.2) :=
  OrderedDict.ext_items (List.filter_congr (fun _ hq => not_picked d p hq))

/-- What the picked keys stand for. -/
theorem exists_picked {κ ν : Type} [DecidableEq κ] (d : OrderedDict κ ν) (p : ν → Bool) (v : ν) :
    (∃ k ∈ (d.items.filter (fun q => p q.2)).map Prod.fst, d.get? k = some v)
      ↔ p v = true ∧ ∃ k, (k, v) ∈ d.items := by
  constructor
  · rintro ⟨k, hk, hget⟩
    obtain ⟨v', hv', hp⟩ := (mem_picked d p k).mp hk
    obtain rfl := Option.some.inj (hget.symm.trans hv')
    exact ⟨hp, k, OrderedDict.get?_eq_some.mp hget⟩
  · rintro ⟨hp, k, hk⟩
    have hget := OrderedDict.get?_eq_some.mpr hk
    exact ⟨k, (mem_picked d p k).mpr ⟨v, hget, hp⟩, hget⟩

theorem held_picked {κ ν : Type} (d : OrderedDict κ ν) (p : κ × ν → Bool) :
    ∀ k ∈ (d.items.filter p).map Prod.fst, k ∈ d.keys := by
  intro k hk
  obtain ⟨q, hq, rfl⟩ := List.mem_map.mp hk
  exact List.mem_map_of_mem (List.mem_filter.mp hq).1

theorem staleKey_iff {s : GroupState ι} {horizon : Instant} {k : StreamKey ι} :
    s.staleKey horizon k = true ↔ ∃ r, s.openByKey.get? k = some r ∧ s.stale horizon r = true := by
  unfold staleKey
  cases s.openByKey.get? k with
  | none => simp
  | some r => simp

/-- **`evict_stale`** takes out what was last heard from before the horizon, and nothing else. -/
theorem swept_evictStale (gap : Duration) (s : GroupState ι) (now : Instant) :
    Swept (now - gap) s (s.evictStale gap now) := by
  obtain ⟨a1, a2, a3, a4, a5, a6, a7⟩ := foldl_closeInto _
    (nodup_picked s.openByKey (fun p => s.stale (now - gap) p.2)) s (held_picked _ _)
  have aheap := s.evictSlots_heap (now - gap)
  change (s.evictSlots (now - gap)).openByKey = _ at a1
  change (s.evictSlots (now - gap)).currentByThread = _ at a2
  change (s.evictSlots (now - gap)).openByReqid = _ at a3
  change (s.evictSlots (now - gap)).recentlyClosed = _ at a4
  change (s.evictSlots (now - gap)).pendingReqs = _ at a5
  change (s.evictSlots (now - gap)).lones = _ at a6
  change ∀ r, r ∈ (s.evictSlots (now - gap)).outRefs ↔ _ at a7
  set s1 := s.evictSlots (now - gap) with hs1
  have hstale : s1.stale (now - gap) = s.stale (now - gap) := by
    funext r
    unfold GroupState.stale GroupState.builder
    rw [aheap]
  obtain ⟨b1, b2, b3, b4, b5, b6, b7⟩ := foldl_popIdInto _
    (nodup_picked s1.openByReqid (fun p => s1.stale (now - gap) p.2)) s1 (held_picked _ _)
  have bheap := foldl_popIdInto_heap
    ((s1.openByReqid.items.filter (fun p => s1.stale (now - gap) p.2)).map Prod.fst) s1
  change (s1.evictIds (now - gap)).openByKey = _ at b1
  change (s1.evictIds (now - gap)).currentByThread = _ at b2
  change (s1.evictIds (now - gap)).openByReqid = _ at b3
  change (s1.evictIds (now - gap)).recentlyClosed = _ at b4
  change (s1.evictIds (now - gap)).pendingReqs = _ at b5
  change (s1.evictIds (now - gap)).lones = _ at b6
  change ∀ r, r ∈ (s1.evictIds (now - gap)).outRefs ↔ _ at b7
  change (s1.evictIds (now - gap)).heap = _ at bheap
  rw [hstale] at b3 b7
  set s2 := s1.evictIds (now - gap) with hs2
  show Swept (now - gap) s (s2.evictPending (now - gap))
  refine ⟨bheap.trans aheap, ?_, ?_, ?_, b4.trans a4, ?_, ?_, ?_⟩
  · show s2.openByKey = _
    rw [b1, a1]
    exact filterItems_not_picked s.openByKey (s.stale (now - gap))
  · show s2.currentByThread = _
    rw [b2, a2]
    refine OrderedDict.ext_items (List.filter_congr (fun p _ => ?_))
    have hpick : decide (p.2 ∈ (s.openByKey.items.filter
        (fun q => s.stale (now - gap) q.2)).map Prod.fst) = s.staleKey (now - gap) p.2 := by
      rw [Bool.eq_iff_iff, decide_eq_true_iff, staleKey_iff]
      exact mem_picked s.openByKey (s.stale (now - gap)) p.2
    rw [hpick]
  · show s2.openByReqid = _
    rw [b3, filterItems_not_picked s1.openByReqid (s.stale (now - gap)), a3]
    refine OrderedDict.filterItems_filterItems _ (fun p => ?_)
    -- an id that goes with its slot was stale itself
    cases hp : s.stale (now - gap) p.2 with
    | true => rfl
    | false =>
        rw [Bool.not_false, Bool.true_and, decide_eq_true_iff]
        intro k hk hget
        obtain ⟨r, hr, hst⟩ := (mem_picked s.openByKey (s.stale (now - gap)) k).mp hk
        rw [hget] at hr
        rw [← Option.some.inj hr, hp] at hst
        cases hst
  · show s2.pendingReqs.filter _ = _
    rw [b5, a5]
  · intro r
    rw [outRefs_evictPending, b7, a7, or_assoc, exists_picked s.openByKey (s.stale (now - gap)),
      exists_picked s1.openByReqid (s.stale (now - gap)), ← and_or_left]
    refine or_congr Iff.rfl (and_congr_right (fun _ => ?_))
    -- the slots leave alone the ids of what no slot holds
    constructor
    · rintro (hslot | ⟨k, hk⟩)
      · exact Or.inl hslot
      · rw [a3] at hk
        exact Or.inr ⟨k, (List.mem_filter.mp hk).1⟩
    · intro hin
      by_cases hslot : ∃ k, (k, r) ∈ s.openByKey.items
      · exact Or.inl hslot
      · obtain ⟨k, hk⟩ := hin.resolve_left hslot
        refine Or.inr ⟨k, ?_⟩
        rw [a3]
        exact List.mem_filter.mpr ⟨hk, decide_eq_true (fun k' _ hget =>
          hslot ⟨k', OrderedDict.get?_eq_some.mp hget⟩)⟩
  · intro e
    have hl : (s2.evictPending (now - gap)).lones
        = s2.lones ++ s2.pendingReqs.filter (fun r => olderThan (now - gap) r.timestamp) := by
      simp [lones, evictPending, List.filterMap_append, List.filterMap_map, Function.comp_def,
        Returned.line?]
    rw [hl, b6, a6, b5, a5, List.mem_append, List.mem_filter]

/-! ## §4. Two sweeps in a row are the later one. -/

theorem olderThan_mono {h h' : Instant} (hle : h ≤ h') {t : Option Instant}
    (ht : olderThan h t = true) : olderThan h' t = true := by
  unfold olderThan at *
  cases t with
  | none => cases ht
  | some t =>
      have hlt : t < h := by simpa using ht
      have hlt' : t < h' := lt_of_lt_of_le hlt hle
      simpa using hlt'

theorem stale_mono {s : GroupState ι} {h h' : Instant} (hle : h ≤ h') {r : BuilderRef ι}
    (hr : s.stale h r = true) : s.stale h' r = true := olderThan_mono hle hr

/-- Keeping what is fresh for the earlier horizon first changes nothing. -/
theorem and_not_of_imp {a b : Bool} (h : a = true → b = true) : (!b && !a) = !b := by
  cases a with
  | false => simp
  | true => simp [h rfl]

/-- A slot that is already gone is not found a second time. -/
theorem Swept.staleKey {h h' : Instant} (hle : h ≤ h') {s s1 : GroupState ι} (h1 : Swept h s s1)
    (k : StreamKey ι) : (s1.staleKey h' k || s.staleKey h k) = s.staleKey h' k := by
  unfold GroupState.staleKey
  cases hg : s.openByKey.get? k with
  | none =>
      have hg1 : s1.openByKey.get? k = none := by
        rw [OrderedDict.get?_eq_none] at hg ⊢
        rw [h1.slots]
        exact fun hk => hg ((List.filter_sublist.map Prod.fst).subset hk)
      rw [hg1]
      rfl
  | some r =>
      have hm := OrderedDict.get?_eq_some.mp hg
      cases hst : s.stale h r with
      | true => simp [hst, stale_mono hle hst]
      | false =>
          have hg1 : s1.openByKey.get? k = some r := by
            refine OrderedDict.get?_eq_some.mpr ?_
            rw [h1.slots]
            exact List.mem_filter.mpr ⟨hm, by simp [hst]⟩
          rw [hg1]
          simp [hst, h1.stale]

theorem Swept.trans {h h' : Instant} (hle : h ≤ h') {s s1 s2 : GroupState ι}
    (h1 : Swept h s s1) (h2 : Swept h' s1 s2) : Swept h' s s2 := by
  refine ⟨h2.heap.trans h1.heap, ?_, ?_, ?_, h2.closed.trans h1.closed, ?_, ?_, ?_⟩
  · rw [h2.slots, h1.slots]
    refine OrderedDict.filterItems_filterItems _ (fun p => ?_)
    rw [h1.stale]
    exact and_not_of_imp (stale_mono hle)
  · rw [h2.current, h1.current]
    refine OrderedDict.filterItems_filterItems _ (fun p => ?_)
    rw [← h1.staleKey hle]
    cases decide (p.2.threadKey = p.1) with
    | false => rfl
    | true => rw [Bool.true_and, Bool.true_and, Bool.true_and, Bool.not_or]
  · rw [h2.ids, h1.ids]
    refine OrderedDict.filterItems_filterItems _ (fun p => ?_)
    rw [h1.stale]
    exact and_not_of_imp (stale_mono hle)
  · rw [h2.pending, h1.pending, List.filter_filter]
    exact List.filter_congr (fun r _ => and_not_of_imp (olderThan_mono hle))
  · intro r
    rw [h2.out, h1.out, h1.stale, h1.slots, h1.ids]
    constructor
    · rintro ((ho | ⟨hst, hin⟩) | ⟨hst, hin⟩)
      · exact Or.inl ho
      · exact Or.inr ⟨stale_mono hle hst, hin⟩
      · refine Or.inr ⟨hst, hin.imp ?_ ?_⟩ <;>
          exact Exists.imp fun k hk => (List.mem_filter.mp hk).1
    · rintro (ho | ⟨hst, hin⟩)
      · exact Or.inl (Or.inl ho)
      · cases hold : s.stale h r with
        | true => exact Or.inl (Or.inr ⟨rfl, hin⟩)
        | false =>
            refine Or.inr ⟨hst, hin.imp ?_ ?_⟩ <;>
              exact Exists.imp fun k hk => List.mem_filter.mpr ⟨hk, by simp [hold]⟩
  · intro e
    rw [h2.lones, h1.lones, h1.pending, List.mem_filter]
    constructor
    · rintro ((hl | ⟨hm, ho⟩) | ⟨⟨hm, -⟩, ho⟩)
      · exact Or.inl hl
      · exact Or.inr ⟨hm, olderThan_mono hle ho⟩
      · exact Or.inr ⟨hm, ho⟩
    · rintro (hl | ⟨hm, ho⟩)
      · exact Or.inl (Or.inl hl)
      · cases hold : olderThan h e.timestamp with
        | true => exact Or.inl (Or.inr ⟨hm, rfl⟩)
        | false => exact Or.inr ⟨⟨hm, rfl⟩, ho⟩

end GroupState

end RagPipeline.Stage2
