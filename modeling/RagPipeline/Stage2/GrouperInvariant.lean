/-
  RagPipeline.Stage2.GrouperInvariant — what every state of the grouper's loop satisfies.

  The overlapping indexes of `_group` are tied together by facts the source never states.  They are
  collected here in `GroupState.Wf`, and hold of EVERY run, also of one that loses lines:

    * a stamped id names one builder, and a builder is registered under at most one id;
    * a registered builder has not been returned yet;
    * an old-style (unstamped) builder holds at most ONE slot, and while it does it has not been
      returned;
    * what `recentlyClosed` remembers has been returned, so a late line joins a returned builder;
    * every reference that is still in an index or in the result belongs to a line (or a seed) that
      was handled before, so the builder of the next line is a new one.

  Nothing of the kind holds for the slots of a STAMPED builder: it may hold several, or none, and may
  keep one after it was returned.

  Most operations only take references OUT of the indexes, or move them into the result; they are
  instances of `Frame`, and `Frame.wf` is their common proof.  Main results: `wf_step`, `wf_run`.
-/
import Mathlib.Data.Finset.Basic
import Mathlib.Data.Finset.Dedup
import RagPipeline.Stage2.Grouper

namespace RagPipeline.Stage2

open RagPipeline.Lib

namespace GroupState

variable {ι : Type} [DecidableEq ι]

/-! ## §1. Views of a state. -/

/-- The shared builders among the returned ones, in the order they were returned. -/
def outRefs (s : GroupState ι) : List (BuilderRef ι) :=
  s.builders.filterMap Returned.ref?

/-- The lines that were returned as builders of their own. -/
def lones (s : GroupState ι) : List LogEntry :=
  s.builders.filterMap Returned.line?

/-- The builders an index or the result still refers to. -/
def reachable (s : GroupState ι) : Finset (BuilderRef ι) :=
  (s.openByKey.values ++ s.openByReqid.values ++ s.outRefs).toFinset

/-- The conversation was opened under a stamped id. -/
def Stamped (s : GroupState ι) (r : BuilderRef ι) : Prop := isIdBuilder (s.builder r) = true

/-- A builder is reached by a slot, by an id, or is out. -/
theorem mem_reachable {s : GroupState ι} {r : BuilderRef ι} :
    r ∈ s.reachable ↔
      (∃ k, (k, r) ∈ s.openByKey.items) ∨ (∃ k, (k, r) ∈ s.openByReqid.items) ∨ r ∈ s.outRefs := by
  unfold reachable
  rw [List.mem_toFinset, List.mem_append, List.mem_append, OrderedDict.mem_values,
    OrderedDict.mem_values, or_assoc]

theorem reachable_of_slot {s : GroupState ι} {k : StreamKey ι} {r : BuilderRef ι}
    (h : (k, r) ∈ s.openByKey.items) : r ∈ s.reachable :=
  mem_reachable.mpr (Or.inl ⟨k, h⟩)

theorem reachable_of_id {s : GroupState ι} {k : String × String} {r : BuilderRef ι}
    (h : (k, r) ∈ s.openByReqid.items) : r ∈ s.reachable :=
  mem_reachable.mpr (Or.inr (Or.inl ⟨k, h⟩))

theorem reachable_of_out {s : GroupState ι} {r : BuilderRef ι} (h : r ∈ s.outRefs) :
    r ∈ s.reachable :=
  mem_reachable.mpr (Or.inr (Or.inr h))

omit [DecidableEq ι] in
@[simp] theorem outRefs_giveBack (s : GroupState ι) (r : BuilderRef ι) :
    (s.giveBack r).outRefs = s.outRefs ++ [r] := by
  simp [outRefs, giveBack, Returned.ref?]

omit [DecidableEq ι] in
@[simp] theorem lones_giveBack (s : GroupState ι) (r : BuilderRef ι) :
    (s.giveBack r).lones = s.lones := by
  simp [lones, giveBack, Returned.line?]

/-! ## §2. The heap. -/

/-- The heap after one builder was written. -/
theorem getD_set (d : OrderedDict (BuilderRef ι) TxnBuilder) (r r' : BuilderRef ι)
    (b : TxnBuilder) :
    ((d.set r b).get? r').getD {} = if r' = r then b else (d.get? r').getD {} := by
  by_cases h : r' = r
  · subst h
    rw [if_pos rfl, OrderedDict.get?_set_self]
    rfl
  · rw [if_neg h, OrderedDict.get?_set_ne _ _ h]

/-- One builder is changed. -/
theorem builder_modify (s : GroupState ι) (r r' : BuilderRef ι) (f : TxnBuilder → TxnBuilder) :
    (s.modify r f).builder r' = if r' = r then f (s.builder r) else s.builder r' :=
  getD_set _ _ _ _

@[simp] theorem modify_reachable (s : GroupState ι) (r : BuilderRef ι)
    (f : TxnBuilder → TxnBuilder) : (s.modify r f).reachable = s.reachable := rfl

/-! ## §3. The fields of the small operations. -/

section Fields

variable (s : GroupState ι) (k : StreamKey ι) (r : BuilderRef ι) (e : LogEntry)

@[simp] theorem releaseSlot_heap : (s.releaseSlot k).heap = s.heap := by
  unfold releaseSlot dropCurrent; split <;> rfl

@[simp] theorem releaseSlot_builders : (s.releaseSlot k).builders = s.builders := by
  unfold releaseSlot dropCurrent; split <;> rfl

@[simp] theorem releaseSlot_openByKey : (s.releaseSlot k).openByKey = s.openByKey.erase k := by
  unfold releaseSlot dropCurrent; split <;> rfl

@[simp] theorem releaseSlot_openByReqid : (s.releaseSlot k).openByReqid = s.openByReqid := by
  unfold releaseSlot dropCurrent; split <;> rfl

@[simp] theorem releaseSlot_recentlyClosed :
    (s.releaseSlot k).recentlyClosed = s.recentlyClosed := by
  unfold releaseSlot dropCurrent; split <;> rfl

@[simp] theorem releaseSlot_pendingReqs : (s.releaseSlot k).pendingReqs = s.pendingReqs := by
  unfold releaseSlot dropCurrent; split <;> rfl

/-- The state in which the slot `k` of `r` was closed. -/
theorem close_of_get? (h : s.openByKey.get? k = some r) :
    s.close k = (some r, (s.releaseSlot k).forgetId r) := by
  unfold close
  rw [h]

/-- An empty slot closes nothing. -/
theorem close_of_none (h : s.openByKey.get? k = none) : s.close k = (none, s) := by
  unfold close
  rw [h]

/-- An open slot gives its builder back and forgets its ids. -/
theorem closeInto_of_get? (h : s.openByKey.get? k = some r) :
    s.closeInto k = ((s.releaseSlot k).forgetId r).giveBack r := by
  unfold closeInto
  rw [close_of_get? s k r h]

theorem closeInto_of_none (h : s.openByKey.get? k = none) : s.closeInto k = s := by
  unfold closeInto
  rw [close_of_none s k h]

@[simp] theorem closeInto_heap : (s.closeInto k).heap = s.heap := by
  cases hk : s.openByKey.get? k with
  | none => rw [closeInto_of_none s k hk]
  | some r => rw [closeInto_of_get? s k r hk]; simp [giveBack, forgetId]

@[simp] theorem closeInto_pendingReqs : (s.closeInto k).pendingReqs = s.pendingReqs := by
  cases hk : s.openByKey.get? k with
  | none => rw [closeInto_of_none s k hk]
  | some r => rw [closeInto_of_get? s k r hk]; simp [giveBack, forgetId]

@[simp] theorem closeInto_lones : (s.closeInto k).lones = s.lones := by
  cases hk : s.openByKey.get? k with
  | none => rw [closeInto_of_none s k hk]
  | some r => rw [closeInto_of_get? s k r hk, lones_giveBack]; simp [forgetId, lones]

/-- What is out afterwards: the builder of the slot, if there was one. -/
theorem closeInto_outRefs :
    (s.closeInto k).outRefs = s.outRefs ++ (s.openByKey.get? k).toList := by
  cases hk : s.openByKey.get? k with
  | none => rw [closeInto_of_none s k hk]; simp
  | some r => rw [closeInto_of_get? s k r hk, outRefs_giveBack]; simp [forgetId, outRefs]

@[simp] theorem closeInto_openByKey : (s.closeInto k).openByKey = s.openByKey.erase k := by
  cases hk : s.openByKey.get? k with
  | none => rw [closeInto_of_none s k hk, OrderedDict.erase_of_get?_none hk]
  | some r => rw [closeInto_of_get? s k r hk]; simp [giveBack, forgetId]

end Fields

section PopFields

omit [DecidableEq ι]

variable (s : GroupState ι) (k : String × String)

@[simp] theorem popIdInto_heap : (s.popIdInto k).heap = s.heap := by
  unfold popIdInto; split <;> rfl

@[simp] theorem popIdInto_pendingReqs : (s.popIdInto k).pendingReqs = s.pendingReqs := by
  unfold popIdInto; split <;> rfl

@[simp] theorem popIdInto_openByKey : (s.popIdInto k).openByKey = s.openByKey := by
  unfold popIdInto; split <;> rfl

@[simp] theorem popIdInto_lones : (s.popIdInto k).lones = s.lones := by
  unfold popIdInto
  split
  · rw [lones_giveBack]; rfl
  · rfl

/-- What is out afterwards: the builder of the id, if there was one. -/
theorem popIdInto_outRefs :
    (s.popIdInto k).outRefs = s.outRefs ++ (s.openByReqid.get? k).toList := by
  unfold popIdInto
  split
  · rename_i r hr
    rw [outRefs_giveBack, hr]
    rfl
  · rename_i hr
    rw [hr]
    simp

end PopFields

omit [DecidableEq ι] in
/-- Remembering a conversation changes `recentlyClosed` only, and only under its key. -/
theorem rememberClosed_eq (s : GroupState ι) (k : ClosedKey) (r : BuilderRef ι) (e : LogEntry) :
    ∃ rc, s.rememberClosed k r e = { s with recentlyClosed := rc }
      ∧ ∀ p ∈ rc.items, p ∈ s.recentlyClosed.items ∨ p.2.1 = r := by
  unfold rememberClosed
  cases e.timestamp with
  | none => exact ⟨s.recentlyClosed, rfl, fun p hp => Or.inl hp⟩
  | some t =>
      refine ⟨_, rfl, ?_⟩
      rintro ⟨k', v'⟩ hp
      rcases OrderedDict.mem_set.mp hp with ⟨-, rfl⟩ | ⟨-, hm⟩
      · exact Or.inr rfl
      · exact Or.inl hm

/-! ## §4. The invariant. -/

/-- **The invariant of the loop**; `seen` are the references handed out so far. -/
structure Wf (seen : Set (BuilderRef ι)) (s : GroupState ι) : Prop where
  known : ∀ r ∈ s.reachable, r ∈ seen
  inHeap : ∀ r ∈ s.reachable, r ∈ s.heap.keys
  anonKnown : ∀ p ∈ s.openByKey.items, ∀ i, p.1.anon = some i → BuilderRef.line i ∈ seen
  idsOnce : ∀ k k' r, (k, r) ∈ s.openByReqid.items → (k', r) ∈ s.openByReqid.items → k = k'
  idsStamped : ∀ p ∈ s.openByReqid.items, s.Stamped p.2
  idsOpen : ∀ p ∈ s.openByReqid.items, p.2 ∉ s.outRefs
  oneSlot : ∀ k k' r, (k, r) ∈ s.openByKey.items → (k', r) ∈ s.openByKey.items →
    ¬ s.Stamped r → k = k'
  slotOpen : ∀ k r, (k, r) ∈ s.openByKey.items → ¬ s.Stamped r → r ∉ s.outRefs
  closedOut : ∀ p ∈ s.recentlyClosed.items, p.2.1 ∈ s.outRefs

/-- `s'` has nothing in its indexes that `s` does not have; what is new in the result was reachable
    and has left the indexes that must be disjoint from the result. -/
structure Frame (s s' : GroupState ι) : Prop where
  heapKeys : ∀ r ∈ s.heap.keys, r ∈ s'.heap.keys
  stamped : ∀ r ∈ s.reachable, s'.Stamped r ↔ s.Stamped r
  slots : ∀ p ∈ s'.openByKey.items, p ∈ s.openByKey.items
  ids : ∀ p ∈ s'.openByReqid.items, p ∈ s.openByReqid.items
  out : ∀ r ∈ s.outRefs, r ∈ s'.outRefs
  outNew : ∀ r ∈ s'.outRefs, r ∈ s.outRefs ∨
    (r ∈ s.reachable ∧ (∀ p ∈ s'.openByReqid.items, p.2 ≠ r)
      ∧ (¬ s.Stamped r → ∀ p ∈ s'.openByKey.items, p.2 ≠ r))
  closed : ∀ p ∈ s'.recentlyClosed.items, p ∈ s.recentlyClosed.items ∨ p.2.1 ∈ s'.outRefs

/-- A frame reaches no new builder. -/
theorem Frame.reachable {s s' : GroupState ι} (hf : Frame s s') :
    ∀ r ∈ s'.reachable, r ∈ s.reachable := by
  intro r hr
  rcases mem_reachable.mp hr with ⟨k, hk⟩ | ⟨k, hk⟩ | ho
  · exact reachable_of_slot (hf.slots _ hk)
  · exact reachable_of_id (hf.ids _ hk)
  · rcases hf.outNew r ho with h | ⟨h, -, -⟩
    · exact reachable_of_out h
    · exact h

/-- **A frame keeps the invariant.** -/
theorem Frame.wf {seen : Set (BuilderRef ι)} {s s' : GroupState ι} (hf : Frame s s')
    (hw : Wf seen s) : Wf seen s' := by
  have hst : ∀ p ∈ s'.openByKey.items, (s'.Stamped p.2 ↔ s.Stamped p.2) := fun p hp =>
    hf.stamped _ (reachable_of_slot (k := p.1) (hf.slots _ hp))
  refine ⟨?_, ?_, ?_, ?_, ?_, ?_, ?_, ?_, ?_⟩
  · intro r hr
    exact hw.known _ (hf.reachable r hr)
  · intro r hr
    exact hf.heapKeys _ (hw.inHeap _ (hf.reachable r hr))
  · intro p hp i hi
    exact hw.anonKnown p (hf.slots _ hp) i hi
  · intro k k' r hk hk'
    exact hw.idsOnce k k' r (hf.ids _ hk) (hf.ids _ hk')
  · intro p hp
    have hp' := hf.ids p hp
    exact (hf.stamped _ (reachable_of_id (k := p.1) hp')).mpr (hw.idsStamped p hp')
  · -- what is newly in the result is no longer under an id, and in a slot only when it is stamped
    intro p hp ho
    rcases hf.outNew _ ho with h | ⟨-, h, -⟩
    · exact hw.idsOpen p (hf.ids p hp) h
    · exact h p hp rfl
  · intro k k' r hk hk' hns
    have hns' : ¬ s.Stamped r := fun h => hns ((hst _ hk).mpr h)
    exact hw.oneSlot k k' r (hf.slots _ hk) (hf.slots _ hk') hns'
  · intro k r hk hns ho
    have hns' : ¬ s.Stamped r := fun h => hns ((hst _ hk).mpr h)
    rcases hf.outNew _ ho with h | ⟨-, -, h⟩
    · exact hw.slotOpen k r (hf.slots _ hk) hns' h
    · exact h hns' _ hk rfl
  · intro p hp
    rcases hf.closed p hp with h | h
    · exact hf.out _ (hw.closedOut p h)
    · exact h

/-- More builders may have been seen. -/
theorem Wf.mono {seen seen' : Set (BuilderRef ι)} {s : GroupState ι} (hw : Wf seen s)
    (h : seen ⊆ seen') : Wf seen' s :=
  { hw with
    known := fun r hr => h (hw.known r hr)
    anonKnown := fun p hp i hi => h (hw.anonKnown p hp i hi) }

/-! ## §5. The operations that are frames. -/

/-- A state with the same indexes and the same result. -/
theorem frame_of_indexes {s s' : GroupState ι}
    (hh : ∀ r ∈ s.heap.keys, r ∈ s'.heap.keys)
    (hst : ∀ r ∈ s.reachable, s'.Stamped r ↔ s.Stamped r)
    (hk : s'.openByKey = s.openByKey) (hi : s'.openByReqid = s.openByReqid)
    (ho : s'.outRefs = s.outRefs)
    (hc : ∀ p ∈ s'.recentlyClosed.items, p ∈ s.recentlyClosed.items ∨ p.2.1 ∈ s.outRefs) :
    Frame s s' := by
  refine ⟨hh, hst, ?_, ?_, ?_, ?_, ?_⟩
  · intro p hp
    rwa [hk] at hp
  · intro p hp
    rwa [hi] at hp
  · intro r hr
    rwa [ho]
  · intro r hr
    rw [ho] at hr
    exact Or.inl hr
  · intro p hp
    rw [ho]
    exact hc p hp

/-- Mutating a builder without touching its id. -/
theorem frame_modify (s : GroupState ι) (r : BuilderRef ι) {f : TxnBuilder → TxnBuilder}
    (hf : ∀ b, (f b).reqid = b.reqid) : Frame s (s.modify r f) := by
  refine frame_of_indexes ?_ ?_ rfl rfl rfl (fun p hp => Or.inl hp)
  · intro r' hr'
    exact OrderedDict.mem_keys_set.mpr (Or.inr hr')
  intro r' _
  unfold Stamped isIdBuilder
  rw [builder_modify]
  split
  · rename_i h
    rw [hf, h]
  · rfl

/-- Writing the builder of a reference that is not reachable. -/
theorem frame_alloc {s : GroupState ι} {r : BuilderRef ι} (b : TxnBuilder)
    (h : r ∉ s.reachable) : Frame s { s with heap := s.heap.set r b } := by
  refine frame_of_indexes ?_ ?_ rfl rfl rfl (fun p hp => Or.inl hp)
  · intro r' hr'
    exact OrderedDict.mem_keys_set.mpr (Or.inr hr')
  intro r' hr'
  have hne : r' ≠ r := fun he => h (he ▸ hr')
  unfold Stamped builder
  rw [getD_set, if_neg hne]

/-- Remembering a returned conversation. -/
theorem frame_rememberClosed {s : GroupState ι} {r : BuilderRef ι} (k : ClosedKey) (e : LogEntry)
    (h : r ∈ s.outRefs) : Frame s (s.rememberClosed k r e) := by
  obtain ⟨rc, he, hrc⟩ := s.rememberClosed_eq k r e
  rw [he]
  refine frame_of_indexes (fun _ h => h) (fun _ _ => Iff.rfl) rfl rfl rfl ?_
  intro p hp
  rcases hrc p hp with hold | hnew
  · exact Or.inl hold
  · exact Or.inr (hnew ▸ h)

/-- Closing one slot into the result. -/
theorem frame_closeInto {seen : Set (BuilderRef ι)} {s : GroupState ι} (hw : Wf seen s)
    (k : StreamKey ι) : Frame s (s.closeInto k) := by
  cases hk : s.openByKey.get? k with
  | none =>
      rw [closeInto_of_none s k hk]
      exact frame_of_indexes (fun _ h => h) (fun _ _ => Iff.rfl) rfl rfl rfl (fun p hp => Or.inl hp)
  | some r =>
      have hm := OrderedDict.get?_eq_some.mp hk
      rw [closeInto_of_get? s k r hk]
      refine ⟨?_, ?_, ?_, ?_, ?_, ?_, ?_⟩
      · intro r' hr'
        simpa [giveBack, forgetId] using hr'
      · intro r' _
        simp [Stamped, builder, giveBack, forgetId]
      · intro p hp
        simp only [giveBack, forgetId, releaseSlot_openByKey, OrderedDict.items_erase] at hp
        exact (List.mem_filter.mp hp).1
      · intro p hp
        simp only [giveBack, forgetId, releaseSlot_openByReqid, OrderedDict.items_filterItems] at hp
        exact (List.mem_filter.mp hp).1
      · intro r' hr'
        rw [outRefs_giveBack]
        exact List.mem_append_left _ (by simpa [outRefs, forgetId] using hr')
      · intro r' hr'
        rw [outRefs_giveBack] at hr'
        -- what is returned was returned before, or is the builder that was on the slot
        rcases List.mem_append.mp hr' with h | h
        · exact Or.inl (by simpa [outRefs, forgetId] using h)
        · have he : r' = r := by simpa using h
          subst he
          refine Or.inr ⟨reachable_of_slot hm, ?_, ?_⟩
          · intro p hp
            simp only [giveBack, forgetId, OrderedDict.items_filterItems] at hp
            simpa using (List.mem_filter.mp hp).2
          · -- an unstamped builder held this slot only
            rintro hns ⟨k', r''⟩ hp he
            simp only at he
            subst he
            simp only [giveBack, forgetId, releaseSlot_openByKey] at hp
            obtain ⟨hp1, hne⟩ := OrderedDict.mem_erase.mp hp
            exact hne (hw.oneSlot _ _ _ hp1 hm hns)
      · intro p hp
        simp only [giveBack, forgetId, releaseSlot_recentlyClosed] at hp
        exact Or.inl hp

/-- The slots that are left when a list of keys is released. -/
theorem foldl_releaseSlot (ks : List (StreamKey ι)) (s : GroupState ι) :
    (ks.foldl releaseSlot s).heap = s.heap
      ∧ (ks.foldl releaseSlot s).builders = s.builders
      ∧ (ks.foldl releaseSlot s).openByReqid = s.openByReqid
      ∧ (ks.foldl releaseSlot s).recentlyClosed = s.recentlyClosed
      ∧ (ks.foldl releaseSlot s).pendingReqs = s.pendingReqs
      ∧ ∀ p, p ∈ (ks.foldl releaseSlot s).openByKey.items ↔ p ∈ s.openByKey.items ∧ p.1 ∉ ks := by
  induction ks generalizing s with
  | nil => simp
  | cons k ks ih =>
      rw [List.foldl_cons]
      obtain ⟨h1, h2, h3, h4, h5, h6⟩ := ih (s.releaseSlot k)
      refine ⟨h1.trans (by simp), h2.trans (by simp), h3.trans (by simp), h4.trans (by simp),
        h5.trans (by simp), ?_⟩
      rintro ⟨k', r⟩
      rw [h6, releaseSlot_openByKey, OrderedDict.mem_erase]
      simp only [List.mem_cons, not_or]
      exact and_assoc

/-- Closing a stamped conversation: its id and all its slots are gone, everything else stays. -/
theorem closeIdBuilder_some {s : GroupState ι} {srv rid : String} {r : BuilderRef ι}
    (h : s.openByReqid.get? (srv, rid) = some r) :
    ∃ s', s.closeIdBuilder srv rid = (some r, s')
      ∧ s'.heap = s.heap ∧ s'.builders = s.builders
      ∧ s'.openByReqid = s.openByReqid.erase (srv, rid)
      ∧ s'.recentlyClosed = s.recentlyClosed ∧ s'.pendingReqs = s.pendingReqs
      ∧ ∀ p, p ∈ s'.openByKey.items ↔ p ∈ s.openByKey.items ∧ p.2 ≠ r := by
  unfold closeIdBuilder
  rw [h]
  refine ⟨_, rfl, ?_⟩
  obtain ⟨h1, h2, h3, h4, h5, h6⟩ := foldl_releaseSlot
    ((s.openByKey.items.filter (fun p => decide (p.2 = r))).map Prod.fst)
    { s with openByReqid := s.openByReqid.erase (srv, rid) }
  refine ⟨h1, h2, h3, h4, h5, ?_⟩
  rintro ⟨k, r'⟩
  -- the slots that are released are exactly those that hold the builder
  rw [h6]
  constructor
  · rintro ⟨hm, hk⟩
    refine ⟨hm, fun he => hk ?_⟩
    have he' : r' = r := he
    subst he'
    exact List.mem_map.mpr ⟨(k, r'), List.mem_filter.mpr ⟨hm, by simp⟩, rfl⟩
  · rintro ⟨hm, hne⟩
    refine ⟨hm, fun hk => ?_⟩
    obtain ⟨⟨k', r''⟩, hq, he⟩ := List.mem_map.mp hk
    obtain ⟨hq1, hq2⟩ := List.mem_filter.mp hq
    have he1 : k' = k := he
    have he2 : r'' = r := by simpa using hq2
    subst he1 he2
    exact hne (s.openByKey.mem_unique hm hq1)

/-- An id that is not known closes nothing. -/
theorem closeIdBuilder_none {s : GroupState ι} {srv rid : String}
    (h : s.openByReqid.get? (srv, rid) = none) : s.closeIdBuilder srv rid = (none, s) := by
  unfold closeIdBuilder
  rw [h]

/-- A stamped conversation goes into the result when its response closes it. -/
theorem frame_closeIdBuilder {seen : Set (BuilderRef ι)} {s s' : GroupState ι} (hw : Wf seen s)
    {srv rid : String} {r : BuilderRef ι} (h : s.openByReqid.get? (srv, rid) = some r)
    (hc : s.closeIdBuilder srv rid = (some r, s')) : Frame s (s'.giveBack r) := by
  -- closing takes the id and every slot of the builder away, so nothing but the result refers to it any more
  obtain ⟨s1, he, hheap, hb, hids, hrc, -, hslots⟩ := closeIdBuilder_some h
  have hs : s1 = s' := by rw [he] at hc; exact (Prod.mk.inj hc).2
  subst hs
  have hm := OrderedDict.get?_eq_some.mp h
  have hout : s1.outRefs = s.outRefs := by unfold outRefs; rw [hb]
  refine ⟨?_, ?_, ?_, ?_, ?_, ?_, ?_⟩
  · intro r' hr'
    show r' ∈ s1.heap.keys
    rwa [hheap]
  · intro r' _
    simp [Stamped, builder, giveBack, hheap]
  · intro p hp
    exact ((hslots p).mp hp).1
  · intro p hp
    have hp' : p ∈ (s.openByReqid.erase (srv, rid)).items := hids ▸ hp
    exact (List.mem_filter.mp hp').1
  · intro r' hr'
    rw [outRefs_giveBack, hout]
    exact List.mem_append_left _ hr'
  · intro r' hr'
    rw [outRefs_giveBack, hout] at hr'
    rcases List.mem_append.mp hr' with ho | hr
    · exact Or.inl ho
    · have he' : r' = r := by simpa using hr
      subst he'
      refine Or.inr ⟨reachable_of_id hm, ?_, ?_⟩
      · rintro ⟨k, r''⟩ hp he''
        have hp' : (k, r'') ∈ (s.openByReqid.erase (srv, rid)).items := hids ▸ hp
        obtain ⟨hp1, hne⟩ := OrderedDict.mem_erase.mp hp'
        have : r'' = r' := he''
        subst this
        exact hne (hw.idsOnce _ _ _ hp1 hm)
      · intro _ p hp
        exact ((hslots p).mp hp).2
  · intro p hp
    have hp' : p ∈ s1.recentlyClosed.items := hp
    rw [hrc] at hp'
    exact Or.inl hp'

/-- An idle stamped conversation goes into the result. -/
theorem frame_popIdInto {seen : Set (BuilderRef ι)} {s : GroupState ι} (hw : Wf seen s)
    (k : String × String) : Frame s (s.popIdInto k) := by
  unfold popIdInto
  cases hk : s.openByReqid.get? k with
  | none => exact frame_of_indexes (fun _ h => h) (fun _ _ => Iff.rfl) rfl rfl rfl (fun p hp => Or.inl hp)
  | some r =>
      have hm := OrderedDict.get?_eq_some.mp hk
      refine ⟨fun _ h => h, fun _ _ => Iff.rfl, fun p hp => hp,
        fun p hp => (List.mem_filter.mp hp).1, ?_, ?_, fun p hp => Or.inl hp⟩
      · intro r' hr'
        rw [outRefs_giveBack]
        exact List.mem_append_left _ hr'
      · intro r' hr'
        rw [outRefs_giveBack] at hr'
        rcases List.mem_append.mp hr' with ho | hr
        · exact Or.inl ho
        · have he : r' = r := by simpa using hr
          subst he
          refine Or.inr ⟨reachable_of_id hm, ?_, fun hns => absurd (hw.idsStamped _ hm) hns⟩
          rintro ⟨k', r''⟩ hp he'
          obtain ⟨hp1, hne⟩ := OrderedDict.mem_erase.mp hp
          have : r'' = r' := he'
          subst this
          exact hne (hw.idsOnce _ _ _ hp1 hm)

/-! ## §6. The sweep. -/

theorem wf_evictSlots {seen : Set (BuilderRef ι)} {s : GroupState ι} (hw : Wf seen s)
    (horizon : Instant) : Wf seen (s.evictSlots horizon) := by
  unfold evictSlots
  generalize (s.openByKey.items.filter (fun p => s.stale horizon p.2)).map Prod.fst = ks
  induction ks generalizing s with
  | nil => exact hw
  | cons k ks ih => exact ih ((frame_closeInto hw k).wf hw)

/-- Old ids go, and the state stays well formed. -/
theorem wf_evictIds {seen : Set (BuilderRef ι)} {s : GroupState ι} (hw : Wf seen s)
    (horizon : Instant) : Wf seen (s.evictIds horizon) := by
  unfold evictIds
  generalize (s.openByReqid.items.filter (fun p => s.stale horizon p.2)).map Prod.fst = ks
  induction ks generalizing s with
  | nil => exact hw
  | cons k ks ih => exact ih ((frame_popIdInto hw k).wf hw)

omit [DecidableEq ι] in
@[simp] theorem outRefs_evictPending (s : GroupState ι) (horizon : Instant) :
    (s.evictPending horizon).outRefs = s.outRefs := by
  simp [outRefs, evictPending, List.filterMap_append, List.filterMap_map, Function.comp_def,
    Returned.ref?]

/-- The sweep of the slots changes no builder. -/
theorem evictSlots_heap (s : GroupState ι) (horizon : Instant) :
    (s.evictSlots horizon).heap = s.heap := by
  unfold evictSlots
  generalize (s.openByKey.items.filter (fun p => s.stale horizon p.2)).map Prod.fst = ks
  induction ks generalizing s with
  | nil => rfl
  | cons k ks ih => exact (ih _).trans (closeInto_heap s k)

omit [DecidableEq ι] in
theorem foldl_popIdInto_heap (ks : List (String × String)) (s : GroupState ι) :
    (ks.foldl popIdInto s).heap = s.heap := by
  induction ks generalizing s with
  | nil => rfl
  | cons k ks ih => exact (ih _).trans (popIdInto_heap s k)

/-- The sweep does not touch a builder. -/
@[simp] theorem swept_heap (s : GroupState ι) (gap : Duration) (e : LogEntry) :
    (s.swept gap e).heap = s.heap := by
  unfold swept
  cases e.timestamp with
  | none => rfl
  | some now => exact (foldl_popIdInto_heap _ _).trans (evictSlots_heap s (now - gap))

/-- The sweep of the pool only reports its lines. -/
theorem frame_evictPending (s : GroupState ι) (horizon : Instant) :
    Frame s (s.evictPending horizon) :=
  frame_of_indexes (fun _ h => h) (fun _ _ => Iff.rfl) rfl rfl (outRefs_evictPending _ _) (fun _ hp => Or.inl hp)

/-- **The sweep** keeps a state well formed. -/
theorem wf_swept {seen : Set (BuilderRef ι)} {s : GroupState ι} (hw : Wf seen s) (gap : Duration)
    (e : LogEntry) : Wf seen (s.swept gap e) := by
  unfold swept
  cases e.timestamp with
  | none => exact hw
  | some now =>
      have h1 := wf_evictIds (wf_evictSlots hw (now - gap)) (now - gap)
      exact (frame_evictPending _ _).wf h1

/-! ## §7. New references. -/

/-- The invariant holds and a reference has just been handed out. -/
theorem wf_alloc {seen : Set (BuilderRef ι)} {s : GroupState ι} (hw : Wf seen s) {r : BuilderRef ι}
    (hr : r ∉ seen) (b : TxnBuilder) :
    Wf (insert r seen) { s with heap := s.heap.set r b }
      ∧ r ∈ ({ s with heap := s.heap.set r b } : GroupState ι).heap.keys
      ∧ r ∉ ({ s with heap := s.heap.set r b } : GroupState ι).reachable := by
  have hnot : r ∉ s.reachable := fun h => hr (hw.known r h)
  exact ⟨((frame_alloc b hnot).wf hw).mono (Set.subset_insert _ _),
    OrderedDict.mem_keys_set.mpr (Or.inl rfl), hnot⟩

/-- A slot is given to a builder: a stamped one, or one that nothing refers to yet. -/
theorem wf_setSlot {seen : Set (BuilderRef ι)} {s : GroupState ι} (hw : Wf seen s)
    (k : StreamKey ι) {r : BuilderRef ι} (hr : r ∈ seen) (hh : r ∈ s.heap.keys)
    (hnew : s.Stamped r ∨ r ∉ s.reachable)
    (hanon : ∀ i, k.anon = some i → BuilderRef.line i ∈ seen)
    (cur : OrderedDict ThreadKey (StreamKey ι)) :
    Wf seen { s with openByKey := s.openByKey.set k r, currentByThread := cur } := by
  -- what can be reached afterwards could be reached before, or is the builder of the slot
  have hold : ∀ r' ∈ ({ s with openByKey := s.openByKey.set k r, currentByThread := cur } :
      GroupState ι).reachable, r' = r ∨ r' ∈ s.reachable := by
    intro r' hr'
    rcases mem_reachable.mp hr' with ⟨k', hk'⟩ | ⟨k', hk'⟩ | ho
    · rcases OrderedDict.mem_set.mp hk' with ⟨-, he⟩ | ⟨-, hm⟩
      · exact Or.inl he
      · exact Or.inr (reachable_of_slot hm)
    · exact Or.inr (reachable_of_id hk')
    · exact Or.inr (reachable_of_out ho)
  refine ⟨?_, ?_, ?_, hw.idsOnce, hw.idsStamped, hw.idsOpen, ?_, ?_, hw.closedOut⟩
  · intro r' hr'
    rcases hold r' hr' with he | h
    · exact he ▸ hr
    · exact hw.known _ h
  · intro r' hr'
    rcases hold r' hr' with he | h
    · exact he ▸ hh
    · exact hw.inHeap _ h
  · rintro ⟨k', r'⟩ hp i hi
    rcases OrderedDict.mem_set.mp hp with ⟨hk, -⟩ | ⟨-, hm⟩
    · exact hanon i (hk ▸ hi)
    · exact hw.anonKnown _ hm i hi
  · -- two slots of one unstamped builder: neither is the new one, or nothing referred to it
    intro k1 k2 r' h1 h2 hns
    rcases OrderedDict.mem_set.mp h1 with ⟨hk1, he1⟩ | ⟨-, hm1⟩ <;>
      rcases OrderedDict.mem_set.mp h2 with ⟨hk2, he2⟩ | ⟨-, hm2⟩
    · rw [hk1, hk2]
    · subst he1
      rcases hnew with h | h
      · exact absurd h hns
      · exact absurd (reachable_of_slot hm2) h
    · subst he2
      rcases hnew with h | h
      · exact absurd h hns
      · exact absurd (reachable_of_slot hm1) h
    · exact hw.oneSlot _ _ _ hm1 hm2 hns
  · intro k' r' h1 hns ho
    rcases OrderedDict.mem_set.mp h1 with ⟨-, he⟩ | ⟨-, hm⟩
    · subst he
      rcases hnew with h | h
      · exact absurd h hns
      · exact h (reachable_of_out ho)
    · exact hw.slotOpen _ _ hm hns ho

/-- A builder that nothing refers to goes straight into the result. -/
theorem wf_giveBack {seen : Set (BuilderRef ι)} {s : GroupState ι} (hw : Wf seen s)
    {r : BuilderRef ι} (hr : r ∈ seen) (hh : r ∈ s.heap.keys) (hnew : r ∉ s.reachable) :
    Wf seen (s.giveBack r) := by
  -- handing back makes one builder reachable at most, the one handed back
  have hold : ∀ r' ∈ (s.giveBack r).reachable, r' = r ∨ r' ∈ s.reachable := by
    intro r' hr'
    rcases mem_reachable.mp hr' with ⟨k', hk'⟩ | ⟨k', hk'⟩ | ho
    · exact Or.inr (reachable_of_slot hk')
    · exact Or.inr (reachable_of_id hk')
    · rw [outRefs_giveBack] at ho
      rcases List.mem_append.mp ho with h | h
      · exact Or.inr (reachable_of_out h)
      · exact Or.inl (by simpa using h)
  refine ⟨?_, ?_, hw.anonKnown, hw.idsOnce, hw.idsStamped, ?_, hw.oneSlot, ?_, ?_⟩
  · intro r' hr'
    rcases hold r' hr' with he | h
    · exact he ▸ hr
    · exact hw.known _ h
  · intro r' hr'
    rcases hold r' hr' with he | h
    · exact he ▸ hh
    · exact hw.inHeap _ h
  · intro p hp ho
    rw [outRefs_giveBack] at ho
    rcases List.mem_append.mp ho with h | h
    · exact hw.idsOpen p hp h
    · have he : p.2 = r := by simpa using h
      exact hnew (he ▸ reachable_of_id (k := p.1) hp)
  · intro k r' hk hns ho
    rw [outRefs_giveBack] at ho
    rcases List.mem_append.mp ho with h | h
    · exact hw.slotOpen k r' hk hns h
    · have he : r' = r := by simpa using h
      exact hnew (he ▸ reachable_of_slot hk)
  · intro p hp
    rw [outRefs_giveBack]
    exact List.mem_append_left _ (hw.closedOut p hp)

/-- A stamped builder that nothing refers to is registered under an id. -/
theorem wf_register {seen : Set (BuilderRef ι)} {s : GroupState ι} (hw : Wf seen s)
    (k : String × String) {r : BuilderRef ι} (hr : r ∈ seen) (hh : r ∈ s.heap.keys)
    (hnew : r ∉ s.reachable) (hst : s.Stamped r) :
    Wf seen { s with openByReqid := s.openByReqid.set k r } := by
  have hmem : ∀ p ∈ (s.openByReqid.set k r).items,
      (p.1 = k ∧ p.2 = r) ∨ (p.1 ≠ k ∧ p ∈ s.openByReqid.items) :=
    fun p hp => OrderedDict.mem_set.mp hp
  -- what can be reached afterwards could be reached before, or is the one that is registered
  have hold : ∀ r' ∈ ({ s with openByReqid := s.openByReqid.set k r } :
      GroupState ι).reachable, r' = r ∨ r' ∈ s.reachable := by
    intro r' hr'
    rcases mem_reachable.mp hr' with ⟨k', hk'⟩ | ⟨k', hk'⟩ | ho
    · exact Or.inr (reachable_of_slot hk')
    · rcases hmem _ hk' with ⟨-, h⟩ | ⟨-, h⟩
      · exact Or.inl h
      · exact Or.inr (reachable_of_id h)
    · exact Or.inr (reachable_of_out ho)
  refine ⟨?_, ?_, hw.anonKnown, ?_, ?_, ?_, hw.oneSlot, hw.slotOpen, hw.closedOut⟩
  · intro r' hr'
    rcases hold r' hr' with he | h
    · exact he ▸ hr
    · exact hw.known _ h
  · intro r' hr'
    rcases hold r' hr' with he | h
    · exact he ▸ hh
    · exact hw.inHeap _ h
  · -- one builder under two ids: nothing referred to the new one
    intro k1 k2 r' h1 h2
    rcases hmem _ h1 with ⟨hk1, he1⟩ | ⟨-, hm1⟩ <;> rcases hmem _ h2 with ⟨hk2, he2⟩ | ⟨-, hm2⟩
    · exact hk1.trans hk2.symm
    · have he : r' = r := he1
      exact absurd (he ▸ reachable_of_id hm2) hnew
    · have he : r' = r := he2
      exact absurd (he ▸ reachable_of_id hm1) hnew
    · exact hw.idsOnce _ _ _ hm1 hm2
  · intro p hp
    rcases hmem p hp with ⟨-, h⟩ | ⟨-, h⟩
    · show s.Stamped p.2
      rw [h]
      exact hst
    · exact hw.idsStamped p h
  · intro p hp ho
    rcases hmem p hp with ⟨-, h⟩ | ⟨-, h⟩
    · rw [h] at ho
      exact hnew (reachable_of_out ho)
    · exact hw.idsOpen p h ho

/-! ## §8. Where a line can go. -/

/-- What `workTarget` can do with a work line. -/
inductive WorkRoute (s : GroupState ι) (i : ι) (e : LogEntry) :
    Option (BuilderRef ι) × GroupState ι → Prop
  | own (u : User) (r : BuilderRef ι)
      (hu : e.contextUser = some u)
      (hk : s.openByKey.get? ⟨entryServer e, e.thread, some u, none⟩ = some r) :
      WorkRoute s i e (some r, { s with
        currentByThread := s.currentByThread.set (entryServer e, e.thread)
          ⟨entryServer e, e.thread, some u, none⟩ })
  | fresh (u : User) (rc : OrderedDict ClosedKey (BuilderRef ι × Instant))
      (hu : e.contextUser = some u)
      (hk : s.openByKey.get? ⟨entryServer e, e.thread, some u, none⟩ = none)
      (hrc : rc = s.recentlyClosed
        ∨ rc = s.recentlyClosed.erase (entryServer e, e.thread, some u)) :
      WorkRoute s i e (some (.line i),
        { s with recentlyClosed := rc }.openSlot i ⟨entryServer e, e.thread, some u, none⟩ e)
  | late (u : User) (r : BuilderRef ι) (t : Instant)
      (hu : e.contextUser = some u)
      (hrc : ((entryServer e, e.thread, some u), (r, t)) ∈ s.recentlyClosed.items) :
      WorkRoute s i e (none, s.modify r (·.add e))
  | inherited (k : StreamKey ι) (r : BuilderRef ι)
      (hu : e.contextUser = none)
      (hc : s.currentByThread.get? (entryServer e, e.thread) = some k)
      (hk : s.openByKey.get? k = some r) :
      WorkRoute s i e (some r, s)
  | anonymous (hu : e.contextUser = none) :
      WorkRoute s i e (some (.line i),
        (s.openSlot i ⟨entryServer e, e.thread, none, some i⟩ e).bind (.line i)
          (takeAnonymousRequest s.pendingReqs (entryServer e) e.thread))

/-- Every work line takes one of the routes. -/
theorem workRoute (s : GroupState ι) (i : ι) (e : LogEntry) :
    WorkRoute s i e (s.workTarget i e) := by
  unfold workTarget
  simp only
  cases hu : e.contextUser with
  | some u =>
      simp only
      cases hk : s.openByKey.get? ⟨entryServer e, e.thread, some u, none⟩ with
      | some r => exact WorkRoute.own u r hu hk
      | none =>
          simp only
          split
          · exact WorkRoute.fresh u s.recentlyClosed hu hk (Or.inl rfl)
          · -- no fresh request waits: the line may be the tail of an answered conversation
            unfold rejoinLateWork
            split
            · rename_i hre
              split at hre
              · rename_i r closedAt t hrc ht
                split at hre
                · cases hre
                · cases hre
                  exact WorkRoute.late u _ closedAt hu (OrderedDict.get?_eq_some.mp hrc)
              · cases hre
            · rename_i hre
              split at hre
              · split at hre
                · cases hre
                  exact WorkRoute.fresh u _ hu hk (Or.inr rfl)
                · cases hre
              · cases hre
                exact WorkRoute.fresh u s.recentlyClosed hu hk (Or.inl rfl)
  | none =>
      simp only
      cases hc : s.currentByThread.get? (entryServer e, e.thread) with
      | none => exact WorkRoute.anonymous hu
      | some k =>
          simp only [Option.bind_some]
          cases hk : s.openByKey.get? k with
          | none => exact WorkRoute.anonymous hu
          | some r => exact WorkRoute.inherited k r hu hc hk

/-- Late records are dropped, and nothing else changes. -/
theorem wf_dropClosed {seen : Set (BuilderRef ι)} {s : GroupState ι} (hw : Wf seen s)
    {k : ClosedKey} {rc : OrderedDict ClosedKey (BuilderRef ι × Instant)}
    (hrc : rc = s.recentlyClosed ∨ rc = s.recentlyClosed.erase k) :
    Wf seen { s with recentlyClosed := rc } := by
  have hsub : ∀ p ∈ rc.items, p ∈ s.recentlyClosed.items := by
    rcases hrc with rfl | rfl
    · exact fun p hp => hp
    · exact fun p hp => (List.mem_filter.mp hp).1
  exact { hw with closedOut := fun p hp => hw.closedOut p (hsub p hp) }

/-- What `response` can do with an unstamped response. -/
inductive ResponseRoute (s : GroupState ι) (i : ι) (e : LogEntry) : GroupState ι → Prop
  | builder (k : StreamKey ι) (r : BuilderRef ι) (hk : (k, r) ∈ (s.candidates e).1) :
      ResponseRoute s i e (s.answerBuilder k e)
  | request (req : LogEntry) (hreq : req ∈ (s.candidates e).2) :
      ResponseRoute s i e (s.answerRequest i req e)
  | orphan : ResponseRoute s i e (s.orphan i e)

/-- Every response takes one of its routes. -/
theorem responseRoute (s : GroupState ι) (i : ι) (e : LogEntry) :
    ResponseRoute s i e (s.response i e) := by
  unfold response
  simp only
  cases hk : s.bestKey (s.candidates e).1 with
  | some p =>
      have hm := maxBy?_mem hk
      cases hr : bestReq (s.candidates e).2 with
      | some req =>
          simp only
          split
          · exact ResponseRoute.builder p.1 p.2 hm
          · exact ResponseRoute.request req (maxBy?_mem hr)
      | none => exact ResponseRoute.builder p.1 p.2 hm
  | none =>
      cases hr : bestReq (s.candidates e).2 with
      | some req => exact ResponseRoute.request req (maxBy?_mem hr)
      | none => exact ResponseRoute.orphan

/-- A candidate slot of a response holds an unstamped builder of the response's server. -/
theorem candidates_slot {s : GroupState ι} {e : LogEntry} {p : StreamKey ι × BuilderRef ι}
    (h : p ∈ (s.candidates e).1) :
    p ∈ s.openByKey.items ∧ p.1.server = entryServer e ∧ ¬ s.Stamped p.2 := by
  have hkeys : p ∈ s.openByKey.items.filter (fun p =>
      decide (p.1.server = entryServer e) && !isIdBuilder (s.builder p.2)) := by
    unfold candidates at h
    simp only at h
    split at h <;> split at h <;> simp only [List.mem_filter] at h ⊢ <;> tauto
  obtain ⟨hm, hp⟩ := List.mem_filter.mp hkeys
  rw [Bool.and_eq_true] at hp
  refine ⟨hm, by simpa using hp.1, ?_⟩
  unfold Stamped
  simpa using hp.2

/-- A candidate request of a response is a pending request of the response's server. -/
theorem candidates_request {s : GroupState ι} {e req : LogEntry}
    (h : req ∈ (s.candidates e).2) :
    req ∈ s.pendingReqs ∧ entryServer req = entryServer e := by
  have hreqs : req ∈ s.pendingReqs.filter (fun r => decide (entryServer r = entryServer e)) := by
    unfold candidates at h
    simp only at h
    split at h <;> simp only [List.mem_filter] at h ⊢ <;> tauto
  obtain ⟨hm, hp⟩ := List.mem_filter.mp hreqs
  exact ⟨hm, by simpa using hp⟩

/-- An open builder that answers is closed into the result, and then takes the response. -/
theorem answerBuilder_eq {s : GroupState ι} {k : StreamKey ι} {r : BuilderRef ι} (e : LogEntry)
    (h : s.openByKey.get? k = some r) :
    s.answerBuilder k e
      = ((s.closeInto k).modify r (·.add e)).rememberClosed k.closedKey r e := by
  unfold answerBuilder
  rw [close_of_get? s k r h, closeInto_of_get? s k r h]
  rfl

/-- A stamped response whose conversation is open. -/
theorem closeStamped_some {s s' : GroupState ι} {e : LogEntry} {rid : String} {r : BuilderRef ι}
    (i : ι) (h : s.closeIdBuilder (entryServer e) rid = (some r, s')) :
    ∃ head ∈ (((s'.giveBack r).modify r (·.add e)).builder r).entries, s.closeStamped i e rid
      = ((s'.giveBack r).modify r (·.add e)).rememberClosed
          (entryServer e, head.thread, head.contextUser) r e := by
  unfold closeStamped
  simp only [h]
  split
  · rename_i head hhead
    exact ⟨head, List.mem_of_head? hhead, rfl⟩
  · rename_i hnil
    exfalso
    simp [builder, giveBack, modify, TxnBuilder.add] at hnil

/-- A stamped response whose conversation is not open is a conversation of its own. -/
theorem closeStamped_none {s : GroupState ι} {e : LogEntry} {rid : String} (i : ι)
    (h : s.openByReqid.get? (entryServer e, rid) = none) :
    s.closeStamped i e rid
      = (({ s with heap := s.heap.set (.line i) { entries := [e], openPos := streamPos e } } :
            GroupState ι).giveBack (.line i)).rememberClosed
          (entryServer e, e.thread, e.contextUser) (.line i) e := by
  have hmod : (({ s with heap := s.heap.set (.line i) { openPos := streamPos e } } :
        GroupState ι).modify (.line i) (·.add e))
      = { s with heap := s.heap.set (.line i) { entries := [e], openPos := streamPos e } } := by
    unfold modify builder
    simp only [OrderedDict.get?_set_self, OrderedDict.set_set]
    rfl
  unfold closeStamped
  simp only [closeIdBuilder_none h, hmod]
  have hhead : (({ s with heap := s.heap.set (.line i) { entries := [e], openPos := streamPos e } } :
      GroupState ι).giveBack (.line i)).builder (.line i)
        = { entries := [e], openPos := streamPos e } := by
    unfold builder giveBack
    simp only [OrderedDict.get?_set_self]
    rfl
  rw [hhead]
  rfl

@[simp] theorem add_reqid (b : TxnBuilder) (e : LogEntry) : (b.add e).reqid = b.reqid := rfl

/-! ## §9. The invariant is kept. -/

section Route

variable {seen : Set (BuilderRef ι)} {s : GroupState ι} {i : ι}

/-- The pool is not part of what is well formed. -/
theorem wf_pending (hw : Wf seen s) (p : List LogEntry) : Wf seen { s with pendingReqs := p } :=
  { hw with }

/-- The threads are not part of what is well formed. -/
theorem wf_current (hw : Wf seen s) (c : OrderedDict ThreadKey (StreamKey ι)) :
    Wf seen { s with currentByThread := c } :=
  { hw with }

/-- A builder that takes a request is the same builder. -/
theorem wf_bind (hw : Wf seen s) (r : BuilderRef ι) (taken : Taken) : Wf seen (s.bind r taken) := by
  unfold bind
  cases taken with
  | none => exact hw
  | some t =>
      exact (frame_modify _ r (f := fun b => { b.add t.1 with openPos := streamPos t.1 })
        (fun _ => rfl)).wf (wf_pending hw t.2)

/-- A new stream has a builder that was not seen. -/
theorem wf_openSlot (hw : Wf seen s) (hi : BuilderRef.line i ∉ seen) (k : StreamKey ι)
    (hk : k.anon = none ∨ k.anon = some i) (e : LogEntry) :
    Wf (insert (.line i) seen) (s.openSlot i k e) := by
  obtain ⟨h1, hh, h2⟩ := wf_alloc hw hi { openPos := streamPos e }
  refine wf_setSlot h1 k (Set.mem_insert _ _) hh (Or.inr h2) ?_ _
  intro j hj
  rcases hk with hk | hk
  · rw [hk] at hj
    cases hj
  · rw [hk] at hj
    cases hj
    exact Set.mem_insert _ _

/-- **A work line** keeps a state well formed. -/
theorem wf_work (hw : Wf seen s) (hi : BuilderRef.line i ∉ seen) (e : LogEntry) :
    Wf (insert (.line i) seen) (s.work i e) := by
  have hsub : seen ⊆ insert (BuilderRef.line i) seen := Set.subset_insert _ _
  have hadd : ∀ (s' : GroupState ι) (r : BuilderRef ι), Wf (insert (.line i) seen) s' →
      Wf (insert (.line i) seen) (s'.modify r (·.add e)) := fun s' r h =>
    (frame_modify s' r (f := (·.add e)) (fun _ => rfl)).wf h
  have hroute := workRoute s i e
  unfold work
  generalize s.workTarget i e = w at hroute
  -- the target of the line, before the line is added to it
  have htarget : Wf (insert (.line i) seen) w.2 := by
    cases hroute with
    | own u r hu hk => exact (wf_current hw _).mono hsub
    | fresh u rc hu hk hrc =>
        exact wf_openSlot (wf_dropClosed hw hrc) hi _ (Or.inl rfl) e
    | late u r t hu hrc => exact hadd s r (hw.mono hsub)
    | inherited k r hu hc hk => exact hw.mono hsub
    | anonymous hu => exact wf_bind (wf_openSlot hw hi _ (Or.inr rfl) e) _ _
  rcases w with ⟨_ | r, s'⟩
  · exact htarget
  · have h := hadd s' r htarget
    simp only
    split
    · exact wf_bind h _ _
    · exact h

/-- **A body** keeps a state well formed. -/
theorem wf_requestBody (hw : Wf seen s) (hi : BuilderRef.line i ∉ seen) (e : LogEntry) :
    Wf (insert (.line i) seen) (s.requestBody i e) := by
  have hc := (frame_closeInto hw ⟨entryServer e, e.thread, reqUser e, none⟩).wf hw
  -- whatever is claimed, and whatever is left waiting
  have hopens : ∀ (p : List LogEntry) (b : TxnBuilder) (c : OrderedDict ThreadKey (StreamKey ι)),
      Wf (insert (.line i) seen) { (s.closeInto ⟨entryServer e, e.thread, reqUser e, none⟩) with
        heap := (s.closeInto ⟨entryServer e, e.thread, reqUser e, none⟩).heap.set (.line i) b
        pendingReqs := p
        openByKey := (s.closeInto ⟨entryServer e, e.thread, reqUser e, none⟩).openByKey.set
          ⟨entryServer e, e.thread, reqUser e, none⟩ (.line i)
        currentByThread := c } := by
    intro p b c
    obtain ⟨h1, hh, h2⟩ := wf_alloc (wf_pending hc p) hi b
    exact wf_setSlot h1 _ (Set.mem_insert _ _) hh (Or.inr h2) (fun j hj => by cases hj) c
  exact hopens _ _ _

/-- A response to an open stream keeps a state well formed. -/
theorem wf_answerBuilder (hw : Wf seen s) (e : LogEntry) {k : StreamKey ι} {r : BuilderRef ι}
    (hk : (k, r) ∈ s.openByKey.items) : Wf seen (s.answerBuilder k e) := by
  have hg := OrderedDict.get?_eq_some.mpr hk
  rw [answerBuilder_eq e hg]
  have h1 := (frame_closeInto hw k).wf hw
  have h2 := (frame_modify (s.closeInto k) r (f := (·.add e)) (fun _ => rfl)).wf h1
  refine (frame_rememberClosed _ e ?_).wf h2
  show r ∈ (s.closeInto k).outRefs
  rw [closeInto_of_get? s k r hg, outRefs_giveBack]
  exact List.mem_append_right _ (List.mem_singleton_self r)

/-- **A response** keeps a state well formed. -/
theorem wf_response (hw : Wf seen s) (hi : BuilderRef.line i ∉ seen) (e : LogEntry) :
    Wf (insert (.line i) seen) (s.response i e) := by
  have hroute := responseRoute s i e
  generalize s.response i e = s' at hroute
  cases hroute with
  | builder k r hk =>
      exact (wf_answerBuilder hw e (candidates_slot hk).1).mono (Set.subset_insert _ _)
  | request req hreq =>
      obtain ⟨h1, hh, h2⟩ := wf_alloc (wf_pending hw
        (s.pendingReqs.eraseP (fun r => decide (r.id = req.id)))) hi
        { entries := [req, e], openPos := streamPos req }
      have h3 := wf_giveBack h1 (Set.mem_insert _ _) hh h2
      unfold answerRequest
      simp only
      obtain ⟨rc, he, hrc⟩ := rememberClosed_eq
        ({ s with
            pendingReqs := s.pendingReqs.eraseP (fun r => decide (r.id = req.id))
            heap := s.heap.set (.line i) { entries := [req, e], openPos := streamPos req } })
        (entryServer e, req.thread, reqUser req) (.line i) e
      rw [he]
      refine { h3 with closedOut := ?_ }
      intro p hp
      rw [outRefs_giveBack]
      rcases hrc p hp with hold | hnew
      · exact List.mem_append_left _ (hw.closedOut p hold)
      · exact List.mem_append_right _ (by rw [hnew]; exact List.mem_singleton_self _)
  | orphan =>
      obtain ⟨h1, hh, h2⟩ := wf_alloc hw hi { entries := [e], openPos := streamPos e }
      exact wf_giveBack h1 (Set.mem_insert _ _) hh h2

/-- A stamped response keeps a state well formed. -/
theorem wf_closeStamped (hw : Wf seen s) (hi : BuilderRef.line i ∉ seen) (e : LogEntry)
    (rid : String) : Wf (insert (.line i) seen) (s.closeStamped i e rid) := by
  cases h : s.openByReqid.get? (entryServer e, rid) with
  | some r =>
      obtain ⟨s', hs', -⟩ := closeIdBuilder_some h
      obtain ⟨head, -, heq⟩ := closeStamped_some i hs'
      rw [heq]
      have h1 := (frame_closeIdBuilder hw h hs').wf hw
      have h2 := (frame_modify (s'.giveBack r) r (f := (·.add e)) (fun _ => rfl)).wf h1
      refine ((frame_rememberClosed _ e ?_).wf h2).mono (Set.subset_insert _ _)
      show r ∈ (s'.giveBack r).outRefs
      rw [outRefs_giveBack]
      exact List.mem_append_right _ (List.mem_singleton_self r)
  | none =>
      rw [closeStamped_none i h]
      obtain ⟨h1, hh, h2⟩ := wf_alloc hw hi { entries := [e], openPos := streamPos e }
      have h3 := wf_giveBack h1 (Set.mem_insert _ _) hh h2
      refine (frame_rememberClosed _ e ?_).wf h3
      rw [outRefs_giveBack]
      exact List.mem_append_right _ (List.mem_singleton_self _)

/-- The conversation a stamped line joins: registered, stamped, and known. -/
theorem wf_stampedBuilder (hw : Wf seen s) (hi : BuilderRef.line i ∉ seen) (srv rid : String)
    (e : LogEntry) :
    Wf (insert (.line i) seen) (s.stampedBuilder i srv rid e).2
      ∧ ((srv, rid), (s.stampedBuilder i srv rid e).1)
          ∈ (s.stampedBuilder i srv rid e).2.openByReqid.items := by
  unfold stampedBuilder
  cases h : s.openByReqid.get? (srv, rid) with
  | some r => exact ⟨hw.mono (Set.subset_insert _ _), OrderedDict.get?_eq_some.mp h⟩
  | none =>
      obtain ⟨h1, hh, h2⟩ := wf_alloc hw hi { openPos := streamPos e, reqid := some rid }
      refine ⟨wf_register h1 _ (Set.mem_insert _ _) hh h2 ?_,
        OrderedDict.mem_set.mpr (Or.inl ⟨rfl, rfl⟩)⟩
      show isIdBuilder (builder _ _) = true
      unfold builder
      rw [OrderedDict.get?_set_self]
      rfl

/-- Absorbing a stream keeps a state well formed. -/
theorem wf_absorb (hw : Wf seen s) (r : BuilderRef ι) (k : StreamKey ι) :
    Wf seen (s.absorb r k) := by
  unfold absorb
  split
  · rename_i p hp
    split
    · have h1 := (frame_modify s r (f := fun b =>
        { b with entries := b.entries ++ (s.builder p).entries
                 openPos := absorbedPos b.openPos (s.builder p).openPos }) (fun _ => rfl)).wf hw
      have hf : Frame (s.modify r fun b =>
          { b with entries := b.entries ++ (s.builder p).entries
                   openPos := absorbedPos b.openPos (s.builder p).openPos })
          { (s.modify r fun b =>
            { b with entries := b.entries ++ (s.builder p).entries
                     openPos := absorbedPos b.openPos (s.builder p).openPos }) with
            openByKey := s.openByKey.erase k } :=
        ⟨fun _ h => h, fun _ _ => Iff.rfl, fun q hq => (List.mem_filter.mp hq).1, fun _ h => h,
          fun _ hr => hr, fun _ hr => Or.inl hr, fun _ hp => Or.inl hp⟩
      exact hf.wf h1
    · exact hw
  · exact hw

@[simp] theorem absorb_openByReqid (r : BuilderRef ι) (k : StreamKey ι) :
    (s.absorb r k).openByReqid = s.openByReqid := by
  unfold absorb
  split
  · split <;> rfl
  · rfl

/-- **A stamped line** keeps a state well formed. -/
theorem wf_joinStamped (hw : Wf seen s) (hi : BuilderRef.line i ∉ seen) (e : LogEntry)
    (rid : String) : Wf (insert (.line i) seen) (s.joinStamped i e rid) := by
  obtain ⟨h1, h2⟩ := wf_stampedBuilder hw hi (entryServer e) rid e
  have h3 := wf_absorb h1 (s.stampedBuilder i (entryServer e) rid e).1
    (stampedKey (entryServer e) e)
  rw [← absorb_openByReqid (s.stampedBuilder i (entryServer e) rid e).1
    (stampedKey (entryServer e) e)] at h2
  have h4 := wf_setSlot h3 (stampedKey (entryServer e) e) (h3.known _ (reachable_of_id h2))
    (h3.inHeap _ (reachable_of_id h2))
    (Or.inl (h3.idsStamped _ h2)) (fun j hj => by cases hj)
    ((s.stampedBuilder i (entryServer e) rid e).2.absorb
      (s.stampedBuilder i (entryServer e) rid e).1
      (stampedKey (entryServer e) e) |>.currentByThread.set
        (stampedKey (ι := ι) (entryServer e) e).threadKey (stampedKey (entryServer e) e))
  exact (frame_modify _ _ (f := (·.add e)) (fun _ => rfl)).wf h4

/-- **One line**, whatever it is, keeps a state well formed. -/
theorem wf_route (hw : Wf seen s) (hi : BuilderRef.line i ∉ seen) (e : LogEntry) :
    Wf (insert (.line i) seen) (s.route i e) := by
  unfold route
  cases s.routedId e with
  | some rid =>
      simp only
      split
      · exact wf_closeStamped hw hi e rid
      · exact wf_joinStamped hw hi e rid
  | none =>
      simp only
      cases e.entryType with
      | request => exact (wf_pending hw _).mono (Set.subset_insert _ _)
      | requestBody => exact wf_requestBody hw hi e
      | response => exact wf_response hw hi e
      | miCall | miResult | sql | info | error => exact wf_work hw hi e

/-- **One line keeps the invariant.** -/
theorem wf_step (hw : Wf seen s) (hi : BuilderRef.line i ∉ seen) (gap : Duration) (e : LogEntry) :
    Wf (insert (.line i) seen) (s.step gap i e) :=
  wf_route (wf_swept hw gap e) hi e

end Route

end GroupState

end RagPipeline.Stage2
