/-
  RagPipeline.Stage2.GrouperBooks — the lines the grouper still refers to.

  `content` is the multiset of lines that an index, the pool of requests or the result refers to, each
  builder counted ONCE however many indexes it is in.  One line moves the books by exactly itself:

    * the sweep moves builders from the indexes to the result and changes nothing (`content_swept`);
    * every route of an unstamped line, and of a stamped response, adds the line (`content_work`,
      `content_requestBody`, `content_response`, `content_closeStamped`);
    * a stamped line that claims a slot adds itself, and loses what it displaces unless the displaced
      builder is absorbed or is still referred to by something else (`content_joinStamped`).

  The second half says that no builder in the heap is empty (`filled_step`), so that what is lost is
  never nothing.
-/
import Mathlib.Algebra.BigOperators.Group.Finset.Basic
import Mathlib.Tactic.Abel
import RagPipeline.Stage2.GrouperInvariant

namespace RagPipeline.Stage2

open RagPipeline.Lib

namespace GroupState

variable {ι : Type} [DecidableEq ι]

/-! ## §1. The books. -/

/-- Every line that something still refers to, each builder counted once. -/
def content (s : GroupState ι) : Multiset LogEntry :=
  (∑ r ∈ s.reachable, ((s.builder r).entries : Multiset LogEntry))
    + (s.pendingReqs : Multiset LogEntry) + (s.lones : Multiset LogEntry)

/-- No builder is empty, but for the one that is being opened. -/
def FilledBut (s : GroupState ι) (r : BuilderRef ι) : Prop :=
  ∀ r' ∈ s.heap.keys, r' ≠ r → (s.builder r').entries ≠ []

/-- No builder is empty. -/
def Filled (s : GroupState ι) : Prop := ∀ r ∈ s.heap.keys, (s.builder r).entries ≠ []

/-- The books of a state whose builders did not change. -/
theorem content_congr {s s' : GroupState ι} (hr : s'.reachable = s.reachable)
    (hb : ∀ r ∈ s.reachable, (s'.builder r).entries = (s.builder r).entries)
    (hp : (s'.pendingReqs : Multiset LogEntry) + (s'.lones : Multiset LogEntry)
      = (s.pendingReqs : Multiset LogEntry) + (s.lones : Multiset LogEntry)) :
    s'.content = s.content := by
  unfold content
  rw [hr, add_assoc, add_assoc, hp]
  congr 1
  refine Finset.sum_congr rfl (fun r h => ?_)
  rw [hb r h]

/-- A builder takes more lines. -/
theorem content_modify {s : GroupState ι} {r : BuilderRef ι} {f : TxnBuilder → TxnBuilder}
    {l : List LogEntry} (h : r ∈ s.reachable) (hf : ∀ b, (f b).entries = b.entries ++ l) :
    (s.modify r f).content = s.content + (l : Multiset LogEntry) := by
  have hsum : ∑ x ∈ s.reachable, (((s.modify r f).builder x).entries : Multiset LogEntry)
      = (∑ x ∈ s.reachable, ((s.builder x).entries : Multiset LogEntry))
        + (l : Multiset LogEntry) := by
    rw [← Finset.add_sum_erase _ _ h, ← Finset.add_sum_erase _ _ h, builder_modify, if_pos rfl, hf,
      ← Multiset.coe_add, add_right_comm]
    congr 2
    refine Finset.sum_congr rfl (fun x hx => ?_)
    rw [builder_modify, if_neg (Finset.ne_of_mem_erase hx)]
  show (∑ x ∈ s.reachable, (((s.modify r f).builder x).entries : Multiset LogEntry))
      + (s.pendingReqs : Multiset LogEntry) + (s.lones : Multiset LogEntry) = _
  rw [hsum]
  unfold content
  rw [add_right_comm _ (l : Multiset LogEntry), add_right_comm _ (l : Multiset LogEntry)]

/-- A builder that nothing referred to comes in. -/
theorem content_insert {s s' : GroupState ι} {r : BuilderRef ι}
    (hr : s'.reachable = insert r s.reachable) (hnew : r ∉ s.reachable)
    (hb : ∀ x ∈ s.reachable, (s'.builder x).entries = (s.builder x).entries)
    (hl : s'.lones = s.lones) :
    s'.content + (s.pendingReqs : Multiset LogEntry)
      = s.content + ((s'.builder r).entries : Multiset LogEntry)
        + (s'.pendingReqs : Multiset LogEntry) := by
  unfold content
  rw [hr, Finset.sum_insert hnew, hl, Finset.sum_congr rfl (fun x hx => by rw [hb x hx])]
  abel

/-- A builder that nothing refers to any more goes out. -/
theorem content_erase {s s' : GroupState ι} {p : BuilderRef ι}
    (hr : s.reachable = insert p s'.reachable) (hgone : p ∉ s'.reachable)
    (hheap : s'.heap = s.heap) (hp : s'.pendingReqs = s.pendingReqs) (hl : s'.lones = s.lones) :
    s'.content + ((s.builder p).entries : Multiset LogEntry) = s.content := by
  have hb : ∀ x, s'.builder x = s.builder x := fun x => by unfold builder; rw [hheap]
  unfold content
  rw [hr, Finset.sum_insert hgone, hp, hl, Finset.sum_congr rfl (fun x _ => by rw [hb x])]
  abel

/-! ## §2. What the operations refer to. -/

/-- `close` moves a builder from the indexes to the result. -/
theorem reachable_closeInto (s : GroupState ι) (k : StreamKey ι) :
    (s.closeInto k).reachable = s.reachable := by
  cases hk : s.openByKey.get? k with
  | none => rw [closeInto_of_none s k hk]
  | some r =>
      have hm := OrderedDict.get?_eq_some.mp hk
      have hout : (((s.releaseSlot k).forgetId r).giveBack r).outRefs = s.outRefs ++ [r] := by
        rw [outRefs_giveBack]
        simp [outRefs, forgetId]
      -- one builder moves from its slot into the result
      rw [closeInto_of_get? s k r hk]
      ext x
      rw [mem_reachable, mem_reachable, hout]
      simp only [giveBack, forgetId, releaseSlot_openByKey, releaseSlot_openByReqid,
        OrderedDict.items_filterItems, List.mem_filter, List.mem_append, List.mem_singleton,
        OrderedDict.mem_erase, decide_eq_true_eq]
      constructor
      · rintro (⟨k', h, -⟩ | ⟨k', h, -⟩ | h | h)
        · exact Or.inl ⟨k', h⟩
        · exact Or.inr (Or.inl ⟨k', h⟩)
        · exact Or.inr (Or.inr h)
        · exact Or.inl ⟨k, h ▸ hm⟩
      · intro h
        by_cases hx : x = r
        · exact Or.inr (Or.inr (Or.inr hx))
        · rcases h with ⟨k', h⟩ | ⟨k', h⟩ | h
          · refine Or.inl ⟨k', h, fun he => hx ?_⟩
            subst he
            exact s.openByKey.mem_unique h hm
          · exact Or.inr (Or.inl ⟨k', h, hx⟩)
          · exact Or.inr (Or.inr (Or.inl h))

/-- A builder whose id is dropped is out instead. -/
theorem reachable_popIdInto (s : GroupState ι) (k : String × String) :
    (s.popIdInto k).reachable = s.reachable := by
  unfold popIdInto
  cases hk : s.openByReqid.get? k with
  | none => rfl
  | some r =>
      have hm := OrderedDict.get?_eq_some.mp hk
      have hout : ({ s with openByReqid := s.openByReqid.erase k }.giveBack r).outRefs
          = s.outRefs ++ [r] := outRefs_giveBack _ _
      ext x
      rw [mem_reachable, mem_reachable, hout]
      simp only [giveBack, OrderedDict.mem_erase, List.mem_append, List.mem_singleton]
      constructor
      · rintro (h | ⟨k', h, -⟩ | h | h)
        · exact Or.inl h
        · exact Or.inr (Or.inl ⟨k', h⟩)
        · exact Or.inr (Or.inr h)
        · exact Or.inr (Or.inl ⟨k, h ▸ hm⟩)
      · intro h
        by_cases hx : x = r
        · exact Or.inr (Or.inr (Or.inr hx))
        · rcases h with h | ⟨k', h⟩ | h
          · exact Or.inl h
          · refine Or.inr (Or.inl ⟨k', h, fun he => hx ?_⟩)
            subst he
            exact s.openByReqid.mem_unique h hm
          · exact Or.inr (Or.inr (Or.inl h))

/-- A builder that is closed by its id and given back stays reachable. -/
theorem reachable_closeIdBuilder {s s' : GroupState ι} {srv rid : String} {r : BuilderRef ι}
    (h : s.openByReqid.get? (srv, rid) = some r)
    (hc : s.closeIdBuilder srv rid = (some r, s')) : (s'.giveBack r).reachable = s.reachable := by
  obtain ⟨s1, he, -, hb, hids, -, -, hslots⟩ := closeIdBuilder_some h
  have hs : s1 = s' := by rw [he] at hc; exact (Prod.mk.inj hc).2
  subst hs
  have hm := OrderedDict.get?_eq_some.mp h
  have hout : (s1.giveBack r).outRefs = s.outRefs ++ [r] := by
    rw [outRefs_giveBack]
    unfold outRefs
    rw [hb]
  -- the builder leaves its id and its slots and is in the result instead; nothing else moves
  ext x
  rw [mem_reachable, mem_reachable, hout]
  show (∃ k, (k, x) ∈ s1.openByKey.items) ∨ (∃ k, (k, x) ∈ s1.openByReqid.items) ∨ _ ↔ _
  rw [hids]
  simp only [hslots, OrderedDict.mem_erase, List.mem_append, List.mem_singleton]
  constructor
  · rintro (⟨k', h, -⟩ | ⟨k', h, -⟩ | h | h)
    · exact Or.inl ⟨k', h⟩
    · exact Or.inr (Or.inl ⟨k', h⟩)
    · exact Or.inr (Or.inr h)
    · exact Or.inr (Or.inl ⟨_, h ▸ hm⟩)
  · intro h
    by_cases hx : x = r
    · exact Or.inr (Or.inr (Or.inr hx))
    · rcases h with ⟨k', h⟩ | ⟨k', h⟩ | h
      · exact Or.inl ⟨k', h, hx⟩
      · refine Or.inr (Or.inl ⟨k', h, fun he => hx ?_⟩)
        subst he
        exact s.openByReqid.mem_unique h hm
      · exact Or.inr (Or.inr (Or.inl h))

/-- A builder on a free slot. -/
theorem reachable_setFreeSlot {s : GroupState ι} {k : StreamKey ι} (r : BuilderRef ι)
    (hk : s.openByKey.get? k = none) (h : OrderedDict (BuilderRef ι) TxnBuilder)
    (c : OrderedDict ThreadKey (StreamKey ι)) (p : List LogEntry) :
    ({ s with heap := h, openByKey := s.openByKey.set k r, currentByThread := c,
              pendingReqs := p } : GroupState ι).reachable = insert r s.reachable := by
  have hitems := OrderedDict.items_set_of_not_mem s.openByKey r (OrderedDict.get?_eq_none.mp hk)
  ext x
  rw [Finset.mem_insert, mem_reachable, mem_reachable]
  show (∃ k', (k', x) ∈ (s.openByKey.set k r).items) ∨ _ ∨ _ ↔ _
  rw [hitems]
  simp only [List.mem_append, List.mem_singleton, Prod.mk.injEq]
  constructor
  · rintro (⟨k', h | ⟨-, h⟩⟩ | h | h)
    · exact Or.inr (Or.inl ⟨k', h⟩)
    · exact Or.inl h
    · exact Or.inr (Or.inr (Or.inl h))
    · exact Or.inr (Or.inr (Or.inr h))
  · rintro (h | ⟨k', h⟩ | h | h)
    · exact Or.inl ⟨k, Or.inr ⟨rfl, h⟩⟩
    · exact Or.inl ⟨k', Or.inl h⟩
    · exact Or.inr (Or.inl h)
    · exact Or.inr (Or.inr h)

/-- One builder more is reachable. -/
theorem reachable_giveBack (s : GroupState ι) (r : BuilderRef ι) :
    (s.giveBack r).reachable = insert r s.reachable := by
  ext x
  rw [Finset.mem_insert, mem_reachable, mem_reachable, outRefs_giveBack]
  show (∃ k', (k', x) ∈ s.openByKey.items) ∨ (∃ k', (k', x) ∈ s.openByReqid.items) ∨ _ ↔ _
  simp only [List.mem_append, List.mem_singleton]
  tauto

/-! ## §3. The pool of pending requests. -/

/-- What is taken out of a pool and what is left make up the pool. -/
def Takes (pending : List LogEntry) (taken : Taken) : Prop :=
  ∀ req rest, taken = some (req, rest) → pending.Perm (req :: rest)

/-- The first line that fits is one line less in the pool. -/
theorem takes_popFirst (p : LogEntry → Bool) (l : List LogEntry) : Takes l (popFirst? p l) :=
  fun _ _ h => (popFirst?_perm h).2

/-- The last line that fits is one line less in the pool. -/
theorem takes_popLast (p : LogEntry → Bool) (l : List LogEntry) : Takes l (popLast? p l) :=
  fun _ _ h => (popLast?_perm h).2

/-- No line, no loss. -/
theorem takes_none (l : List LogEntry) : Takes l none := fun _ _ h => by cases h

/-- A take by preference is one line less in the pool. -/
theorem takes_preferred (l : List LogEntry) (pool : LogEntry → Bool)
    (prefs : List (LogEntry → Bool)) : Takes l (takePreferred l pool prefs) := by
  intro req rest h
  obtain ⟨accept, -, ha⟩ := List.exists_of_findSome?_eq_some h
  exact (popLast?_perm ha).2

/-- A take by id is one line less in the pool. -/
theorem takes_byReqid (l : List LogEntry) (rid : Option String) (srv : String) :
    Takes l (takeByReqid l rid srv) := by
  unfold takeByReqid
  cases rid with
  | none => exact takes_none l
  | some rid => exact takes_popFirst _ l

/-- A take by user is one line less in the pool. -/
theorem takes_byUser (l : List LogEntry) (u : Option User) (srv : String) (th : Option String) :
    Takes l (takeByUser l u srv th) := by
  unfold takeByUser
  split
  · exact takes_preferred l _ _
  · exact takes_none l

/-- An anonymous take is one line less in the pool. -/
theorem takes_anonymous (l : List LogEntry) (srv : String) (th : Option String) :
    Takes l (takeAnonymousRequest l srv th) := by
  unfold takeAnonymousRequest
  split
  · exact takes_popLast _ l
  · exact takes_none l

/-- The first of two takes is one of them. -/
theorem takes_or {l : List LogEntry} {t t' : Taken} (h : Takes l t) (h' : Takes l t') :
    Takes l (t.or t') := by
  intro req rest he
  cases t with
  | none => exact h' req rest he
  | some q => exact h req rest he

/-- A request moves from the pool into a builder. -/
theorem content_bind {s : GroupState ι} {r : BuilderRef ι} {taken : Taken}
    (hr : r ∈ s.reachable) (ht : Takes s.pendingReqs taken) :
    (s.bind r taken).content = s.content := by
  unfold bind
  cases taken with
  | none => rfl
  | some q =>
      obtain ⟨req, rest⟩ := q
      have hperm := ht req rest rfl
      have hmod : ({ s with pendingReqs := rest }.modify r fun b =>
          { b.add req with openPos := streamPos req }).content
          = ({ s with pendingReqs := rest } : GroupState ι).content + ([req] : List LogEntry) :=
        content_modify hr (fun _ => rfl)
      show ({ s with pendingReqs := rest }.modify r fun b =>
          { b.add req with openPos := streamPos req }).content = _
      rw [hmod]
      have hcoe : (s.pendingReqs : Multiset LogEntry)
          = (rest : Multiset LogEntry) + ([req] : List LogEntry) := by
        rw [Multiset.coe_add]
        exact Multiset.coe_eq_coe.mpr (hperm.trans (List.perm_append_singleton req rest).symm)
      unfold content
      rw [hcoe]
      show (∑ x ∈ s.reachable, ((s.builder x).entries : Multiset LogEntry))
        + (rest : Multiset LogEntry) + (s.lones : Multiset LogEntry) + _ = _
      abel

@[simp] theorem bind_reachable (s : GroupState ι) (r : BuilderRef ι) (taken : Taken) :
    (s.bind r taken).reachable = s.reachable := by
  unfold bind
  cases taken with
  | none => rfl
  | some q => rfl

/-! ## §4. The sweep. -/

theorem content_closeInto (s : GroupState ι) (k : StreamKey ι) :
    (s.closeInto k).content = s.content := by
  refine content_congr (reachable_closeInto s k) ?_ ?_
  · intro r _
    simp [builder]
  · rw [closeInto_pendingReqs, closeInto_lones]

/-- Dropping an id moves no line out of the books. -/
theorem content_popIdInto (s : GroupState ι) (k : String × String) :
    (s.popIdInto k).content = s.content := by
  refine content_congr (reachable_popIdInto s k) ?_ ?_
  · intro r _
    simp [builder]
  · rw [popIdInto_pendingReqs, popIdInto_lones]

/-- Reporting old requests moves no line out of the books. -/
theorem content_evictPending (s : GroupState ι) (horizon : Instant) :
    (s.evictPending horizon).content = s.content := by
  refine content_congr ?_ (fun _ _ => rfl) ?_
  · unfold reachable
    rw [outRefs_evictPending]
    rfl
  · have hl : (s.evictPending horizon).lones
        = s.lones ++ s.pendingReqs.filter (fun r => olderThan horizon r.timestamp) := by
      simp [lones, evictPending, List.filterMap_append, List.filterMap_map, Function.comp_def,
        Returned.line?]
    rw [hl]
    show ((s.pendingReqs.filter fun r => !olderThan horizon r.timestamp : List LogEntry) :
      Multiset LogEntry) + _ = _
    rw [Multiset.coe_add, Multiset.coe_add, Multiset.coe_eq_coe]
    have hp := List.filter_append_perm (fun r : LogEntry => olderThan horizon r.timestamp)
      s.pendingReqs
    -- the old requests stand behind the returned lines, in front of them they complete the pool
    have hswap : (s.lones ++ s.pendingReqs.filter (fun r => olderThan horizon r.timestamp)).Perm
        (s.pendingReqs.filter (fun r => olderThan horizon r.timestamp) ++ s.lones) :=
      List.perm_append_comm
    refine (hswap.append_left _).trans ?_
    rw [← List.append_assoc]
    exact (List.perm_append_comm.trans hp).append_right s.lones

/-- The sweep loses no line. -/
theorem content_swept (s : GroupState ι) (gap : Duration) (e : LogEntry) :
    (s.swept gap e).content = s.content := by
  have hslots : ∀ (ks : List (StreamKey ι)) (s : GroupState ι),
      (ks.foldl closeInto s).content = s.content := by
    intro ks
    induction ks with
    | nil => intro s; rfl
    | cons k ks ih => intro s; exact (ih _).trans (content_closeInto s k)
  have hids : ∀ (ks : List (String × String)) (s : GroupState ι),
      (ks.foldl popIdInto s).content = s.content := by
    intro ks
    induction ks with
    | nil => intro s; rfl
    | cons k ks ih => intro s; exact (ih _).trans (content_popIdInto s k)
  unfold swept
  cases e.timestamp with
  | none => rfl
  | some now =>
      show (evictPending _ _).content = _
      rw [content_evictPending]
      exact (hids _ _).trans (hslots _ _)

/-! ## §5. One line. -/

section Route

variable {seen : Set (BuilderRef ι)} {s : GroupState ι} {i : ι}

/-- A request line waits in the pool. -/
theorem content_request (e : LogEntry) :
    ({ s with pendingReqs := s.pendingReqs ++ [e] } : GroupState ι).content
      = s.content + ([e] : List LogEntry) := by
  show (∑ r ∈ s.reachable, ((s.builder r).entries : Multiset LogEntry))
    + ((s.pendingReqs ++ [e] : List LogEntry) : Multiset LogEntry) + (s.lones : Multiset LogEntry) = _
  rw [← Multiset.coe_add]
  unfold content
  abel

/-- A new, empty builder on a free slot. -/
theorem content_openSlot (hw : Wf seen s) (hi : BuilderRef.line i ∉ seen) {k : StreamKey ι}
    (hk : s.openByKey.get? k = none) (e : LogEntry) :
    (s.openSlot i k e).content = s.content
      ∧ (s.openSlot i k e).reachable = insert (.line i) s.reachable := by
  have hreach : (s.openSlot i k e).reachable = insert (.line i) s.reachable :=
    reachable_setFreeSlot _ hk _ _ _
  have hnew : BuilderRef.line i ∉ s.reachable := fun h => hi (hw.known _ h)
  have hne : ∀ x ∈ s.reachable, x ≠ .line i := fun x hx he => hnew (he ▸ hx)
  have hb : ∀ r, (s.openSlot i k e).builder r
      = if r = .line i then { openPos := streamPos e } else s.builder r := fun r => getD_set _ _ _ _
  have hbooks := content_insert hreach hnew (fun x hx => by
    rw [hb, if_neg (hne x hx)]) rfl
  rw [hb, if_pos rfl] at hbooks
  have hzero : (s.openSlot i k e).content + (s.pendingReqs : Multiset LogEntry)
      = s.content + (s.pendingReqs : Multiset LogEntry) := by
    rw [hbooks]
    show s.content + 0 + _ = _
    rw [add_zero]
    rfl
  exact ⟨add_right_cancel hzero, hreach⟩

/-- The slot of an anonymous stream is free. -/
theorem anon_slot_free (hw : Wf seen s) (hi : BuilderRef.line i ∉ seen) {k : StreamKey ι}
    (hk : k.anon = some i) : s.openByKey.get? k = none := by
  rw [OrderedDict.get?_eq_none]
  intro hm
  obtain ⟨p, hp, rfl⟩ := List.mem_map.mp hm
  exact hi (hw.anonKnown p hp i hk)

/-- **A work line** adds itself to the books, and nothing else. -/
theorem content_work (hw : Wf seen s) (hi : BuilderRef.line i ∉ seen) (e : LogEntry) :
    (s.work i e).content = s.content + ([e] : List LogEntry) := by
  have hroute := workRoute s i e
  unfold work
  generalize s.workTarget i e = w at hroute
  -- a line that has a target leaves the books alone until it is added
  have htarget : ∀ r, w.1 = some r →
      w.2.content = s.content ∧ r ∈ w.2.reachable := by
    intro r hr
    cases hroute with
    | own u r' hu hk =>
        have he : r' = r := Option.some.inj hr
        subst he
        exact ⟨rfl, reachable_of_slot (s := s) (OrderedDict.get?_eq_some.mp hk)⟩
    | fresh u rc hu hk hrc =>
        have he : BuilderRef.line i = r := Option.some.inj hr
        subst he
        obtain ⟨h1, h2⟩ := content_openSlot (wf_dropClosed hw hrc) hi hk e
        exact ⟨h1, by rw [h2]; exact Finset.mem_insert_self _ _⟩
    | late u r' t hu hrc => cases hr
    | inherited k r' hu hc hk =>
        have he : r' = r := Option.some.inj hr
        subst he
        exact ⟨rfl, reachable_of_slot (OrderedDict.get?_eq_some.mp hk)⟩
    | anonymous hu =>
        have he : BuilderRef.line i = r := Option.some.inj hr
        subst he
        obtain ⟨h1, h2⟩ := content_openSlot hw hi
          (anon_slot_free (k := ⟨entryServer e, e.thread, none, some i⟩) hw hi rfl) e
        have hmem : BuilderRef.line i
            ∈ (s.openSlot i ⟨entryServer e, e.thread, none, some i⟩ e).reachable := by
          rw [h2]
          exact Finset.mem_insert_self _ _
        refine ⟨(content_bind hmem (takes_anonymous _ _ _)).trans h1, ?_⟩
        rw [bind_reachable]
        exact hmem
  rcases w with ⟨_ | r, s'⟩
  · -- the line rejoined a conversation that has been returned
    cases hroute with
    | late u r t hu hrc =>
        exact content_modify (reachable_of_out (hw.closedOut _ hrc)) (fun _ => rfl)
  · have h1 : s'.content = s.content := (htarget r rfl).1
    have h2 : r ∈ s'.reachable := (htarget r rfl).2
    have hadd : (s'.modify r (·.add e)).content = s.content + ([e] : List LogEntry) := by
      rw [content_modify h2 (fun _ => rfl), h1]
    simp only
    split
    · have h3 : r ∈ (s'.modify r (·.add e)).reachable := h2
      rw [content_bind h3 (takes_byUser _ _ _ _)]
      exact hadd
    · exact hadd

/-- **A body** adds itself; the request it takes from the pool is in the books already. -/
theorem content_requestBody (hw : Wf seen s) (hi : BuilderRef.line i ∉ seen) (e : LogEntry) :
    (s.requestBody i e).content = s.content + ([e] : List LogEntry) := by
  have hc := (frame_closeInto hw ⟨entryServer e, e.thread, reqUser e, none⟩).wf hw
  rw [← content_closeInto s ⟨entryServer e, e.thread, reqUser e, none⟩]
  have hfree : (s.closeInto ⟨entryServer e, e.thread, reqUser e, none⟩).openByKey.get?
      ⟨entryServer e, e.thread, reqUser e, none⟩ = none := by
    rw [closeInto_openByKey, OrderedDict.get?_erase_self]
  unfold requestBody
  simp only
  generalize s.closeInto ⟨entryServer e, e.thread, reqUser e, none⟩ = s1 at hc hfree ⊢
  -- a claimed request is one that waited
  have htakes : Takes s1.pendingReqs ((takeByReqid s1.pendingReqs (entryReqid e)
      (entryServer e)).or (takePostRequest s1.pendingReqs (entryServer e) e.thread (reqUser e))) :=
    takes_or (takes_byReqid _ _ _) (takes_preferred _ _ _)
  generalize (takeByReqid s1.pendingReqs (entryReqid e) (entryServer e)).or
    (takePostRequest s1.pendingReqs (entryServer e) e.thread (reqUser e)) = taken at htakes ⊢
  have hnew : BuilderRef.line i ∉ s1.reachable := fun h => hi (hc.known _ h)
  have hne : ∀ x ∈ s1.reachable, x ≠ .line i := fun x hx he => hnew (he ▸ hx)
  -- what the new builder and the waiting list hold together is what waited, and the line
  have key : ∀ (b : TxnBuilder) (rest : List LogEntry) (c : OrderedDict ThreadKey (StreamKey ι)),
      (b.entries : Multiset LogEntry) + (rest : Multiset LogEntry)
        = (s1.pendingReqs : Multiset LogEntry) + ([e] : List LogEntry) →
      ({ s1 with
          heap := s1.heap.set (.line i) b
          openByKey := s1.openByKey.set ⟨entryServer e, e.thread, reqUser e, none⟩ (.line i)
          currentByThread := c
          pendingReqs := rest } : GroupState ι).content = s1.content + ([e] : List LogEntry) := by
    intro b rest c hb
    have hbuild : ∀ r, ({ s1 with
          heap := s1.heap.set (.line i) b
          openByKey := s1.openByKey.set ⟨entryServer e, e.thread, reqUser e, none⟩ (.line i)
          currentByThread := c
          pendingReqs := rest } : GroupState ι).builder r
        = if r = .line i then b else s1.builder r := fun r => getD_set _ _ _ _
    have hbooks := content_insert (reachable_setFreeSlot (.line i) hfree (s1.heap.set (.line i) b)
      c rest) hnew (fun x hx => by rw [hbuild, if_neg (hne x hx)]) rfl
    rw [hbuild, if_pos rfl, add_assoc, hb] at hbooks
    refine add_right_cancel (hbooks.trans ?_)
    abel
  cases taken with
  | none =>
      refine key _ _ _ ?_
      show (([e] : List LogEntry) : Multiset LogEntry) + _ = _
      rw [add_comm]
  | some q =>
      obtain ⟨req, rest⟩ := q
      refine key _ _ _ ?_
      have hperm := htakes req rest rfl
      show (([req, e] : List LogEntry) : Multiset LogEntry) + (rest : Multiset LogEntry) = _
      rw [Multiset.coe_add, Multiset.coe_add, Multiset.coe_eq_coe]
      refine List.Perm.trans ?_ (hperm.append_right [e]).symm
      have hswap : ([e] ++ rest).Perm (rest ++ [e]) := List.perm_append_comm
      exact hswap.cons req

/-- Remembering what was closed moves no line. -/
theorem content_rememberClosed (k : ClosedKey) (r : BuilderRef ι) (e : LogEntry) :
    (s.rememberClosed k r e).content = s.content := by
  obtain ⟨rc, he, -⟩ := s.rememberClosed_eq k r e
  rw [he]
  rfl

/-- A response to an open stream adds itself. -/
theorem content_answerBuilder {k : StreamKey ι} {r : BuilderRef ι} (e : LogEntry)
    (hk : (k, r) ∈ s.openByKey.items) :
    (s.answerBuilder k e).content = s.content + ([e] : List LogEntry) := by
  rw [answerBuilder_eq e (OrderedDict.get?_eq_some.mpr hk), content_rememberClosed,
    content_modify ?_ (fun _ => rfl), content_closeInto]
  rw [reachable_closeInto]
  exact reachable_of_slot hk

/-- A new builder that is returned at once. -/
theorem content_returnNew (hw : Wf seen s) (hi : BuilderRef.line i ∉ seen) (b : TxnBuilder)
    (rest : List LogEntry) :
    (({ s with heap := s.heap.set (.line i) b, pendingReqs := rest } : GroupState ι).giveBack
        (.line i)).content + (s.pendingReqs : Multiset LogEntry)
      = s.content + (b.entries : Multiset LogEntry) + (rest : Multiset LogEntry) := by
  have hnew : BuilderRef.line i ∉ s.reachable := fun h => hi (hw.known _ h)
  have hne : ∀ x ∈ s.reachable, x ≠ .line i := fun x hx he => hnew (he ▸ hx)
  have hbuild : ∀ r, (({ s with heap := s.heap.set (.line i) b, pendingReqs := rest } :
      GroupState ι).giveBack (.line i)).builder r = if r = .line i then b else s.builder r :=
    fun r => getD_set _ _ _ _
  have hbooks := content_insert (s := s)
    (reachable_giveBack ({ s with heap := s.heap.set (.line i) b, pendingReqs := rest }) (.line i))
    hnew (fun x hx => by rw [hbuild, if_neg (hne x hx)])
    (lones_giveBack _ _)
  rw [hbuild, if_pos rfl] at hbooks
  exact hbooks

/-- A response to a waiting request adds itself; the request leaves the pool for its builder. -/
theorem content_answerRequest (hw : Wf seen s) (hi : BuilderRef.line i ∉ seen) {req : LogEntry}
    (e : LogEntry) (hreq : req ∈ s.pendingReqs) (hids : (s.pendingReqs.map (·.id)).Nodup) :
    (s.answerRequest i req e).content = s.content + ([e] : List LogEntry) := by
  have hperm : s.pendingReqs.Perm
      (req :: s.pendingReqs.eraseP (fun r => decide (r.id = req.id))) := by
    obtain ⟨a, l₁, l₂, -, ha, hl, her⟩ := List.exists_of_eraseP
      (p := fun r => decide (r.id = req.id)) hreq (by simp)
    have hae : a = req := by
      have ha' : a.id = req.id := by simpa using ha
      exact List.inj_on_of_nodup_map hids (by rw [hl]; simp) hreq ha'
    rw [her, hl, hae]
    exact List.perm_middle
  have hbooks := content_returnNew hw hi { entries := [req, e], openPos := streamPos req }
    (s.pendingReqs.eraseP (fun r => decide (r.id = req.id)))
  unfold answerRequest
  simp only
  obtain ⟨rc, he, -⟩ := rememberClosed_eq
    ({ s with
        pendingReqs := s.pendingReqs.eraseP (fun r => decide (r.id = req.id))
        heap := s.heap.set (.line i) { entries := [req, e], openPos := streamPos req } })
    (entryServer e, req.thread, reqUser req) (.line i) e
  rw [he]
  refine add_right_cancel (Eq.trans hbooks ?_)
  rw [add_assoc, add_assoc]
  congr 1
  rw [Multiset.coe_add, Multiset.coe_add, Multiset.coe_eq_coe]
  show (req :: e :: s.pendingReqs.eraseP (fun r => decide (r.id = req.id))).Perm
    (e :: s.pendingReqs)
  exact (List.Perm.swap e req _).trans (hperm.symm.cons e)

/-- A response to nothing adds itself. -/
theorem content_orphan (hw : Wf seen s) (hi : BuilderRef.line i ∉ seen) (e : LogEntry) :
    (s.orphan i e).content = s.content + ([e] : List LogEntry) :=
  add_right_cancel
    (content_returnNew hw hi { entries := [e], openPos := streamPos e } s.pendingReqs)

/-- **A response** adds itself. -/
theorem content_response (hw : Wf seen s) (hi : BuilderRef.line i ∉ seen) (e : LogEntry)
    (hids : (s.pendingReqs.map (·.id)).Nodup) :
    (s.response i e).content = s.content + ([e] : List LogEntry) := by
  have hroute := responseRoute s i e
  generalize s.response i e = s' at hroute
  cases hroute with
  | builder k r hk => exact content_answerBuilder e (candidates_slot hk).1
  | request req hreq => exact content_answerRequest hw hi e (candidates_request hreq).1 hids
  | orphan => exact content_orphan hw hi e

/-- A stamped response adds itself to the builder it closes. -/
theorem content_closeStamped (hw : Wf seen s) (hi : BuilderRef.line i ∉ seen) (e : LogEntry)
    (rid : String) :
    (s.closeStamped i e rid).content = s.content + ([e] : List LogEntry) := by
  cases h : s.openByReqid.get? (entryServer e, rid) with
  | some r =>
      obtain ⟨s', hs', hheap, hb, -, -, hp, -⟩ := closeIdBuilder_some h
      obtain ⟨head, -, heq⟩ := closeStamped_some i hs'
      have hreach := reachable_closeIdBuilder h hs'
      rw [heq, content_rememberClosed, content_modify ?_ (fun _ => rfl)]
      · congr 1
        refine content_congr hreach (fun x _ => ?_) ?_
        · unfold builder giveBack
          rw [hheap]
        · rw [lones_giveBack]
          unfold lones
          rw [hb]
          show (s'.pendingReqs : Multiset LogEntry) + _ = _
          rw [hp]
      · rw [hreach]
        exact reachable_of_id (OrderedDict.get?_eq_some.mp h)
  | none =>
      rw [closeStamped_none i h, content_rememberClosed]
      exact content_orphan hw hi e

/-! ## §6. A stamped line and the slot it claims. -/

/-- The conversation of a stamped line enters the books empty. -/
theorem content_stampedBuilder (hw : Wf seen s) (hi : BuilderRef.line i ∉ seen) (srv rid : String)
    (e : LogEntry) :
    (s.stampedBuilder i srv rid e).2.content = s.content
      ∧ (s.stampedBuilder i srv rid e).2.openByKey = s.openByKey
      ∧ (s.stampedBuilder i srv rid e).2.outRefs = s.outRefs
      ∧ (∀ r ∈ s.reachable,
          (s.stampedBuilder i srv rid e).2.builder r = s.builder r)
      ∧ (∀ r ∈ s.reachable,
          r ∈ (s.stampedBuilder i srv rid e).2.openByReqid.values ↔ r ∈ s.openByReqid.values) := by
  unfold stampedBuilder
  cases h : s.openByReqid.get? (srv, rid) with
  | some r => exact ⟨rfl, rfl, rfl, fun _ _ => rfl, fun _ _ => Iff.rfl⟩
  | none =>
      have hnew : BuilderRef.line i ∉ s.reachable := fun h => hi (hw.known _ h)
      have hne : ∀ x ∈ s.reachable, x ≠ .line i := fun x hx he => hnew (he ▸ hx)
      have hitems := OrderedDict.items_set_of_not_mem s.openByReqid (BuilderRef.line i)
        (OrderedDict.get?_eq_none.mp h)
      have hb : ∀ r, ({ s with
            heap := s.heap.set (.line i) { openPos := streamPos e, reqid := some rid }
            openByReqid := s.openByReqid.set (srv, rid) (.line i) } : GroupState ι).builder r
          = if r = .line i then { openPos := streamPos e, reqid := some rid } else s.builder r :=
        fun r => getD_set _ _ _ _
      have hreach : ({ s with
            heap := s.heap.set (.line i) { openPos := streamPos e, reqid := some rid }
            openByReqid := s.openByReqid.set (srv, rid) (.line i) } : GroupState ι).reachable
          = insert (.line i) s.reachable := by
        ext x
        rw [Finset.mem_insert, mem_reachable, mem_reachable]
        show (∃ k', (k', x) ∈ s.openByKey.items)
          ∨ (∃ k', (k', x) ∈ (s.openByReqid.set (srv, rid) (.line i)).items) ∨ x ∈ s.outRefs ↔ _
        rw [hitems]
        simp only [List.mem_append, List.mem_singleton, Prod.mk.injEq]
        constructor
        · rintro (h | ⟨k', h | ⟨-, h⟩⟩ | h)
          · exact Or.inr (Or.inl h)
          · exact Or.inr (Or.inr (Or.inl ⟨k', h⟩))
          · exact Or.inl h
          · exact Or.inr (Or.inr (Or.inr h))
        · rintro (h | h | ⟨k', h⟩ | h)
          · exact Or.inr (Or.inl ⟨(srv, rid), Or.inr ⟨rfl, h⟩⟩)
          · exact Or.inl h
          · exact Or.inr (Or.inl ⟨k', Or.inl h⟩)
          · exact Or.inr (Or.inr h)
      -- one more builder can be reached, and it holds nothing yet
      have hbooks := content_insert hreach hnew (fun x hx => by rw [hb, if_neg (hne x hx)]) rfl
      rw [hb, if_pos rfl] at hbooks
      refine ⟨add_right_cancel (hbooks.trans ?_), rfl, rfl, ?_, ?_⟩
      · show s.content + 0 + _ = _
        rw [add_zero]
      · intro r hr
        rw [hb, if_neg (hne r hr)]
      · intro r hr
        show r ∈ (s.openByReqid.set (srv, rid) (.line i)).values ↔ _
        unfold OrderedDict.values
        rw [hitems, List.map_append, List.mem_append]
        have hnot : r ∉ [((srv, rid), BuilderRef.line i)].map Prod.snd := by
          simpa using hne r hr
        tauto

/-- A slot is given to a builder that is known already: what it held before may be lost. -/
theorem reachable_setSlot {k : StreamKey ι} {p r : BuilderRef ι}
    (hk : s.openByKey.get? k = some p) (hr : r ∈ s.reachable)
    (c : OrderedDict ThreadKey (StreamKey ι)) :
    insert p ({ s with openByKey := s.openByKey.set k r, currentByThread := c } :
        GroupState ι).reachable = s.reachable
      ∧ (p ∈ ({ s with openByKey := s.openByKey.set k r, currentByThread := c } :
          GroupState ι).reachable ↔ p = r ∨ (∃ k', k' ≠ k ∧ (k', p) ∈ s.openByKey.items)
            ∨ p ∈ s.openByReqid.values ∨ p ∈ s.outRefs) := by
  have hm := OrderedDict.get?_eq_some.mp hk
  -- after the claim the slot refers to the new builder alone
  have hmem : ∀ x, x ∈ ({ s with openByKey := s.openByKey.set k r, currentByThread := c } :
      GroupState ι).reachable ↔ x = r ∨ (∃ k', k' ≠ k ∧ (k', x) ∈ s.openByKey.items)
        ∨ x ∈ s.openByReqid.values ∨ x ∈ s.outRefs := by
    intro x
    rw [mem_reachable, OrderedDict.mem_values]
    show (∃ k', (k', x) ∈ (s.openByKey.set k r).items) ∨ _ ∨ _ ↔ _
    simp only [OrderedDict.mem_set]
    constructor
    · rintro (⟨k', ⟨-, h⟩ | ⟨hne, h⟩⟩ | h | h)
      · exact Or.inl h
      · exact Or.inr (Or.inl ⟨k', hne, h⟩)
      · exact Or.inr (Or.inr (Or.inl h))
      · exact Or.inr (Or.inr (Or.inr h))
    · rintro (h | ⟨k', hne, h⟩ | h | h)
      · exact Or.inl ⟨k, Or.inl ⟨rfl, h⟩⟩
      · exact Or.inl ⟨k', Or.inr ⟨hne, h⟩⟩
      · exact Or.inr (Or.inl h)
      · exact Or.inr (Or.inr h)
  refine ⟨?_, hmem p⟩
  ext x
  rw [Finset.mem_insert, hmem]
  constructor
  · rintro (h | h | ⟨k', -, h⟩ | h | h)
    · exact h ▸ reachable_of_slot hm
    · exact h ▸ hr
    · exact reachable_of_slot h
    · obtain ⟨k', h⟩ := OrderedDict.mem_values.mp h
      exact reachable_of_id h
    · exact reachable_of_out h
  · intro h
    rcases mem_reachable.mp h with ⟨k', h⟩ | h | h
    · by_cases he : k' = k
      · subst he
        exact Or.inl (s.openByKey.mem_unique h hm)
      · exact Or.inr (Or.inr (Or.inl ⟨k', he, h⟩))
    · exact Or.inr (Or.inr (Or.inr (Or.inl (OrderedDict.mem_values.mpr h))))
    · exact Or.inr (Or.inr (Or.inr (Or.inr h)))

/-- Headless work moves into the conversation; its slot is free afterwards. -/
theorem content_absorb (hw : Wf seen s) {r p : BuilderRef ι} {k : StreamKey ι}
    (hr : r ∈ s.reachable) (hk : s.openByKey.get? k = some p) (hne : p ≠ r)
    (hh : headless (s.builder p) = true) :
    (s.absorb r k).content = s.content ∧ (s.absorb r k).openByKey.get? k = none
      ∧ r ∈ (s.absorb r k).reachable := by
  have hm := OrderedDict.get?_eq_some.mp hk
  have huns : ¬ s.Stamped p := by
    unfold headless at hh
    unfold Stamped
    rw [Bool.and_eq_true] at hh
    simpa using hh.1
  have heq : s.absorb r k = { (s.modify r fun b =>
      { b with entries := b.entries ++ (s.builder p).entries
               openPos := absorbedPos b.openPos (s.builder p).openPos }) with
      openByKey := s.openByKey.erase k } := by
    unfold absorb
    simp only [hk]
    rw [if_pos (by simp [hne, hh])]
    rfl
  -- an unstamped builder is reachable through this slot only
  have hgone : p ∉ (s.absorb r k).reachable := by
    rw [heq, mem_reachable]
    rintro (⟨k', h⟩ | ⟨k', h⟩ | h)
    · obtain ⟨h1, h2⟩ := OrderedDict.mem_erase.mp h
      exact h2 (hw.oneSlot _ _ _ h1 hm huns)
    · exact huns (hw.idsStamped _ h)
    · exact hw.slotOpen _ _ hm huns h
  have hreach : (s.modify r fun b =>
      { b with entries := b.entries ++ (s.builder p).entries
               openPos := absorbedPos b.openPos (s.builder p).openPos }).reachable
      = insert p (s.absorb r k).reachable := by
    rw [heq]
    ext x
    rw [Finset.mem_insert, mem_reachable, mem_reachable]
    show (∃ k', (k', x) ∈ s.openByKey.items) ∨ (∃ k', (k', x) ∈ s.openByReqid.items)
        ∨ x ∈ s.outRefs ↔ x = p ∨ (∃ k', (k', x) ∈ (s.openByKey.erase k).items)
        ∨ (∃ k', (k', x) ∈ s.openByReqid.items) ∨ x ∈ s.outRefs
    constructor
    · rintro (⟨k', h⟩ | h | h)
      · by_cases he : k' = k
        · subst he
          exact Or.inl (s.openByKey.mem_unique h hm)
        · exact Or.inr (Or.inl ⟨k', OrderedDict.mem_erase.mpr ⟨h, he⟩⟩)
      · exact Or.inr (Or.inr (Or.inl h))
      · exact Or.inr (Or.inr (Or.inr h))
    · rintro (h | ⟨k', h⟩ | h | h)
      · exact Or.inl ⟨k, h ▸ hm⟩
      · exact Or.inl ⟨k', (OrderedDict.mem_erase.mp h).1⟩
      · exact Or.inr (Or.inl h)
      · exact Or.inr (Or.inr h)
  refine ⟨?_, ?_, ?_⟩
  · have h1 := content_erase hreach hgone (by rw [heq]) (by rw [heq]) (by rw [heq]; rfl)
    rw [content_modify hr (fun _ => rfl), builder_modify, if_neg hne] at h1
    exact add_right_cancel h1
  · rw [heq]
    exact OrderedDict.get?_erase_self _ _
  · have hr' : r ∈ insert p (s.absorb r k).reachable := hreach ▸ hr
    rcases Finset.mem_insert.mp hr' with h | h
    · exact absurd h.symm hne
    · exact h

/-- Nothing is absorbed. -/
theorem absorb_eq_self {r : BuilderRef ι} {k : StreamKey ι}
    (h : ∀ p, s.openByKey.get? k = some p → p = r ∨ headless (s.builder p) = false) :
    s.absorb r k = s := by
  unfold absorb
  split
  · rename_i p hp
    rw [if_neg]
    rcases h p hp with h | h <;> simp [h]
  · rfl

/-- A slot gives up headless work, or nothing. -/
theorem absorb_cases (s : GroupState ι) (r : BuilderRef ι) (k : StreamKey ι) :
    (∃ p, s.openByKey.get? k = some p ∧ (p ≠ r && headless (s.builder p)) = true
      ∧ s.absorb r k = { (s.modify r fun b =>
            { b with entries := b.entries ++ (s.builder p).entries
                     openPos := absorbedPos b.openPos (s.builder p).openPos }) with
          openByKey := s.openByKey.erase k })
      ∨ s.absorb r k = s := by
  unfold absorb
  cases s.openByKey.get? k with
  | none => exact Or.inr rfl
  | some p =>
      by_cases hh : (p ≠ r && headless (s.builder p)) = true
      · exact Or.inl ⟨p, rfl, hh, if_pos hh⟩
      · exact Or.inr (if_neg hh)

/-- **The builder a stamped line finds on its slot is not lost**: it is headless work, which the
    conversation absorbs, or something else still refers to it. -/
def KeepsDisplaced (s : GroupState ι) (e : LogEntry) : Prop :=
  ∀ p, s.openByKey.get? (stampedKey (entryServer e) e) = some p →
    headless (s.builder p) = true
      ∨ (∃ k', k' ≠ stampedKey (entryServer e) e ∧ (k', p) ∈ s.openByKey.items)
      ∨ p ∈ s.openByReqid.values ∨ p ∈ s.outRefs

/-- A slot is given to a builder, and is the current stream of its thread. -/
abbrev claimSlot (s : GroupState ι) (k : StreamKey ι) (r : BuilderRef ι) : GroupState ι :=
  { s with openByKey := s.openByKey.set k r, currentByThread := s.currentByThread.set k.threadKey k }

/-- Who claims a slot then takes a line: the line comes to the books. -/
theorem content_claimSlot_add {s s1 : GroupState ι} {k : StreamKey ι} {r : BuilderRef ι} {e : LogEntry}
    {lost : Multiset LogEntry} (h : (s.claimSlot k r).content + lost = s1.content) :
    ((s.claimSlot k r).modify r (·.add e)).content + lost = s1.content + ([e] : List LogEntry) := by
  rw [content_modify (reachable_of_slot (OrderedDict.mem_set.mpr (Or.inl ⟨rfl, rfl⟩)))
    (fun _ => rfl), ← h]
  abel

/-- A free slot that is given to an open builder. -/
theorem content_claimSlot_free {s : GroupState ι} {k : StreamKey ι} {r : BuilderRef ι}
    (hk : s.openByKey.get? k = none) (hr : r ∈ s.reachable) : (s.claimSlot k r).content = s.content := by
  refine content_congr ?_ (fun _ _ => rfl) rfl
  exact (reachable_setFreeSlot r hk s.heap _ s.pendingReqs).trans (Finset.insert_eq_of_mem hr)

/-- What a stamped line does to the books: it is added, and what it displaces may be lost. -/
theorem content_joinStamped (hw : Wf seen s) (hf : s.Filled) (hi : BuilderRef.line i ∉ seen)
    (e : LogEntry) (rid : String) :
    ∃ lost : Multiset LogEntry,
      (s.joinStamped i e rid).content + lost = s.content + ([e] : List LogEntry)
        ∧ (s.KeepsDisplaced e ↔ lost = 0) := by
  obtain ⟨hw1, hid⟩ := wf_stampedBuilder hw hi (entryServer e) rid e
  obtain ⟨hc, hslots, hout, hbuild, hids⟩ := content_stampedBuilder hw hi (entryServer e) rid e
  have hjoin : s.joinStamped i e rid
      = (((s.stampedBuilder i (entryServer e) rid e).2.absorb
          (s.stampedBuilder i (entryServer e) rid e).1 (stampedKey (entryServer e) e)).claimSlot
            (stampedKey (entryServer e) e) (s.stampedBuilder i (entryServer e) rid e).1).modify
        (s.stampedBuilder i (entryServer e) rid e).1 (·.add e) := rfl
  unfold KeepsDisplaced
  rw [hjoin, ← hslots, ← hc, ← hout]
  generalize s.stampedBuilder i (entryServer e) rid e = q at *
  obtain ⟨r, s1⟩ := q
  simp only at *
  generalize stampedKey (entryServer e) e = k at *
  have hr : r ∈ s1.reachable := reachable_of_id hid
  cases hk : s1.openByKey.get? k with
  | none =>
      have habs : s1.absorb r k = s1 := absorb_eq_self (fun p hp => by rw [hk] at hp; cases hp)
      rw [habs]
      refine ⟨0, content_claimSlot_add ?_, ?_⟩
      · rw [add_zero]
        exact content_claimSlot_free hk hr
      · exact ⟨fun _ => rfl, fun _ p hp => by cases hp⟩
  | some p =>
      have hm := OrderedDict.get?_eq_some.mp hk
      have hp : p ∈ s.reachable := reachable_of_slot (hslots ▸ hm)
      have hbp := hbuild p hp
      by_cases hpr : p = r
      · -- the conversation holds the slot already
        have habs : s1.absorb r k = s1 :=
          absorb_eq_self (fun p' hp' => by rw [hk] at hp'; cases hp'; exact Or.inl hpr)
        rw [habs]
        refine ⟨0, content_claimSlot_add ?_, ?_⟩
        · rw [add_zero]
          refine content_congr ?_ (fun _ _ => rfl) rfl
          obtain ⟨h1, h2⟩ := reachable_setSlot hk hr (s1.currentByThread.set k.threadKey k)
          rw [← h1]
          exact (Finset.insert_eq_of_mem (h2.mpr (Or.inl hpr))).symm
        · refine ⟨fun _ => rfl, fun _ p' hp' => ?_⟩
          have he : p = p' := Option.some.inj hp'
          have hreg : p ∈ s1.openByReqid.values := hpr ▸ OrderedDict.mem_values.mpr ⟨_, hid⟩
          exact Or.inr (Or.inr (Or.inl (he ▸ (hids p hp).mp hreg)))
      · cases hh : headless (s.builder p) with
        | true =>
            obtain ⟨h1, h2, h3⟩ := content_absorb hw1 hr hk hpr (hbp ▸ hh)
            refine ⟨0, content_claimSlot_add ?_, ?_⟩
            · rw [add_zero, content_claimSlot_free h2 h3, h1]
            · refine ⟨fun _ => rfl, fun _ p' hp' => ?_⟩
              have he : p = p' := Option.some.inj hp'
              exact Or.inl (he ▸ hh)
        | false =>
            -- the builder on the slot is displaced
            have habs : s1.absorb r k = s1 := absorb_eq_self (fun p' hp' => by
              have he : p = p' := Option.some.inj (hk.symm.trans hp')
              exact Or.inr (he ▸ hbp ▸ hh))
            rw [habs]
            obtain ⟨h1, h2⟩ := reachable_setSlot hk hr (s1.currentByThread.set k.threadKey k)
            have hkeeps : (∀ p', some p = some p' → headless (s.builder p') = true
                ∨ (∃ k', k' ≠ k ∧ (k', p') ∈ s1.openByKey.items)
                ∨ p' ∈ s.openByReqid.values ∨ p' ∈ s1.outRefs)
                ↔ p ∈ (s1.claimSlot k r).reachable := by
              rw [h2, hids p hp]
              constructor
              · intro h
                rcases h p rfl with h | h
                · rw [hh] at h
                  cases h
                · exact Or.inr h
              · intro h p' hp'
                have he : p = p' := Option.some.inj hp'
                rcases h with h | h
                · exact absurd h hpr
                · exact Or.inr (he ▸ h)
            rw [hkeeps]
            by_cases hgone : p ∈ (s1.claimSlot k r).reachable
            · refine ⟨0, content_claimSlot_add ?_, by simp [hgone]⟩
              rw [add_zero]
              refine content_congr ?_ (fun _ _ => rfl) rfl
              rw [← h1]
              exact (Finset.insert_eq_of_mem hgone).symm
            · refine ⟨(s1.builder p).entries, content_claimSlot_add ?_, ?_⟩
              · exact content_erase h1.symm hgone rfl rfl rfl
              · have hne : (s1.builder p).entries ≠ [] := by
                  rw [hbp]
                  exact hf p (hw.inHeap p hp)
                simp [hgone, hne]

/-! ## §7. No builder is empty. -/

theorem filled_of_heap {s s' : GroupState ι} (hf : s.Filled) (h : s'.heap = s.heap) : s'.Filled := by
  intro r hr
  unfold builder
  rw [h]
  exact hf r (h ▸ hr)

/-- Only the heap matters. -/
theorem filledBut_of_heap {s s' : GroupState ι} {x : BuilderRef ι} (hf : s.FilledBut x)
    (h : s'.heap = s.heap) : s'.FilledBut x := by
  intro r hr hne
  unfold builder
  rw [h]
  exact hf r (h ▸ hr) hne

/-- One builder is written: the exempt one, or one that is not empty. -/
theorem filledBut_write {s s' : GroupState ι} {x r : BuilderRef ι} {b : TxnBuilder}
    (hf : s.FilledBut x) (h : s'.heap = s.heap.set r b) (hb : r = x ∨ b.entries ≠ []) :
    s'.FilledBut x := by
  intro r' hr' hne
  unfold builder
  rw [h, getD_set]
  by_cases he : r' = r
  · rw [if_pos he]
    rcases hb with hb | hb
    · exact absurd (he.trans hb) hne
    · exact hb
  · rw [if_neg he]
    rw [h] at hr'
    rcases OrderedDict.mem_keys_set.mp hr' with h' | h'
    · exact absurd h' he
    · exact hf r' h' hne

/-- The exempt builder is written, and is not empty any more. -/
theorem filled_write {s s' : GroupState ι} {r : BuilderRef ι} {b : TxnBuilder} (hf : s.FilledBut r)
    (h : s'.heap = s.heap.set r b) (hb : b.entries ≠ []) : s'.Filled := by
  intro r' hr'
  by_cases he : r' = r
  · unfold builder
    rw [h, getD_set, if_pos he]
    exact hb
  · exact filledBut_write hf h (Or.inl rfl) r' hr' he

/-- Nothing has to be left out. -/
theorem Filled.but (hf : s.Filled) (r : BuilderRef ι) : s.FilledBut r := fun r' hr' _ => hf r' hr'

/-- A line goes into the builder that is being opened, or into any other one. -/
theorem filled_add {r : BuilderRef ι} (hf : s.FilledBut r) (e : LogEntry) :
    (s.modify r (·.add e)).Filled :=
  filled_write hf rfl (by simp [TxnBuilder.add])

/-- A builder that takes a request is filled. -/
theorem filledBut_bind {x : BuilderRef ι} (hf : s.FilledBut x) (r : BuilderRef ι)
    (taken : Taken) : (s.bind r taken).FilledBut x := by
  unfold bind
  cases taken with
  | none => exact hf
  | some q => exact filledBut_write (s := s) hf rfl (Or.inr (by simp [TxnBuilder.add]))

/-- All builders are filled after a take. -/
theorem filled_bind (hf : s.Filled) (r : BuilderRef ι) (taken : Taken) :
    (s.bind r taken).Filled := by
  unfold bind
  cases taken with
  | none => exact hf
  | some q => exact filled_write (s := s) (hf.but r) rfl (by simp [TxnBuilder.add])

omit [DecidableEq ι] in
@[simp] theorem rememberClosed_heap (k : ClosedKey) (r : BuilderRef ι) (e : LogEntry) :
    (s.rememberClosed k r e).heap = s.heap := by
  unfold rememberClosed
  split <;> rfl

/-- **A work line** leaves no builder empty. -/
theorem filled_work (hf : s.Filled) (e : LogEntry) : (s.work i e).Filled := by
  have hroute := workRoute s i e
  unfold work
  generalize s.workTarget i e = w at hroute
  have htarget : ∀ r, w.1 = some r → w.2.FilledBut r := by
    intro r hr
    cases hroute with
    | own u r' hu hk => exact filledBut_of_heap (hf.but r) rfl
    | fresh u rc hu hk hrc =>
        have he : BuilderRef.line i = r := Option.some.inj hr
        exact filledBut_write (s := s) (hf.but r) rfl (Or.inl he)
    | late u r' t hu hrc => cases hr
    | inherited k r' hu hc hk => exact hf.but r
    | anonymous hu =>
        have he : BuilderRef.line i = r := Option.some.inj hr
        have hopen : (s.openSlot i ⟨entryServer e, e.thread, none, some i⟩ e).FilledBut r :=
          filledBut_write (s := s) (hf.but r) rfl (Or.inl he)
        exact filledBut_bind hopen _ _
  rcases w with ⟨_ | r, s'⟩
  · cases hroute with
    | late u r t hu hrc => exact filled_add (hf.but r) e
  · have hadd : (s'.modify r (·.add e)).Filled := filled_add (htarget r rfl) e
    simp only
    split
    · exact filled_bind hadd _ _
    · exact hadd

/-- **A body** leaves no builder empty. -/
theorem filled_requestBody (hf : s.Filled) (e : LogEntry) : (s.requestBody i e).Filled := by
  have hc := filled_of_heap hf (closeInto_heap s ⟨entryServer e, e.thread, reqUser e, none⟩)
  refine filled_write (hc.but (.line i)) rfl ?_
  split <;> simp

/-- **A response** leaves no builder empty. -/
theorem filled_response (hf : s.Filled) (e : LogEntry) : (s.response i e).Filled := by
  have hroute := responseRoute s i e
  generalize s.response i e = s' at hroute
  cases hroute with
  | builder k r hk =>
      have hg := OrderedDict.get?_eq_some.mpr (candidates_slot hk).1
      have hc := filled_of_heap hf (closeInto_heap s k)
      rw [answerBuilder_eq e hg]
      exact filled_of_heap (filled_add (hc.but r) e) (rememberClosed_heap _ _ _)
  | request req hreq =>
      refine filled_write (s := s) (hf.but (.line i)) ?_
        (b := { entries := [req, e], openPos := streamPos req }) (by simp)
      unfold answerRequest giveBack
      simp only [rememberClosed_heap]
  | orphan => exact filled_write (s := s) (hf.but (.line i)) rfl (by simp)

/-- A stamped response leaves no builder empty. -/
theorem filled_closeStamped (hf : s.Filled) (e : LogEntry) (rid : String) :
    (s.closeStamped i e rid).Filled := by
  cases h : s.openByReqid.get? (entryServer e, rid) with
  | some r =>
      obtain ⟨s', hs', hheap, -⟩ := closeIdBuilder_some h
      obtain ⟨head, -, heq⟩ := closeStamped_some i hs'
      rw [heq]
      have h1 : (s'.giveBack r).Filled := filled_of_heap hf hheap
      exact filled_of_heap (filled_add (h1.but r) e) (rememberClosed_heap _ _ _)
  | none =>
      rw [closeStamped_none i h]
      refine filled_write (s := s) (hf.but (.line i)) (rememberClosed_heap _ _ _) ?_
      simp

/-- A stamped line leaves no builder empty. -/
theorem filled_joinStamped (hf : s.Filled) (e : LogEntry) (rid : String) :
    (s.joinStamped i e rid).Filled := by
  have h1 : (s.stampedBuilder i (entryServer e) rid e).2.FilledBut
      (s.stampedBuilder i (entryServer e) rid e).1 := by
    unfold stampedBuilder
    cases s.openByReqid.get? (entryServer e, rid) with
    | some r => exact hf.but r
    | none => exact filledBut_write (s := s) (hf.but (.line i)) rfl (Or.inl rfl)
  have h2 : ((s.stampedBuilder i (entryServer e) rid e).2.absorb
      (s.stampedBuilder i (entryServer e) rid e).1 (stampedKey (entryServer e) e)).FilledBut
      (s.stampedBuilder i (entryServer e) rid e).1 := by
    unfold absorb
    split
    · split
      · exact filledBut_write h1 rfl (Or.inl rfl)
      · exact h1
    · exact h1
  exact filled_add (filledBut_of_heap h2 rfl) e

/-- **One step** of the grouper leaves none empty. -/
theorem filled_step (hf : s.Filled) (gap : Duration) (e : LogEntry) :
    (s.step gap i e).Filled := by
  have hs : (s.swept gap e).Filled := filled_of_heap hf (swept_heap s gap e)
  unfold step route
  cases (s.swept gap e).routedId e with
  | some rid =>
      simp only
      split
      · exact filled_closeStamped hs e rid
      · exact filled_joinStamped hs e rid
  | none =>
      simp only
      cases e.entryType with
      | request => exact filled_of_heap hs rfl
      | requestBody => exact filled_requestBody hs e
      | response => exact filled_response hs e
      | miCall | miResult | sql | info | error => exact filled_work hs e

end Route

end GroupState

end RagPipeline.Stage2
