/-
  RagPipeline.Stage2.ServerLocality — a line touches its own server only.

  All servers share one pass of the grouper and one set of dictionaries.  Every key carries its
  server, so the state falls into parts:

    * `Confined` — a slot, an id, a thread or a closed record of server `T` refers to builders of `T`,
      and a builder holds lines of its own server only;
    * `ServerStep T s s'` — `s'` is confined and differs from `s` in the part of `T` only.

  `serverStep_route` is the step lemma: routing a line of `T` is a `ServerStep T`.  The sweep is not:
  it runs on every server's clock, and is treated with the isolation theorem that uses this module.
-/
import RagPipeline.Stage2.GrouperInvariant

namespace RagPipeline.Stage2

open RagPipeline.Lib

namespace GroupState

variable {ι : Type} [DecidableEq ι] (serverOf : ι → String)

/-! ## §1. The parts of a state. -/

/-- The server of the line that opened a builder. -/
def refServer : BuilderRef ι → Option String
  | .seed _ => none
  | .line i => some (serverOf i)

/-- Every index, and every builder, keeps the servers apart. -/
structure Confined (s : GroupState ι) : Prop where
  slots : ∀ p ∈ s.openByKey.items, refServer serverOf p.2 = some p.1.server
  current : ∀ p ∈ s.currentByThread.items, p.2.threadKey = p.1
  ids : ∀ p ∈ s.openByReqid.items, refServer serverOf p.2 = some p.1.1
  closed : ∀ p ∈ s.recentlyClosed.items, refServer serverOf p.2.1 = some p.1.1
  lines : ∀ r, ∀ e ∈ (s.builder r).entries, refServer serverOf r = some (entryServer e)

/-- The part of a state that does not belong to server `T` is as it was. -/
structure LocalTo (T : String) (s s' : GroupState ι) : Prop where
  heap : ∀ r, refServer serverOf r ≠ some T → s'.builder r = s.builder r
  slots : s'.openByKey.filterKeys (fun k => decide (k.server ≠ T))
    = s.openByKey.filterKeys (fun k => decide (k.server ≠ T))
  current : s'.currentByThread.filterKeys (fun k => decide (k.1 ≠ T))
    = s.currentByThread.filterKeys (fun k => decide (k.1 ≠ T))
  ids : s'.openByReqid.filterKeys (fun k => decide (k.1 ≠ T))
    = s.openByReqid.filterKeys (fun k => decide (k.1 ≠ T))
  closed : s'.recentlyClosed.filterKeys (fun k => decide (k.1 ≠ T))
    = s.recentlyClosed.filterKeys (fun k => decide (k.1 ≠ T))
  pending : s'.pendingReqs.filter (fun e => decide (entryServer e ≠ T))
    = s.pendingReqs.filter (fun e => decide (entryServer e ≠ T))
  out : ∀ r, refServer serverOf r ≠ some T → (r ∈ s'.outRefs ↔ r ∈ s.outRefs)
  lones : s'.lones = s.lones

/-- A confined state that differs in the part of one server. -/
structure ServerStep (T : String) (s s' : GroupState ι) : Prop where
  confined : Confined serverOf s'
  loc : LocalTo serverOf T s s'

variable {serverOf} {T : String} {s s' s'' : GroupState ι}

theorem ServerStep.refl (h : Confined serverOf s) : ServerStep serverOf T s s :=
  ⟨h, fun _ _ => rfl, rfl, rfl, rfl, rfl, rfl, fun _ _ => Iff.rfl, rfl⟩

theorem ServerStep.trans (h : ServerStep serverOf T s s') (h' : ServerStep serverOf T s' s'') :
    ServerStep serverOf T s s'' := by
  refine ⟨h'.confined, ?_, ?_, ?_, ?_, ?_, ?_, ?_, ?_⟩
  · intro r hr
    rw [h'.loc.heap r hr, h.loc.heap r hr]
  · rw [h'.loc.slots, h.loc.slots]
  · rw [h'.loc.current, h.loc.current]
  · rw [h'.loc.ids, h.loc.ids]
  · rw [h'.loc.closed, h.loc.closed]
  · rw [h'.loc.pending, h.loc.pending]
  · intro r hr
    rw [h'.loc.out r hr, h.loc.out r hr]
  · rw [h'.loc.lones, h.loc.lones]

/-! ## §2. The single updates. -/

section Updates

variable (hc : Confined serverOf s) {r : BuilderRef ι} (hr : refServer serverOf r = some T)
include hc

include hr in
/-- A builder of the server is written. -/
theorem serverStep_heap (b : TxnBuilder) (hb : ∀ e ∈ b.entries, entryServer e = T) :
    ServerStep serverOf T s { s with heap := s.heap.set r b } := by
  have hbuild : ∀ x, ({ s with heap := s.heap.set r b } : GroupState ι).builder x
      = if x = r then b else s.builder x := fun x => getD_set _ _ _ _
  refine ⟨⟨hc.slots, hc.current, hc.ids, hc.closed, ?_⟩, ?_, rfl, rfl, rfl, rfl, rfl,
    fun _ _ => Iff.rfl, rfl⟩
  · intro x e he
    rw [hbuild] at he
    by_cases hx : x = r
    · rw [if_pos hx] at he
      rw [hx, hr, hb e he]
    · rw [if_neg hx] at he
      exact hc.lines x e he
  · intro x hx
    have hne : x ≠ r := fun he => hx (he ▸ hr)
    rw [hbuild, if_neg hne]

include hr in
/-- A builder of the server takes lines of the server. -/
theorem serverStep_modify {f : TxnBuilder → TxnBuilder} {l : List LogEntry}
    (hf : (f (s.builder r)).entries = (s.builder r).entries ++ l)
    (hl : ∀ e ∈ l, entryServer e = T) : ServerStep serverOf T s (s.modify r f) := by
  refine serverStep_heap hc hr _ (fun e he => ?_)
  rw [hf] at he
  rcases List.mem_append.mp he with h | h
  · have hs := hc.lines r e h
    rw [hr] at hs
    exact (Option.some.inj hs).symm
  · exact hl e h

include hr in
/-- A builder of the server takes one line of the server. -/
theorem serverStep_add {e : LogEntry} (he : entryServer e = T) :
    ServerStep serverOf T s (s.modify r (·.add e)) :=
  serverStep_modify hc hr (l := [e]) rfl (fun x hx => by rw [List.mem_singleton.mp hx, he])

theorem serverStep_eraseSlot {k : StreamKey ι} (hk : k.server = T) :
    ServerStep serverOf T s { s with openByKey := s.openByKey.erase k } := by
  refine ⟨⟨?_, hc.current, hc.ids, hc.closed, hc.lines⟩, fun _ _ => rfl, ?_, rfl, rfl, rfl, rfl,
    fun _ _ => Iff.rfl, rfl⟩
  · intro p hp
    exact hc.slots p (List.mem_filter.mp hp).1
  · exact OrderedDict.filterKeys_erase_of_not (by simp [hk])

theorem serverStep_releaseSlot {k : StreamKey ι} (hk : k.server = T) :
    ServerStep serverOf T s (s.releaseSlot k) := by
  -- the current stream of the thread goes only with this slot
  have hcur : (s.releaseSlot k).currentByThread = s.currentByThread
      ∨ (s.releaseSlot k).currentByThread = s.currentByThread.erase k.threadKey := by
    unfold releaseSlot dropCurrent
    split
    · exact Or.inr rfl
    · exact Or.inl rfl
  refine ⟨⟨?_, ?_, ?_, ?_, ?_⟩, ?_, ?_, ?_, ?_, ?_, ?_, ?_, ?_⟩
  · intro p hp
    rw [releaseSlot_openByKey] at hp
    exact hc.slots p (List.mem_filter.mp hp).1
  · intro p hp
    rcases hcur with h | h <;> rw [h] at hp
    · exact hc.current p hp
    · exact hc.current p (List.mem_filter.mp hp).1
  · intro p hp
    rw [releaseSlot_openByReqid] at hp
    exact hc.ids p hp
  · intro p hp
    rw [releaseSlot_recentlyClosed] at hp
    exact hc.closed p hp
  · intro x e he
    unfold builder at he
    rw [releaseSlot_heap] at he
    exact hc.lines x e he
  · intro x _
    unfold builder
    rw [releaseSlot_heap]
  · rw [releaseSlot_openByKey]
    exact OrderedDict.filterKeys_erase_of_not (by simp [hk])
  · rcases hcur with h | h <;> rw [h]
    exact OrderedDict.filterKeys_erase_of_not (by simp [StreamKey.threadKey, hk])
  · rw [releaseSlot_openByReqid]
  · rw [releaseSlot_recentlyClosed]
  · rw [releaseSlot_pendingReqs]
  · intro x _
    unfold outRefs
    rw [releaseSlot_builders]
  · unfold lones
    rw [releaseSlot_builders]

include hr in
theorem serverStep_forgetId : ServerStep serverOf T s (s.forgetId r) := by
  refine ⟨⟨hc.slots, hc.current, ?_, hc.closed, hc.lines⟩, fun _ _ => rfl, rfl, rfl, ?_, rfl, rfl,
    fun _ _ => Iff.rfl, rfl⟩
  · intro p hp
    exact hc.ids p (List.mem_filter.mp hp).1
  · refine OrderedDict.filterKeys_filterItems_of_all (fun p hp hpt => ?_)
    -- an id of another server is not registered for a builder of this one
    have hne : p.2 ≠ r := by
      intro he
      have hs := hc.ids p hp
      rw [he, hr] at hs
      have ht : T = p.1.1 := Option.some.inj hs
      simp [ht] at hpt
    simpa using hne

include hr in
theorem serverStep_giveBack : ServerStep serverOf T s (s.giveBack r) := by
  refine ⟨⟨hc.slots, hc.current, hc.ids, hc.closed, hc.lines⟩, fun _ _ => rfl, rfl, rfl, rfl, rfl,
    rfl, ?_, lones_giveBack s r⟩
  intro x hx
  have hne : x ≠ r := fun he => hx (he ▸ hr)
  rw [outRefs_giveBack, List.mem_append, List.mem_singleton]
  simp [hne]

include hr in
theorem serverStep_setSlot {k : StreamKey ι} (hk : k.server = T) :
    ServerStep serverOf T s { s with openByKey := s.openByKey.set k r } := by
  refine ⟨⟨?_, hc.current, hc.ids, hc.closed, hc.lines⟩, fun _ _ => rfl, ?_, rfl, rfl, rfl, rfl,
    fun _ _ => Iff.rfl, rfl⟩
  · rintro ⟨k', r'⟩ hp
    rcases OrderedDict.mem_set.mp hp with ⟨h1, h2⟩ | ⟨-, hm⟩
    · show refServer serverOf r' = some k'.server
      rw [h1, h2, hr, hk]
    · exact hc.slots _ hm
  · exact OrderedDict.filterKeys_set_of_not _ _ (by simp [hk])

theorem serverStep_setCurrent {k : StreamKey ι} (hk : k.server = T) :
    ServerStep serverOf T s
      { s with currentByThread := s.currentByThread.set k.threadKey k } := by
  refine ⟨⟨hc.slots, ?_, hc.ids, hc.closed, hc.lines⟩, fun _ _ => rfl, rfl, ?_, rfl, rfl, rfl,
    fun _ _ => Iff.rfl, rfl⟩
  · rintro ⟨t, k'⟩ hp
    rcases OrderedDict.mem_set.mp hp with ⟨h1, h2⟩ | ⟨-, hm⟩
    · show k'.threadKey = t
      rw [h1, h2]
    · exact hc.current _ hm
  · exact OrderedDict.filterKeys_set_of_not _ _ (by simp [StreamKey.threadKey, hk])

include hr in
theorem serverStep_setId (rid : String) :
    ServerStep serverOf T s { s with openByReqid := s.openByReqid.set (T, rid) r } := by
  refine ⟨⟨hc.slots, hc.current, ?_, hc.closed, hc.lines⟩, fun _ _ => rfl, rfl, rfl, ?_, rfl, rfl,
    fun _ _ => Iff.rfl, rfl⟩
  · rintro ⟨k', r'⟩ hp
    rcases OrderedDict.mem_set.mp hp with ⟨h1, h2⟩ | ⟨-, hm⟩
    · show refServer serverOf r' = some k'.1
      rw [h1, h2, hr]
    · exact hc.ids _ hm
  · exact OrderedDict.filterKeys_set_of_not _ _ (by simp)

theorem serverStep_eraseId (rid : String) :
    ServerStep serverOf T s { s with openByReqid := s.openByReqid.erase (T, rid) } := by
  refine ⟨⟨hc.slots, hc.current, ?_, hc.closed, hc.lines⟩, fun _ _ => rfl, rfl, rfl, ?_, rfl, rfl,
    fun _ _ => Iff.rfl, rfl⟩
  · intro p hp
    exact hc.ids p (List.mem_filter.mp hp).1
  · exact OrderedDict.filterKeys_erase_of_not (by simp)

include hr in
theorem serverStep_rememberClosed (k : ClosedKey) (hk : k.1 = T) (e : LogEntry) :
    ServerStep serverOf T s (s.rememberClosed k r e) := by
  unfold rememberClosed
  cases e.timestamp with
  | none => exact ServerStep.refl hc
  | some t =>
      refine ⟨⟨hc.slots, hc.current, hc.ids, ?_, hc.lines⟩, fun _ _ => rfl, rfl, rfl, rfl, ?_, rfl,
        fun _ _ => Iff.rfl, rfl⟩
      · rintro ⟨k', v'⟩ hp
        rcases OrderedDict.mem_set.mp hp with ⟨h1, h2⟩ | ⟨-, hm⟩
        · show refServer serverOf v'.1 = some k'.1
          rw [h1, h2, hr, hk]
        · exact hc.closed _ hm
      · exact OrderedDict.filterKeys_set_of_not _ _ (by simp [hk])

theorem serverStep_eraseClosed (k : ClosedKey) (hk : k.1 = T) :
    ServerStep serverOf T s { s with recentlyClosed := s.recentlyClosed.erase k } := by
  refine ⟨⟨hc.slots, hc.current, hc.ids, ?_, hc.lines⟩, fun _ _ => rfl, rfl, rfl, rfl, ?_, rfl,
    fun _ _ => Iff.rfl, rfl⟩
  · intro p hp
    exact hc.closed p (List.mem_filter.mp hp).1
  · exact OrderedDict.filterKeys_erase_of_not (by simp [hk])

theorem serverStep_pending {p : List LogEntry}
    (hp : p.filter (fun e => decide (entryServer e ≠ T))
      = s.pendingReqs.filter (fun e => decide (entryServer e ≠ T))) :
    ServerStep serverOf T s { s with pendingReqs := p } :=
  ⟨⟨hc.slots, hc.current, hc.ids, hc.closed, hc.lines⟩, fun _ _ => rfl, rfl, rfl, rfl, rfl, hp,
    fun _ _ => Iff.rfl, rfl⟩

end Updates

/-! ## §3. The operations of one line. -/

/-- A request that is taken is of the server, and the other servers' requests stay. -/
def TakesOf (T : String) (pending : List LogEntry) (taken : Taken) : Prop :=
  ∀ req rest, taken = some (req, rest) → entryServer req = T
    ∧ rest.filter (fun e => decide (entryServer e ≠ T))
      = pending.filter (fun e => decide (entryServer e ≠ T))

theorem takesOf_popFirst {l : List LogEntry} {p : LogEntry → Bool}
    (hp : ∀ e, p e = true → entryServer e = T) : TakesOf T l (popFirst? p l) := fun req rest h =>
  ⟨hp req (popFirst?_perm h).1, popFirst?_filter_of_not (fun a ha => by simp [hp a ha]) h⟩

theorem takesOf_popLast {l : List LogEntry} {p : LogEntry → Bool}
    (hp : ∀ e, p e = true → entryServer e = T) : TakesOf T l (popLast? p l) := fun req rest h =>
  ⟨hp req (popLast?_perm h).1, popLast?_filter_of_not (fun a ha => by simp [hp a ha]) h⟩

theorem takesOf_preferred {l : List LogEntry} {pool : LogEntry → Bool}
    (hp : ∀ e, pool e = true → entryServer e = T) (prefs : List (LogEntry → Bool)) :
    TakesOf T l (takePreferred l pool prefs) := by
  intro req rest h
  obtain ⟨accept, -, ha⟩ := List.exists_of_findSome?_eq_some h
  refine takesOf_popLast (fun e he => hp e ?_) req rest ha
  rw [Bool.and_eq_true] at he
  exact he.1

theorem takesOf_none (l : List LogEntry) : TakesOf T l none := fun _ _ h => by cases h

theorem takesOf_byReqid (l : List LogEntry) (rid : Option String) :
    TakesOf T l (takeByReqid l rid T) := by
  unfold takeByReqid
  cases rid with
  | none => exact takesOf_none l
  | some rid =>
      refine takesOf_popFirst (fun e he => ?_)
      rw [Bool.and_eq_true] at he
      simpa using he.1

theorem takesOf_postRequest (l : List LogEntry) (th : Option String) (u : Option User) :
    TakesOf T l (takePostRequest l T th u) := by
  refine takesOf_preferred (fun e he => ?_) _
  rw [Bool.and_eq_true] at he
  simpa using he.1

theorem takesOf_byUser (l : List LogEntry) (u : Option User) (th : Option String) :
    TakesOf T l (takeByUser l u T th) := by
  unfold takeByUser
  split
  · refine takesOf_preferred (fun e he => ?_) _
    rw [Bool.and_eq_true] at he
    simpa using he.1
  · exact takesOf_none l

theorem takesOf_anonymous (l : List LogEntry) (th : Option String) :
    TakesOf T l (takeAnonymousRequest l T th) := by
  unfold takeAnonymousRequest
  split
  · refine takesOf_popLast (fun e he => ?_)
    rw [Bool.and_eq_true, Bool.and_eq_true] at he
    simpa using he.1.1
  · exact takesOf_none l

theorem takesOf_or {l : List LogEntry} {t t' : Taken} (h : TakesOf T l t) (h' : TakesOf T l t') :
    TakesOf T l (t.or t') := by
  intro req rest he
  cases t with
  | none => exact h' req rest he
  | some q => exact h req rest he

section Ops

variable {i : ι} {e : LogEntry} (hc : Confined serverOf s) (hi : serverOf i = entryServer e)
include hc

theorem serverStep_closeInto {k : StreamKey ι} (hk : k.server = T) :
    ServerStep serverOf T s (s.closeInto k) := by
  cases hg : s.openByKey.get? k with
  | none =>
      rw [closeInto_of_none s k hg]
      exact ServerStep.refl hc
  | some r =>
      have hr : refServer serverOf r = some T :=
        hk ▸ hc.slots (k, r) (OrderedDict.get?_eq_some.mp hg)
      rw [closeInto_of_get? s k r hg]
      have h1 := serverStep_releaseSlot hc hk
      have h2 := serverStep_forgetId h1.confined hr
      exact h1.trans (h2.trans (serverStep_giveBack h2.confined hr))

theorem serverStep_bind {r : BuilderRef ι} (hr : refServer serverOf r = some T) {taken : Taken}
    (ht : TakesOf T s.pendingReqs taken) : ServerStep serverOf T s (s.bind r taken) := by
  unfold bind
  cases taken with
  | none => exact ServerStep.refl hc
  | some q =>
      obtain ⟨req, rest⟩ := q
      obtain ⟨h1, h2⟩ := ht req rest rfl
      have hp := serverStep_pending hc h2
      refine hp.trans (serverStep_modify hp.confined hr (l := [req]) rfl (fun x hx => ?_))
      rw [List.mem_singleton.mp hx]
      exact h1

include hi

theorem serverStep_openSlot {k : StreamKey ι} (hk : k.server = entryServer e) (e' : LogEntry) :
    ServerStep serverOf (entryServer e) s (s.openSlot i k e') := by
  have hr : refServer serverOf (.line i) = some (entryServer e) := congrArg some hi
  have h1 := serverStep_heap hc hr { openPos := streamPos e' } (fun x hx => by cases hx)
  have h2 := serverStep_setSlot h1.confined hr hk
  exact h1.trans (h2.trans (serverStep_setCurrent h2.confined hk))

theorem serverStep_work : ServerStep serverOf (entryServer e) s (s.work i e) := by
  have hline : refServer serverOf (.line i) = some (entryServer e) := congrArg some hi
  have hroute := workRoute s i e
  unfold work
  generalize s.workTarget i e = w at hroute
  have htarget : ServerStep serverOf (entryServer e) s w.2
      ∧ ∀ r, w.1 = some r → refServer serverOf r = some (entryServer e) := by
    -- each way to a target stays on the server of the line
    cases hroute with
    | own u r hu hk =>
        have hr := hc.slots _ (OrderedDict.get?_eq_some.mp hk)
        refine ⟨serverStep_setCurrent hc (k := ⟨entryServer e, e.thread, some u, none⟩) rfl,
          fun r' h => ?_⟩
        have he : r = r' := Option.some.inj h
        rw [← he, hr]
    | fresh u rc hu hk hrc =>
        have h0 : ServerStep serverOf (entryServer e) s { s with recentlyClosed := rc } := by
          rcases hrc with rfl | rfl
          · exact ServerStep.refl hc
          · exact serverStep_eraseClosed hc _ rfl
        refine ⟨h0.trans (serverStep_openSlot h0.confined hi rfl e), fun r h => ?_⟩
        have he : BuilderRef.line i = r := Option.some.inj h
        rw [← he, hline]
    | late u r t hu hrc =>
        have hr : refServer serverOf r = some (entryServer e) := hc.closed _ hrc
        exact ⟨serverStep_add hc hr rfl, fun r h => by cases h⟩
    | inherited k r hu hcur hk =>
        have hkey := hc.current _ (OrderedDict.get?_eq_some.mp hcur)
        have hsrv : k.server = entryServer e := congrArg Prod.fst hkey
        refine ⟨ServerStep.refl hc, fun r' h => ?_⟩
        have he : r = r' := Option.some.inj h
        rw [← he, hc.slots _ (OrderedDict.get?_eq_some.mp hk), hsrv]
    | anonymous hu =>
        have h1 := serverStep_openSlot hc hi (k := ⟨entryServer e, e.thread, none, some i⟩) rfl e
        refine ⟨h1.trans (serverStep_bind h1.confined hline (takesOf_anonymous _ _)), fun r h => ?_⟩
        have he : BuilderRef.line i = r := Option.some.inj h
        rw [← he, hline]
  -- the line is added there, and what it takes is bound
  obtain ⟨h1, h2⟩ := htarget
  rcases w with ⟨_ | r, s'⟩
  · exact h1
  · have hr := h2 r rfl
    have h3 : ServerStep serverOf (entryServer e) s' (s'.modify r (·.add e)) :=
      serverStep_add h1.confined hr rfl
    simp only
    split
    · exact h1.trans (h3.trans (serverStep_bind h3.confined hr (takesOf_byUser _ _ _)))
    · exact h1.trans h3

theorem serverStep_requestBody :
    ServerStep serverOf (entryServer e) s (s.requestBody i e) := by
  have hline : refServer serverOf (.line i) = some (entryServer e) := congrArg some hi
  have h1 := serverStep_closeInto hc (k := ⟨entryServer e, e.thread, reqUser e, none⟩)
    (T := entryServer e) rfl
  refine h1.trans ?_
  unfold requestBody
  simp only
  generalize s.closeInto ⟨entryServer e, e.thread, reqUser e, none⟩ = s1 at h1 ⊢
  have htakes : TakesOf (entryServer e) s1.pendingReqs
      ((takeByReqid s1.pendingReqs (entryReqid e) (entryServer e)).or
        (takePostRequest s1.pendingReqs (entryServer e) e.thread (reqUser e))) :=
    takesOf_or (takesOf_byReqid _ _) (takesOf_postRequest _ _ _)
  generalize (takeByReqid s1.pendingReqs (entryReqid e) (entryServer e)).or
    (takePostRequest s1.pendingReqs (entryServer e) e.thread (reqUser e)) = taken at htakes ⊢
  -- the pool, the new builder, its slot, the thread's current stream
  have key : ∀ (b : TxnBuilder) (rest : List LogEntry),
      (∀ x ∈ b.entries, entryServer x = entryServer e) →
      rest.filter (fun x => decide (entryServer x ≠ entryServer e))
        = s1.pendingReqs.filter (fun x => decide (entryServer x ≠ entryServer e)) →
      ServerStep serverOf (entryServer e) s1 { s1 with
        heap := s1.heap.set (.line i) b
        pendingReqs := rest
        openByKey := s1.openByKey.set ⟨entryServer e, e.thread, reqUser e, none⟩ (.line i)
        currentByThread := s1.currentByThread.set (entryServer e, e.thread)
          ⟨entryServer e, e.thread, reqUser e, none⟩ } := by
    intro b rest hb hrest
    have h2 := serverStep_pending h1.confined hrest
    have h3 := serverStep_heap h2.confined hline b hb
    have h4 := serverStep_setSlot h3.confined hline
      (k := ⟨entryServer e, e.thread, reqUser e, none⟩) rfl
    exact h2.trans (h3.trans (h4.trans (serverStep_setCurrent h4.confined
      (k := ⟨entryServer e, e.thread, reqUser e, none⟩) rfl)))
  cases taken with
  | none => exact key _ _ (fun x hx => by rw [List.mem_singleton.mp hx]) rfl
  | some q =>
      obtain ⟨req, rest⟩ := q
      obtain ⟨ht1, ht2⟩ := htakes req rest rfl
      refine key _ _ (fun x hx => ?_) ht2
      rcases List.mem_cons.mp hx with h | h
      · rw [h, ht1]
      · rw [List.mem_singleton.mp h]

/-- A new builder of the line that is returned at once. -/
theorem serverStep_returnNew (b : TxnBuilder) (hb : ∀ x ∈ b.entries, entryServer x = entryServer e) :
    ServerStep serverOf (entryServer e) s
      (({ s with heap := s.heap.set (.line i) b } : GroupState ι).giveBack (.line i)) := by
  have hline : refServer serverOf (.line i) = some (entryServer e) := congrArg some hi
  have h1 := serverStep_heap hc hline b hb
  exact h1.trans (serverStep_giveBack h1.confined hline)

theorem serverStep_response (hids : (s.pendingReqs.map (·.id)).Nodup) :
    ServerStep serverOf (entryServer e) s (s.response i e) := by
  have hline : refServer serverOf (.line i) = some (entryServer e) := congrArg some hi
  -- what the line joins is of its server, by the candidates, and so is all that is then written
  have hroute := responseRoute s i e
  generalize s.response i e = s' at hroute
  cases hroute with
  | builder k r hk =>
      obtain ⟨hm, hsrv, -⟩ := candidates_slot hk
      have hr : refServer serverOf r = some (entryServer e) := hsrv ▸ hc.slots _ hm
      rw [answerBuilder_eq e (OrderedDict.get?_eq_some.mpr hm)]
      have h1 := serverStep_closeInto hc hsrv
      have h2 := serverStep_add h1.confined hr (e := e) rfl
      exact h1.trans (h2.trans (serverStep_rememberClosed h2.confined hr _ hsrv e))
  | request req hreq =>
      obtain ⟨hm, hsrv⟩ := candidates_request hreq
      have hp := serverStep_pending hc (T := entryServer e)
        (p := s.pendingReqs.eraseP (fun r => decide (r.id = req.id)))
        (filter_eraseP_of_not (fun a ha hid => by
          have hae : a = req := List.inj_on_of_nodup_map hids ha hm (by simpa using hid)
          simp [hae, hsrv]))
      have h1 := serverStep_heap hp.confined hline { entries := [req, e], openPos := streamPos req }
        (fun x hx => by
          rcases List.mem_cons.mp hx with h | h
          · rw [h, hsrv]
          · rw [List.mem_singleton.mp h])
      have h2 := serverStep_rememberClosed h1.confined hline
        (entryServer e, req.thread, reqUser req) rfl e
      exact hp.trans (h1.trans (h2.trans (serverStep_giveBack h2.confined hline)))
  | orphan =>
      exact serverStep_returnNew hc hi _ (fun x hx => by rw [List.mem_singleton.mp hx])

omit hi in
theorem serverStep_foldl_releaseSlot {ks : List (StreamKey ι)} (hks : ∀ k ∈ ks, k.server = T) :
    ServerStep serverOf T s (ks.foldl releaseSlot s) := by
  induction ks generalizing s with
  | nil => exact ServerStep.refl hc
  | cons k ks ih =>
      have h1 := serverStep_releaseSlot hc (hks k List.mem_cons_self)
      exact h1.trans (ih h1.confined (fun k' hk' => hks k' (List.mem_cons_of_mem _ hk')))

omit hi in
theorem serverStep_closeIdBuilder {rid : String} {r : BuilderRef ι} {s' : GroupState ι}
    (hg : s.openByReqid.get? (T, rid) = some r) (h : s.closeIdBuilder T rid = (some r, s')) :
    ServerStep serverOf T s s' ∧ refServer serverOf r = some T := by
  have hr : refServer serverOf r = some T := hc.ids _ (OrderedDict.get?_eq_some.mp hg)
  unfold closeIdBuilder at h
  rw [hg] at h
  obtain ⟨-, rfl⟩ := Prod.mk.inj h
  have h1 := serverStep_eraseId hc rid (T := T)
  refine ⟨h1.trans (serverStep_foldl_releaseSlot h1.confined ?_), hr⟩
  -- every slot the conversation holds is of its server
  intro k hk
  obtain ⟨p, hp, rfl⟩ := List.mem_map.mp hk
  obtain ⟨hp1, hp2⟩ := List.mem_filter.mp hp
  have hpr : p.2 = r := by simpa using hp2
  have hs := hc.slots p hp1
  rw [hpr, hr] at hs
  exact (Option.some.inj hs).symm

theorem serverStep_closeStamped (rid : String) :
    ServerStep serverOf (entryServer e) s (s.closeStamped i e rid) := by
  cases h : s.openByReqid.get? (entryServer e, rid) with
  | some r =>
      obtain ⟨s', hs', -⟩ := closeIdBuilder_some h
      obtain ⟨head, -, heq⟩ := closeStamped_some i hs'
      obtain ⟨h1, hr⟩ := serverStep_closeIdBuilder hc h hs'
      rw [heq]
      have h2 := serverStep_giveBack h1.confined hr
      have h3 := serverStep_add h2.confined hr (e := e) rfl
      exact h1.trans (h2.trans (h3.trans (serverStep_rememberClosed h3.confined hr _ rfl e)))
  | none =>
      have hline : refServer serverOf (.line i) = some (entryServer e) := congrArg some hi
      rw [closeStamped_none i h]
      have h1 := serverStep_returnNew hc hi { entries := [e], openPos := streamPos e }
        (fun x hx => by rw [List.mem_singleton.mp hx])
      exact h1.trans (serverStep_rememberClosed h1.confined hline _ rfl e)

theorem serverStep_stampedBuilder (rid : String) :
    ServerStep serverOf (entryServer e) s (s.stampedBuilder i (entryServer e) rid e).2
      ∧ refServer serverOf (s.stampedBuilder i (entryServer e) rid e).1
          = some (entryServer e) := by
  unfold stampedBuilder
  cases hg : s.openByReqid.get? (entryServer e, rid) with
  | some r => exact ⟨ServerStep.refl hc, hc.ids _ (OrderedDict.get?_eq_some.mp hg)⟩
  | none =>
      have hline : refServer serverOf (.line i) = some (entryServer e) := congrArg some hi
      have h1 := serverStep_heap hc hline { openPos := streamPos e, reqid := some rid }
        (fun x hx => by cases hx)
      exact ⟨h1.trans (serverStep_setId h1.confined hline rid), hline⟩

omit hi in
theorem serverStep_absorb {r : BuilderRef ι} (hr : refServer serverOf r = some T)
    {k : StreamKey ι} (hk : k.server = T) : ServerStep serverOf T s (s.absorb r k) := by
  unfold absorb
  split
  · rename_i p hp
    split
    · have hpt : refServer serverOf p = some T :=
        hk ▸ hc.slots (k, p) (OrderedDict.get?_eq_some.mp hp)
      have h1 : ServerStep serverOf T s (s.modify r fun b =>
          { b with entries := b.entries ++ (s.builder p).entries
                   openPos := absorbedPos b.openPos (s.builder p).openPos }) :=
        serverStep_modify hc hr (l := (s.builder p).entries) rfl (fun x hx => by
          have hs := hc.lines p x hx
          rw [hpt] at hs
          exact (Option.some.inj hs).symm)
      exact h1.trans (serverStep_eraseSlot h1.confined hk)
    · exact ServerStep.refl hc
  · exact ServerStep.refl hc

theorem serverStep_joinStamped (rid : String) :
    ServerStep serverOf (entryServer e) s (s.joinStamped i e rid) := by
  obtain ⟨h1, hr⟩ := serverStep_stampedBuilder hc hi rid
  have h2 := serverStep_absorb h1.confined hr (k := stampedKey (entryServer e) e) rfl
  have h3 := serverStep_setSlot h2.confined hr (k := stampedKey (entryServer e) e) rfl
  have h4 := serverStep_setCurrent h3.confined (k := stampedKey (entryServer e) e) rfl
  exact h1.trans (h2.trans (h3.trans (h4.trans (serverStep_add h4.confined hr rfl))))

/-- **One line** of a server touches the part of its server, and keeps the servers apart. -/
theorem serverStep_route (hids : (s.pendingReqs.map (·.id)).Nodup) :
    ServerStep serverOf (entryServer e) s (s.route i e) := by
  unfold route
  cases s.routedId e with
  | some rid =>
      simp only
      split
      · exact serverStep_closeStamped hc hi rid
      · exact serverStep_joinStamped hc hi rid
  | none =>
      simp only
      cases e.entryType with
      | request => exact serverStep_pending hc (by simp)
      | requestBody => exact serverStep_requestBody hc hi
      | response => exact serverStep_response hc hi hids
      | miCall | miResult | sql | info | error => exact serverStep_work hc hi

end Ops

end GroupState

end RagPipeline.Stage2
