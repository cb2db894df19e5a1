/-
  RagPipeline.Stage2.IdsApart — lines on which no server disturbs another.

  The flush passes over an open conversation only behind another one with its request id.  Both of them being open
  takes two servers that leave a conversation of one id open; or a POST body that closes one of the slots of a
  conversation, which stays in its other slots, beside a conversation with the id that is left open.

    * `IdsApart`         — neither of the two is among the lines, and no line names a user without a hash;
    * `route_moves`      — what one line does to the slots and to the ids;
    * `Told`             — the invariant: a stamped conversation in a slot is open by its id, or was cut;
    * `servers_isolated` — the exact condition, and that such lines meet it.
-/
import RagPipeline.Stage2.ServerIsolation
import RagPipeline.Stage2.UserIsolation
import RagPipeline.Stage2.Growth

namespace RagPipeline.Stage2

open RagPipeline.Lib

/-! ## §1. The lines. -/

/-- A line that opens the conversation of an id, or finds it open. -/
def Opens (rid server : String) (e : LogEntry) : Prop :=
  stampedReqid e = some rid ∧ e.entryType ≠ .response ∧ entryServer e = server

/-- The response that ends it. -/
def Ends (rid server : String) (e : LogEntry) : Prop :=
  stampedReqid e = some rid ∧ e.entryType = .response ∧ entryServer e = server

/-- The server opens a conversation of the id, and no response ends it. -/
def LeftOpen (rid server : String) (es : List LogEntry) : Prop :=
  ∃ l a r, es = l ++ a :: r ∧ Opens rid server a ∧ ∀ z ∈ r, ¬Ends rid server z

/-- A line that takes a slot for the conversation of an id: stamped with it, or a body that names it. -/
def Joins (rid : String) (e : LogEntry) : Prop := carriesId rid e ∧ e.entryType ≠ .response

/-- A POST body of another conversation, on the slot that the line `a` took. -/
structure Cuts (rid : String) (a e : LogEntry) : Prop where
  body : e.entryType = .requestBody
  unstamped : stampedReqid e = none
  other : entryReqid e ≠ some rid
  server : entryServer e = entryServer a
  thread : e.thread = a.thread
  user : reqUser e = a.contextUser

/-- A line that may be asked for the hash of its user has one that can be hashed. -/
def Hashable (e : LogEntry) : Prop :=
  stampedReqid e = none → e.entryType = .request ∨ e.entryType = .requestBody → unhashable (reqUser e) = false

/-- **No line can bring two conversations with one id to the flush, or make the call raise.** -/
structure IdsApart (entries : List LogEntry) : Prop where
  hashable : ∀ e ∈ entries, Hashable e
  oneServer : ∀ rid S T, LeftOpen rid S entries → LeftOpen rid T entries → S = T
  uncut : ∀ rid l b r, entries = l ++ b :: r → ∀ a ∈ l, Joins rid a → Cuts rid a b →
    ¬LeftOpen rid (entryServer b) r ∧ ∀ T, T ≠ entryServer b → ¬LeftOpen rid T entries

/-- One more line: a conversation that was left open still is, unless the line ends it; and one that the line opens. -/
theorem LeftOpen.more {rid server : String} {es : List LogEntry} {e : LogEntry}
    (h : LeftOpen rid server es ∨ Opens rid server e) (he : ¬Ends rid server e) : LeftOpen rid server (es ++ [e]) := by
  cases h with
  | inl hleft =>
    obtain ⟨l, a, r, rfl, ha, hr⟩ := hleft
    refine ⟨l, a, r ++ [e], by rw [List.append_assoc, List.cons_append], ha, fun z hz => ?_⟩
    cases List.mem_append.mp hz with
    | inl hz => exact hr z hz
    | inr hz => exact List.mem_singleton.mp hz ▸ he
  | inr hopens => exact ⟨es, e, [], rfl, hopens, fun _ hz => (List.not_mem_nil hz).elim⟩

/-- A place among the lines of one server is one among all lines. -/
theorem linesOf_split {S : String} {entries l r : List LogEntry} {a : LogEntry} (h : linesOf S entries = l ++ a :: r) :
    ∃ l' r', entries = l' ++ a :: r' ∧ linesOf S l' = l ∧ linesOf S r' = r := by
  obtain ⟨l₁, rest, rfl, hl, hrest⟩ := List.filter_eq_append_iff.mp h
  obtain ⟨l₂, r₁, rfl, hl₂, -, hr⟩ := List.filter_eq_cons_iff.mp hrest
  refine ⟨l₁ ++ l₂, r₁, (List.append_assoc _ _ _).symm, ?_, hr⟩
  unfold linesOf
  rw [List.filter_append, hl, List.filter_eq_nil_iff.mpr hl₂, List.append_nil]

theorem LeftOpen.of_linesOf {rid S T : String} {entries : List LogEntry} (h : LeftOpen rid T (linesOf S entries)) :
    LeftOpen rid T entries := by
  obtain ⟨l, a, r, heq, ha, hr⟩ := h
  have hserver : entryServer a = S := by
    have hmem : a ∈ linesOf S entries := heq ▸ List.mem_append_right _ List.mem_cons_self
    exact of_decide_eq_true (List.mem_filter.mp hmem).2
  obtain ⟨l', r', rfl, -, rfl⟩ := linesOf_split heq
  refine ⟨l', a, r', rfl, ha, fun z hz hends => ?_⟩
  have hz' : z ∈ linesOf S r' := by
    refine List.mem_filter.mpr ⟨hz, decide_eq_true ?_⟩
    exact hends.2.2.trans (ha.2.2.symm.trans hserver)
  exact hr z hz' hends

/-- The lines of one server keep the ids apart where all lines do. -/
theorem IdsApart.linesOf {entries : List LogEntry} (h : IdsApart entries) (S : String) :
    IdsApart (Stage2.linesOf S entries) where
  hashable e he := h.hashable e (List.mem_filter.mp he).1
  oneServer rid T T' hT hT' := h.oneServer rid T T' hT.of_linesOf hT'.of_linesOf
  uncut rid l b r heq a ha hjoins hcuts := by
    obtain ⟨l', r', hentries, rfl, rfl⟩ := linesOf_split heq
    obtain ⟨hown, hothers⟩ := h.uncut rid l' b r' hentries a (List.mem_filter.mp ha).1 hjoins hcuts
    exact ⟨fun hleft => hown hleft.of_linesOf, fun T hT hleft => hothers T hT hleft.of_linesOf⟩

namespace GroupState

variable {ι : Type} [DecidableEq ι] {seen : Set (BuilderRef ι)} {s s' : GroupState ι} {i : ι} {e : LogEntry}

/-! ## §2. Slots and ids under one line. -/

/-- A slot that was there, or one of an unstamped builder of the line. -/
def OldSlot (s : GroupState ι) (i : ι) (s' : GroupState ι) (p : StreamKey ι × BuilderRef ι) : Prop :=
  p ∈ s.openByKey.items ∨ (p.2 = .line i ∧ (s'.builder p.2).reqid = none)

/-- What a line does to the slots and the ids: nothing to those of stamped conversations; it closes a slot, ends a
    conversation, or joins one. -/
inductive Moves (s : GroupState ι) (i : ι) (e : LogEntry) (s' : GroupState ι) : Prop
  | keeps (hslots : ∀ p ∈ s'.openByKey.items, OldSlot s i s' p)
      (hids : ∀ q, q ∈ s'.openByReqid.items ↔ q ∈ s.openByReqid.items)
      (hout : ∀ r ∈ s.outRefs, r ∈ s'.outRefs)
  | cuts (r : BuilderRef ι) (hroute : s.routedId e = none) (hbody : e.entryType = .requestBody)
      (hk : (⟨entryServer e, e.thread, reqUser e, none⟩, r) ∈ s.openByKey.items)
      (hslots : ∀ p ∈ s'.openByKey.items, OldSlot s i s' p)
      (hids : ∀ q, q ∈ s'.openByReqid.items ↔ q ∈ s.openByReqid.items ∧ q.2 ≠ r)
      (hout : ∀ x, x ∈ s.outRefs ∨ x = r → x ∈ s'.outRefs)
  | ends (rid : String) (r : BuilderRef ι) (hr : ((entryServer e, rid), r) ∈ s.openByReqid.items)
      (hslots : ∀ p ∈ s'.openByKey.items, p ∈ s.openByKey.items ∧ p.2 ≠ r)
      (hids : ∀ q, q ∈ s'.openByReqid.items ↔ q ∈ s.openByReqid.items ∧ q.1 ≠ (entryServer e, rid))
      (hout : ∀ x ∈ s.outRefs, x ∈ s'.outRefs)
  | joins (rid : String) (r : BuilderRef ι) (hroute : s.routedId e = some rid) (hkind : e.entryType ≠ .response)
      (hr : ((entryServer e, rid), r) ∈ s.openByReqid.items ∨
        ((entryServer e, rid) ∉ s.openByReqid.keys ∧ r = .line i ∧ (s'.builder r).reqid = some rid))
      (hslots : ∀ p ∈ s'.openByKey.items, p = (stampedKey (entryServer e) e, r) ∨ p ∈ s.openByKey.items)
      (hids : ∀ q, q ∈ s'.openByReqid.items ↔ q ∈ s.openByReqid.items ∨ q = ((entryServer e, rid), r))
      (hout : ∀ x ∈ s.outRefs, x ∈ s'.outRefs)

/-- A slot that is set for the line. -/
theorem oldSlot_set {k : StreamKey ι} {d : OrderedDict (StreamKey ι) (BuilderRef ι)}
    (hd : ∀ p ∈ d.items, p ∈ s.openByKey.items) (hnone : (s'.builder (.line i)).reqid = none)
    {p : StreamKey ι × BuilderRef ι} (hp : p ∈ (d.set k (.line i)).items) : OldSlot s i s' p := by
  obtain ⟨k', r⟩ := p
  cases OrderedDict.mem_set.mp hp with
  | inl hnew =>
    refine .inr ⟨hnew.2, ?_⟩
    show (s'.builder r).reqid = none
    rw [hnew.2]
    exact hnone
  | inr hold => exact .inl (hd _ hold.2)

/-- Slots, ids, results and the id of every builder are the same. -/
structure SamePlaces (s s' : GroupState ι) : Prop where
  slots : s'.openByKey = s.openByKey
  ids : s'.openByReqid = s.openByReqid
  out : s'.outRefs = s.outRefs
  reqid : ∀ x, (s'.builder x).reqid = (s.builder x).reqid

theorem SamePlaces.trans {s₁ : GroupState ι} (h : SamePlaces s s₁) (h' : SamePlaces s₁ s') : SamePlaces s s' :=
  ⟨h'.slots.trans h.slots, h'.ids.trans h.ids, h'.out.trans h.out, fun x => (h'.reqid x).trans (h.reqid x)⟩

variable (s) in
theorem same_modify (r : BuilderRef ι) {f : TxnBuilder → TxnBuilder} (hf : ∀ b, (f b).reqid = b.reqid) :
    SamePlaces s (s.modify r f) := by
  refine ⟨rfl, rfl, rfl, fun x => ?_⟩
  rw [builder_modify]
  by_cases hx : x = r
  · rw [if_pos hx, hf, hx]
  · rw [if_neg hx]

variable (s) in
theorem same_bind (r : BuilderRef ι) (taken : Taken) : SamePlaces s (s.bind r taken) := by
  cases taken with
  | none => exact ⟨rfl, rfl, rfl, fun _ => rfl⟩
  | some q =>
    have hpool : SamePlaces s { s with pendingReqs := q.2 } := ⟨rfl, rfl, rfl, fun _ => rfl⟩
    exact hpool.trans (same_modify _ r (f := fun b => { b.add q.1 with openPos := streamPos q.1 }) fun _ => rfl)

variable (s) in
theorem same_rememberClosed (k : ClosedKey) (r : BuilderRef ι) (e : LogEntry) :
    SamePlaces s (s.rememberClosed k r e) := by
  unfold rememberClosed
  split
  · exact ⟨rfl, rfl, rfl, fun _ => rfl⟩
  · exact ⟨rfl, rfl, rfl, fun _ => rfl⟩

omit [DecidableEq ι] in
theorem rememberClosed_pending (k : ClosedKey) (r : BuilderRef ι) (e : LogEntry) :
    (s.rememberClosed k r e).pendingReqs = s.pendingReqs := by
  unfold rememberClosed
  split
  · rfl
  · rfl

theorem Moves.congr {s₁ : GroupState ι} (h : Moves s i e s₁) (hsame : SamePlaces s₁ s') : Moves s i e s' := by
  have hold : ∀ p, OldSlot s i s₁ p → OldSlot s i s' p := fun p hp =>
    hp.imp id fun hnew => ⟨hnew.1, (hsame.reqid p.2).trans hnew.2⟩
  cases h with
  | keeps hslots hids hout =>
    exact .keeps (fun p hp => hold p (hslots p (hsame.slots ▸ hp))) (fun q => hsame.ids ▸ hids q)
      (fun r hr => hsame.out ▸ hout r hr)
  | cuts r hroute hbody hk hslots hids hout =>
    exact .cuts r hroute hbody hk (fun p hp => hold p (hslots p (hsame.slots ▸ hp))) (fun q => hsame.ids ▸ hids q)
      (fun x hx => hsame.out ▸ hout x hx)
  | ends rid r hr hslots hids hout =>
    exact .ends rid r hr (fun p hp => hslots p (hsame.slots ▸ hp)) (fun q => hsame.ids ▸ hids q)
      (fun x hx => hsame.out ▸ hout x hx)
  | joins rid r hroute hkind hr hslots hids hout =>
    exact .joins rid r hroute hkind (hr.imp id fun hnew => ⟨hnew.1, hnew.2.1, (hsame.reqid r).trans hnew.2.2⟩)
      (fun p hp => hslots p (hsame.slots ▸ hp)) (fun q => hsame.ids ▸ hids q) (fun x hx => hsame.out ▸ hout x hx)

theorem Moves.of_same (h : SamePlaces s s') : Moves s i e s' :=
  .keeps (fun _ hp => .inl (h.slots ▸ hp)) (fun _ => by rw [h.ids]) (fun _ hr => h.out ▸ hr)

/-- More is returned. -/
theorem Moves.giveBack {s₁ : GroupState ι} (h : Moves s i e s₁) (r : BuilderRef ι) : Moves s i e (s₁.giveBack r) := by
  have hmore : ∀ x ∈ s₁.outRefs, x ∈ (s₁.giveBack r).outRefs := by
    intro x hx
    rw [outRefs_giveBack]
    exact List.mem_append_left _ hx
  cases h with
  | keeps hslots hids hout => exact .keeps hslots hids fun x hx => hmore x (hout x hx)
  | cuts r' hroute hbody hk hslots hids hout =>
    exact .cuts r' hroute hbody hk hslots hids fun x hx => hmore x (hout x hx)
  | ends rid r' hr hslots hids hout => exact .ends rid r' hr hslots hids fun x hx => hmore x (hout x hx)
  | joins rid r' hroute hkind hr hslots hids hout =>
    exact .joins rid r' hroute hkind hr hslots hids fun x hx => hmore x (hout x hx)

/-- A builder of its own for the line. -/
theorem moves_heap (b : TxnBuilder) (pending : List LogEntry) :
    Moves s i e ({ s with heap := s.heap.set (.line i) b, pendingReqs := pending } : GroupState ι) :=
  .keeps (fun _ hp => .inl hp) (fun _ => Iff.rfl) fun _ hr => hr

/-- A slot that is opened for the line. -/
theorem moves_openSlot (k : StreamKey ι) (rc : OrderedDict ClosedKey (BuilderRef ι × Instant)) :
    Moves s i e ({ s with recentlyClosed := rc }.openSlot i k e) := by
  have hnone : (({ s with recentlyClosed := rc }.openSlot i k e).builder (.line i)).reqid = none := by
    unfold openSlot builder
    rw [OrderedDict.get?_set_self]
    rfl
  exact .keeps (fun _ hp => oldSlot_set (fun _ hq => hq) hnone hp) (fun _ => Iff.rfl) fun _ hr => hr

theorem work_moves : Moves s i e (s.work i e) := by
  have hroute := workRoute s i e
  unfold work
  generalize s.workTarget i e = w at hroute
  -- the line, and the request that comes with it, are added to a builder
  have hadd : ∀ (r : BuilderRef ι) (s₁ : GroupState ι), Moves s i e s₁ →
      Moves s i e (if namesUser (reqUser e) && !hasRequest ((s₁.modify r (·.add e)).builder r) then
        (s₁.modify r (·.add e)).bind r
          (takeByUser (s₁.modify r (·.add e)).pendingReqs (reqUser e) (entryServer e) e.thread)
      else s₁.modify r (·.add e)) := by
    intro r s₁ h
    have hline := h.congr (same_modify s₁ r (f := (·.add e)) fun _ => rfl)
    split
    · exact hline.congr (same_bind _ r _)
    · exact hline
  cases hroute with
  | own u r hu hk => exact hadd r _ (.of_same ⟨rfl, rfl, rfl, fun _ => rfl⟩)
  | fresh u rc hu hk hrc => exact hadd _ _ (moves_openSlot _ rc)
  | late u r t hu hrc => exact .of_same (same_modify s r fun _ => rfl)
  | inherited k r hu hc hk => exact hadd r _ (.of_same ⟨rfl, rfl, rfl, fun _ => rfl⟩)
  | anonymous hu => exact hadd _ _ ((moves_openSlot _ s.recentlyClosed).congr (same_bind _ _ _))

/-- What closing one slot does. -/
theorem closeInto_places {k : StreamKey ι} {r : BuilderRef ι} (hk : (k, r) ∈ s.openByKey.items) :
    (∀ p ∈ (s.closeInto k).openByKey.items, p ∈ s.openByKey.items) ∧
      (∀ q, q ∈ (s.closeInto k).openByReqid.items ↔ q ∈ s.openByReqid.items ∧ q.2 ≠ r) ∧
      ∀ x, x ∈ s.outRefs ∨ x = r → x ∈ (s.closeInto k).outRefs := by
  have hget := OrderedDict.get?_eq_some.mpr hk
  refine ⟨fun p hp => ?_, fun q => ?_, fun x hx => ?_⟩
  · rw [closeInto_openByKey] at hp
    exact (List.mem_filter.mp hp).1
  · rw [closeInto_of_get? s k r hget]
    show q ∈ ((s.releaseSlot k).openByReqid.filterItems _).items ↔ _
    rw [releaseSlot_openByReqid, OrderedDict.items_filterItems, List.mem_filter, decide_eq_true_eq]
  · rw [closeInto_outRefs, hget, List.mem_append]
    exact hx.imp id List.mem_singleton.mpr

theorem requestBody_moves (hroute : s.routedId e = none) (hbody : e.entryType = .requestBody) :
    Moves s i e (s.requestBody i e) := by
  -- the slot is set for the line, whatever request comes with it
  have hset : ∀ (s₁ : GroupState ι) (b : TxnBuilder), b.reqid = none →
      (∀ p ∈ s₁.openByKey.items, p ∈ s.openByKey.items) →
      ∀ p ∈ (s₁.openByKey.set ⟨entryServer e, e.thread, reqUser e, none⟩ (.line i)).items,
        ∀ s₂ : GroupState ι, s₂.heap = s₁.heap.set (.line i) b → OldSlot s i s₂ p := by
    intro s₁ b hb hsub p hp s₂ hheap
    refine oldSlot_set hsub ?_ hp
    unfold builder
    rw [hheap, OrderedDict.get?_set_self]
    exact hb
  unfold requestBody
  simp only
  generalize (takeByReqid (s.closeInto ⟨entryServer e, e.thread, reqUser e, none⟩).pendingReqs (entryReqid e)
    (entryServer e)).or (takePostRequest (s.closeInto ⟨entryServer e, e.thread, reqUser e, none⟩).pendingReqs
      (entryServer e) e.thread (reqUser e)) = taken
  cases hk : s.openByKey.get? ⟨entryServer e, e.thread, reqUser e, none⟩ with
  | some r =>
    have hslot := OrderedDict.get?_eq_some.mp hk
    obtain ⟨hslots, hids, hout⟩ := closeInto_places hslot
    cases taken with
    | none => exact .cuts r hroute hbody hslot (fun p hp => hset _ _ rfl hslots p hp _ rfl) hids hout
    | some q => exact .cuts r hroute hbody hslot (fun p hp => hset _ _ rfl hslots p hp _ rfl) hids hout
  | none =>
    rw [closeInto_of_none s _ hk]
    cases taken with
    | none => exact .keeps (fun p hp => hset s _ rfl (fun _ hq => hq) p hp _ rfl) (fun _ => Iff.rfl) fun _ hr => hr
    | some q => exact .keeps (fun p hp => hset s _ rfl (fun _ hq => hq) p hp _ rfl) (fun _ => Iff.rfl) fun _ hr => hr

theorem response_moves (hw : Wf seen s) : Moves s i e (s.response i e) := by
  have hroute := responseRoute s i e
  generalize s.response i e = s₁ at hroute
  cases hroute with
  | builder k r hk =>
    obtain ⟨hslot, -, hunstamped⟩ := candidates_slot hk
    rw [answerBuilder_eq e (OrderedDict.get?_eq_some.mpr hslot)]
    obtain ⟨hslots, hids, hout⟩ := closeInto_places hslot
    have hclosed : Moves s i e (s.closeInto k) := by
      refine .keeps (fun p hp => .inl (hslots p hp)) (fun q => ?_) fun x hx => hout x (.inl hx)
      -- no id leads to an unstamped builder
      rw [hids q]
      exact and_iff_left_of_imp fun hq heq => hunstamped (heq ▸ hw.idsStamped q hq)
    exact (hclosed.congr (same_modify _ r (f := (·.add e)) fun _ => rfl)).congr (same_rememberClosed _ _ r e)
  | request req hreq =>
    unfold answerRequest
    have hown := moves_heap (s := s) (i := i) (e := e) { entries := [req, e], openPos := streamPos req }
      (s.pendingReqs.eraseP fun r => decide (r.id = req.id))
    have hremembered := hown.congr (same_rememberClosed _ (entryServer e, req.thread, reqUser req) (.line i) e)
    exact hremembered.giveBack _
  | orphan =>
    unfold orphan
    exact (moves_heap (s := s) { entries := [e], openPos := streamPos e } s.pendingReqs).giveBack _

theorem closeStamped_moves (rid : String) : Moves s i e (s.closeStamped i e rid) := by
  cases h : s.openByReqid.get? (entryServer e, rid) with
  | some r =>
    obtain ⟨s₁, hclose, -, hbuilders, hids, -, -, hslots⟩ := closeIdBuilder_some h
    obtain ⟨head, -, heq⟩ := closeStamped_some i hclose
    have hends : Moves s i e (s₁.giveBack r) := by
      refine .ends rid r (OrderedDict.get?_eq_some.mp h) (fun p hp => (hslots p).mp hp) ?_ ?_
      · rintro ⟨k, x⟩
        show (k, x) ∈ s₁.openByReqid.items ↔ _
        rw [hids]
        exact OrderedDict.mem_erase
      · intro x hx
        rw [outRefs_giveBack]
        unfold outRefs at hx ⊢
        rw [hbuilders]
        exact List.mem_append_left _ hx
    rw [heq]
    exact (hends.congr (same_modify _ r (f := (·.add e)) fun _ => rfl)).congr (same_rememberClosed _ _ r e)
  | none =>
    rw [closeStamped_none i h]
    have hown := moves_heap (s := s) (i := i) (e := e) { entries := [e], openPos := streamPos e } s.pendingReqs
    exact (hown.giveBack _).congr (same_rememberClosed _ _ _ e)

theorem joinStamped_moves {rid : String} (hroute : s.routedId e = some rid)
    (hkind : e.entryType ≠ .response) : Moves s i e (s.joinStamped i e rid) := by
  obtain ⟨l, g, d, c, heq, hg, hd, -⟩ := joinStamped_shape s i e rid
  rw [heq]
  -- the id of the conversation is what it was before the line was added
  have hkeep : ∀ (s₁ : GroupState ι) (r : BuilderRef ι),
      (({ s₁.modify r g with openByKey := d, currentByThread := c } : GroupState ι).builder r).reqid
        = (s₁.builder r).reqid := by
    intro s₁ r
    show ((s₁.modify r g).builder r).reqid = _
    rw [builder_modify, if_pos rfl]
    exact (hg _).2
  unfold stampedBuilder at hd ⊢
  cases h : s.openByReqid.get? (entryServer e, rid) with
  | some r =>
    rw [h] at hd
    have hr := OrderedDict.get?_eq_some.mp h
    exact .joins rid r hroute hkind (.inl hr) hd (fun q => (or_iff_left_of_imp fun hq => hq ▸ hr).symm)
      fun _ hx => hx
  | none =>
    rw [h] at hd
    have hnew := OrderedDict.get?_eq_none.mp h
    refine .joins rid (.line i) hroute hkind (.inr ⟨hnew, rfl, ?_⟩) hd ?_ fun _ hx => hx
    · refine (hkeep _ _).trans ?_
      show (((s.heap.set _ _).get? _).getD {}).reqid = some rid
      rw [OrderedDict.get?_set_self]
      rfl
    · rintro ⟨k, x⟩
      refine OrderedDict.mem_set.trans ?_
      constructor
      · rintro (⟨rfl, rfl⟩ | ⟨-, hold⟩)
        · exact .inr rfl
        · exact .inl hold
      · rintro (hold | hset)
        · exact .inr ⟨fun hk => hnew (List.mem_map.mpr ⟨_, hold, hk⟩), hold⟩
        · exact .inl (Prod.mk.inj hset)

/-- **What one line does to the slots and to the ids.** -/
theorem route_moves (hw : Wf seen s) : Moves s i e (s.route i e) := by
  unfold route
  cases hroute : s.routedId e with
  | some rid =>
    simp only
    split
    · exact closeStamped_moves rid
    · rename_i hkind
      exact joinStamped_moves hroute hkind
  | none =>
    simp only
    cases hkind : e.entryType with
    | request => exact .of_same ⟨rfl, rfl, rfl, fun _ => rfl⟩
    | requestBody => exact requestBody_moves hroute hkind
    | response => exact response_moves hw
    | miCall | miResult | sql | info | error => exact work_moves

/-- No conversation of the id is open after the response that ends it. -/
theorem closeStamped_ends {rid : String} : ∀ q ∈ (s.closeStamped i e rid).openByReqid.items, q.1 ≠ (entryServer e, rid) := by
  intro q hq
  cases h : s.openByReqid.get? (entryServer e, rid) with
  | some r =>
    obtain ⟨s₁, hclose, -, -, hids, -, -, -⟩ := closeIdBuilder_some h
    obtain ⟨head, -, heq⟩ := closeStamped_some i hclose
    rw [heq, (same_rememberClosed _ _ r e).ids] at hq
    have hq' : q ∈ s₁.openByReqid.items := hq
    rw [hids] at hq'
    exact (OrderedDict.mem_erase.mp hq').2
  | none =>
    rw [closeStamped_none i h, (same_rememberClosed _ _ _ e).ids] at hq
    have hq' : q ∈ s.openByReqid.items := hq
    exact fun hkey => OrderedDict.get?_eq_none.mp h (List.mem_map.mpr ⟨q, hq', hkey⟩)

omit [DecidableEq ι] in
/-- A stamped line that finds no conversation of its id opens one. -/
theorem opens_of_routed {rid : String} (hroute : s.routedId e = some rid) (hkind : e.entryType ≠ .response)
    (hnew : (entryServer e, rid) ∉ s.openByReqid.keys) : Opens rid (entryServer e) e := by
  unfold routedId at hroute
  cases hst : stampedReqid e with
  | some rid' =>
    rw [hst] at hroute
    exact ⟨hst.trans hroute, hkind, rfl⟩
  | none =>
    rw [hst] at hroute
    simp only at hroute
    split at hroute
    · split at hroute
      · rename_i hopen
        cases hroute
        exact absurd hopen hnew
      · cases hroute
    · cases hroute

omit [DecidableEq ι] in
/-- A body that is not routed by its id names none that is open on its server. -/
theorem body_unrouted (hroute : s.routedId e = none) (hbody : e.entryType = .requestBody) :
    stampedReqid e = none ∧ ∀ rid, entryReqid e = some rid → (entryServer e, rid) ∉ s.openByReqid.keys := by
  unfold routedId at hroute
  cases hst : stampedReqid e with
  | some rid =>
    rw [hst] at hroute
    cases hroute
  | none =>
    rw [hst] at hroute
    refine ⟨rfl, fun rid hrid hopen => ?_⟩
    rw [hbody, hrid] at hroute
    simp only at hroute
    rw [if_pos hopen] at hroute
    cases hroute

/-- **An id that is open after a line** was open before or is opened by it, and is not ended by it. -/
theorem route_ids (hw : Wf seen s) {q : (String × String) × BuilderRef ι} (hq : q ∈ (s.route i e).openByReqid.items) :
    (q ∈ s.openByReqid.items ∨ Opens q.1.2 q.1.1 e) ∧ ¬Ends q.1.2 q.1.1 e := by
  constructor
  · cases route_moves (i := i) (e := e) hw with
    | keeps _ hids _ => exact .inl ((hids q).mp hq)
    | cuts _ _ _ _ _ hids _ => exact .inl ((hids q).mp hq).1
    | ends _ _ _ _ hids _ => exact .inl ((hids q).mp hq).1
    | joins rid r hroute hkind hr _ hids _ =>
      cases (hids q).mp hq with
      | inl hold => exact .inl hold
      | inr heq =>
        rw [heq]
        exact hr.imp id fun hnew => opens_of_routed hroute hkind hnew.1
  · rintro ⟨hstamp, hkind, hserver⟩
    have hroute : s.routedId e = some q.1.2 := by
      unfold routedId
      rw [hstamp]
    unfold route at hq
    rw [hroute] at hq
    simp only at hq
    rw [if_pos hkind] at hq
    exact closeStamped_ends q hq (Prod.ext hserver.symm rfl)

/-- A stamped line does not wait among the requests. -/
theorem route_pending {rid : String} (hroute : s.routedId e = some rid) :
    (s.route i e).pendingReqs = s.pendingReqs := by
  unfold route
  rw [hroute]
  simp only
  split
  · cases h : s.openByReqid.get? (entryServer e, rid) with
    | some r =>
      obtain ⟨s₁, hclose, -, -, -, -, hpending, -⟩ := closeIdBuilder_some h
      obtain ⟨head, -, heq⟩ := closeStamped_some i hclose
      rw [heq, rememberClosed_pending]
      exact hpending
    | none =>
      rw [closeStamped_none i h, rememberClosed_pending]
      rfl
  · obtain ⟨l, g, d, c, heq, -⟩ := joinStamped_shape s i e rid
    rw [heq]
    show (s.stampedBuilder i (entryServer e) rid e).2.pendingReqs = s.pendingReqs
    unfold stampedBuilder
    cases s.openByReqid.get? (entryServer e, rid) with
    | some r => rfl
    | none => rfl

/-! ## §3. What the lines read so far tell of the state. -/

/-- The conversation was cut on the server: it is returned, and what is open by its id was opened later. -/
def CutBy (past : List LogEntry) (s : GroupState ι) (rid server : String) (x : BuilderRef ι) : Prop :=
  x ∈ s.outRefs ∧ ∃ l b r, past = l ++ b :: r ∧ (∃ a ∈ l, Joins rid a ∧ Cuts rid a b) ∧ entryServer b = server ∧
    ∀ q ∈ s.openByReqid.items, q.1 = (server, rid) → LeftOpen rid server r

/-- **The invariant**: ids come from conversations that are left open, slots of stamped conversations from lines that
    join them, and a stamped conversation in a slot is open by its id unless it was cut. -/
structure Told (past : List LogEntry) (s : GroupState ι) : Prop where
  ids : ∀ q ∈ s.openByReqid.items, (s.builder q.2).reqid = some q.1.2 ∧ LeftOpen q.1.2 q.1.1 past
  slots : ∀ p ∈ s.openByKey.items, ∀ rid, (s.builder p.2).reqid = some rid →
    ∃ a ∈ past, Joins rid a ∧ stampedKey (entryServer a) a = p.1
  left : ∀ p ∈ s.openByKey.items, ∀ rid, (s.builder p.2).reqid = some rid →
    ((p.1.server, rid), p.2) ∈ s.openByReqid.items ∨ CutBy past s rid p.1.server p.2
  pending : ∀ x ∈ s.pendingReqs, x ∈ past ∧ x.entryType = .request ∧ stampedReqid x = none

theorem told_empty : Told [] ({} : GroupState ι) :=
  ⟨fun _ hq => (List.not_mem_nil hq).elim, fun _ hp => (List.not_mem_nil hp).elim,
    fun _ hp => (List.not_mem_nil hp).elim, fun _ hx => (List.not_mem_nil hx).elim⟩

variable {past : List LogEntry}

/-- The sweep. -/
theorem Told.swept (h : Told past s) (gap : Duration) (e : LogEntry) : Told past (s.swept gap e) := by
  unfold GroupState.swept
  cases e.timestamp with
  | none => exact h
  | some now =>
    have hsw := swept_evictStale gap s now
    show Told past (s.evictStale gap now)
    generalize s.evictStale gap now = s₁ at hsw
    have hids : ∀ q ∈ s₁.openByReqid.items, q ∈ s.openByReqid.items := by
      intro q hq
      rw [hsw.ids] at hq
      exact (List.mem_filter.mp hq).1
    refine ⟨fun q hq => ?_, fun p hp rid hrid => ?_, fun p hp rid hrid => ?_, fun x hx => ?_⟩
    · rw [hsw.builder]
      exact h.ids q (hids q hq)
    · rw [hsw.slots] at hp
      rw [hsw.builder] at hrid
      exact h.slots p (List.mem_filter.mp hp).1 rid hrid
    · rw [hsw.slots] at hp
      rw [hsw.builder] at hrid
      obtain ⟨hp, hfresh⟩ := List.mem_filter.mp hp
      cases h.left p hp rid hrid with
      | inl hid =>
        -- the sweep leaves a builder in all its places or in none
        rw [hsw.ids]
        exact .inl (List.mem_filter.mpr ⟨hid, hfresh⟩)
      | inr hcut =>
        obtain ⟨hreturned, l, b, r, hpast, hjoined, hserver, hlater⟩ := hcut
        exact .inr ⟨(hsw.out _).mpr (.inl hreturned), l, b, r, hpast, hjoined, hserver,
          fun q hq => hlater q (hids q hq)⟩
    · rw [hsw.pending] at hx
      exact h.pending x (List.mem_filter.mp hx).1

/-- A conversation that was cut stays so under one more line. -/
theorem CutBy.more {rid server : String} {x : BuilderRef ι} (h : CutBy past s rid server x) (hw : Wf seen s)
    (hout : ∀ y ∈ s.outRefs, y ∈ (s.route i e).outRefs) : CutBy (past ++ [e]) (s.route i e) rid server x := by
  obtain ⟨hreturned, l, b, r, rfl, hjoined, hserver, hlater⟩ := h
  refine ⟨hout x hreturned, l, b, r ++ [e], by rw [List.append_assoc, List.cons_append], hjoined, hserver,
    fun q hq hkey => ?_⟩
  obtain ⟨hopen, hends⟩ := route_ids hw hq
  have hrid : q.1.2 = rid := congrArg Prod.snd hkey
  have hserve : q.1.1 = server := congrArg Prod.fst hkey
  rw [hrid, hserve] at hopen hends
  exact LeftOpen.more (hopen.imp (fun hold => hlater q hold hkey) id) hends

/-- **The routing of one line.** -/
theorem Told.route (hw : Wf seen s) (h : Told past s) (hi : BuilderRef.line i ∉ seen) :
    Told (past ++ [e]) (s.route i e) := by
  have hgrows : Grows s i e (s.route i e) := route_grows hw.idsStamped fun x hx => (h.pending x hx).2.1
  have hmoves := route_moves (i := i) (e := e) hw
  have hleft : ∀ q ∈ (s.route i e).openByReqid.items, LeftOpen q.1.2 q.1.1 (past ++ [e]) := fun q hq =>
    LeftOpen.more ((route_ids hw hq).1.imp (fun hold => (h.ids q hold).2) id) (route_ids hw hq).2
  have hcut : ∀ rid server x, CutBy past s rid server x → (∀ y ∈ s.outRefs, y ∈ (s.route i e).outRefs) →
      CutBy (past ++ [e]) (s.route i e) rid server x := fun _ _ _ hcut => hcut.more hw
  have hunrouted : ∀ rid, s.routedId e = some rid → (s.route i e).pendingReqs = s.pendingReqs :=
    fun _ => route_pending
  generalize s.route i e = s' at hgrows hmoves hleft hcut hunrouted
  have he : e ∈ past ++ [e] := List.mem_append_right _ (List.mem_singleton_self e)
  have hmore : ∀ a ∈ past, a ∈ past ++ [e] := fun a => List.mem_append_left _
  -- a builder that something led to keeps its id
  have hkeep : ∀ r ∈ s.reachable, (s'.builder r).reqid = (s.builder r).reqid := fun r hr =>
    ((hgrows.grown r).keeps (ne_line hi (hw.known r hr))).1
  have hpending : ∀ x ∈ s'.pendingReqs, x ∈ past ++ [e] ∧ x.entryType = .request ∧ stampedReqid x = none := by
    intro x hx
    have hold : x ∈ s.pendingReqs → x ∈ past ++ [e] ∧ x.entryType = .request ∧ stampedReqid x = none :=
      fun hx => ⟨hmore x (h.pending x hx).1, (h.pending x hx).2⟩
    cases hroute : s.routedId e with
    | some rid => exact hold (hunrouted rid hroute ▸ hx)
    | none =>
      cases hgrows.pending x hx with
      | inl hx => exact hold hx
      | inr hnew =>
        obtain ⟨rfl, hkind⟩ := hnew
        refine ⟨he, hkind, ?_⟩
        unfold routedId at hroute
        cases hst : stampedReqid x with
        | none => rfl
        | some rid =>
          rw [hst] at hroute
          cases hroute
  have hold_ids : ∀ q ∈ s.openByReqid.items, (s'.builder q.2).reqid = some q.1.2 := by
    intro q hq
    rw [hkeep q.2 (reachable_of_id (k := q.1) hq)]
    exact (h.ids q hq).1
  have hslot_told : ∀ p ∈ s.openByKey.items, ∀ rid, (s.builder p.2).reqid = some rid →
      ∃ a ∈ past ++ [e], Joins rid a ∧ stampedKey (entryServer a) a = p.1 := by
    intro p hp rid hrid
    obtain ⟨a, ha, hjoins⟩ := h.slots p hp rid hrid
    exact ⟨a, hmore a ha, hjoins⟩
  -- a slot that was there is told of as before; the others are of unstamped builders
  have hold_slot : ∀ p, OldSlot s i s' p → ∀ rid, (s'.builder p.2).reqid = some rid →
      p ∈ s.openByKey.items ∧ (s.builder p.2).reqid = some rid := by
    rintro p (hp | ⟨-, hnone⟩) rid hrid
    · rw [hkeep p.2 (reachable_of_slot (k := p.1) hp)] at hrid
      exact ⟨hp, hrid⟩
    · rw [hnone] at hrid
      cases hrid
  cases hmoves with
  | keeps hslots hids hout =>
    refine ⟨fun q hq => ⟨hold_ids q ((hids q).mp hq), hleft q hq⟩, fun p hp rid hrid => ?_, fun p hp rid hrid => ?_,
      hpending⟩
    · obtain ⟨hp, hrid⟩ := hold_slot p (hslots p hp) rid hrid
      exact hslot_told p hp rid hrid
    · obtain ⟨hp, hrid⟩ := hold_slot p (hslots p hp) rid hrid
      exact (h.left p hp rid hrid).imp (hids _).mpr fun hold => hcut _ _ _ hold hout
  | cuts r hroute hbody hk hslots hids hout =>
    refine ⟨fun q hq => ⟨hold_ids q ((hids q).mp hq).1, hleft q hq⟩, fun p hp rid hrid => ?_,
      fun p hp rid hrid => ?_, hpending⟩
    · obtain ⟨hp, hrid⟩ := hold_slot p (hslots p hp) rid hrid
      exact hslot_told p hp rid hrid
    · obtain ⟨hp, hrid⟩ := hold_slot p (hslots p hp) rid hrid
      cases h.left p hp rid hrid with
      | inr hold => exact .inr (hcut _ _ _ hold fun y hy => hout y (.inl hy))
      | inl hid =>
        by_cases hr : p.2 = r
        · -- the body closes a slot of this conversation, and its id with it
          have hid' : ((p.1.server, rid), r) ∈ s.openByReqid.items := hr ▸ hid
          have hrid' : (s.builder r).reqid = some rid := hr ▸ hrid
          obtain ⟨a, ha, hjoins, hkey⟩ := h.slots _ hk rid hrid'
          obtain ⟨hserver, hthread, huser, -⟩ := StreamKey.mk.inj hkey
          have hserve : ((entryServer e, rid), r) ∈ s.openByReqid.items :=
            (h.left _ hk rid hrid').resolve_right fun hold => hw.idsOpen _ hid' hold.1
          have hown : entryServer e = p.1.server := congrArg Prod.fst (hw.idsOnce _ _ r hserve hid')
          obtain ⟨hunstamped, hother⟩ := body_unrouted hroute hbody
          have hcuts : Cuts rid a e :=
            ⟨hbody, hunstamped, fun hnamed => hother rid hnamed (List.mem_map.mpr ⟨_, hserve, rfl⟩), hserver.symm,
              hthread.symm, huser.symm⟩
          refine .inr ⟨hout _ (.inr hr), past, e, [], rfl, ⟨a, ha, hjoins, hcuts⟩, hown, fun q hq hqkey => ?_⟩
          obtain ⟨hq, hne⟩ := (hids q).mp hq
          have hq' : ((p.1.server, rid), q.2) ∈ s.openByReqid.items := hqkey ▸ hq
          exact absurd (s.openByReqid.mem_unique hq' hid') hne
        · exact .inl ((hids _).mpr ⟨hid, hr⟩)
  | ends rid₀ r hr hslots hids hout =>
    have hold : ∀ p ∈ s'.openByKey.items, ∀ rid, (s'.builder p.2).reqid = some rid →
        p ∈ s.openByKey.items ∧ (s.builder p.2).reqid = some rid :=
      fun p hp => hold_slot p (.inl (hslots p hp).1)
    refine ⟨fun q hq => ⟨hold_ids q ((hids q).mp hq).1, hleft q hq⟩, fun p hp rid hrid => ?_,
      fun p hp rid hrid => ?_, hpending⟩
    · obtain ⟨hp, hrid⟩ := hold p hp rid hrid
      exact hslot_told p hp rid hrid
    · have hne := (hslots p hp).2
      obtain ⟨hp, hrid⟩ := hold p hp rid hrid
      refine (h.left p hp rid hrid).imp (fun hid => (hids _).mpr ⟨hid, fun hkey => hne ?_⟩) fun hold =>
        hcut _ _ _ hold hout
      have hid' : ((entryServer e, rid₀), p.2) ∈ s.openByReqid.items := hkey ▸ hid
      exact s.openByReqid.mem_unique hid' hr
  | joins rid₀ r hroute hkind hr hslots hids hout =>
    have hreqid : (s'.builder r).reqid = some rid₀ := by
      cases hr with
      | inl hopen => exact hold_ids _ hopen
      | inr hnew => exact hnew.2.2
    have hjoins : Joins rid₀ e := ⟨(routedId_carries hroute).1, hkind⟩
    have hnow : ((entryServer e, rid₀), r) ∈ s'.openByReqid.items := (hids _).mpr (.inr rfl)
    have hold : ∀ p ∈ s.openByKey.items, ∀ rid, (s'.builder p.2).reqid = some rid → (s.builder p.2).reqid = some rid :=
      fun p hp rid hrid => (hold_slot p (.inl hp) rid hrid).2
    refine ⟨fun q hq => ⟨?_, hleft q hq⟩, fun p hp rid hrid => ?_, fun p hp rid hrid => ?_, hpending⟩
    · cases (hids q).mp hq with
      | inl hq => exact hold_ids q hq
      | inr heq =>
        rw [heq]
        exact hreqid
    · cases hslots p hp with
      | inl heq =>
        rw [heq] at hrid ⊢
        have hsame : rid₀ = rid := Option.some.inj (hreqid.symm.trans hrid)
        exact ⟨e, he, hsame ▸ hjoins, rfl⟩
      | inr hp => exact hslot_told p hp rid (hold p hp rid hrid)
    · cases hslots p hp with
      | inl heq =>
        rw [heq] at hrid ⊢
        have hsame : rid₀ = rid := Option.some.inj (hreqid.symm.trans hrid)
        exact .inl (hsame ▸ hnow)
      | inr hp =>
        exact (h.left p hp rid (hold p hp rid hrid)).imp (fun hid => (hids _).mpr (.inl hid)) fun hold =>
          hcut _ _ _ hold hout

theorem answeredRequest_pending {req : LogEntry} (h : s.answeredRequest e = some req) : req ∈ s.pendingReqs := by
  have hbest : bestReq (s.candidates e).2 = some req := by
    unfold answeredRequest at h
    split at h
    · rename_i hreq
      rw [hreq]
      split at h
      · cases h
      · exact h
    · cases h
    · exact h
  exact (candidates_request (maxBy?_mem hbest)).1

/-- A line whose user has a hash, after such lines, does not make the call raise. -/
theorem Told.quiet (h : Told past s) (hpast : ∀ a ∈ past ++ [e], Hashable a) : s.raises e = false := by
  unfold raises
  cases hroute : s.routedId e with
  | some rid => rfl
  | none =>
    cases hkind : e.entryType with
    | requestBody =>
      have hown := hpast e (List.mem_append_right _ (List.mem_singleton_self e))
      simp only
      rw [hown (body_unrouted hroute hkind).1 (.inr hkind), Bool.and_false]
    | response =>
      cases hreq : s.answeredRequest e with
      | none => simp
      | some req =>
        obtain ⟨hmem, hreqkind, hunstamped⟩ := h.pending req (answeredRequest_pending hreq)
        simp [hpast req (List.mem_append_left _ hmem) hunstamped (.inl hreqkind)]
    | request | miCall | miResult | sql | info | error => rfl

variable (gap : Duration)

/-- **A whole run**: the invariant at its end, and no line that raises. -/
theorem Told.run (xs : List (LogEntry × ι)) (h : Told past s) (hb : Booked seen s xs)
    (hhash : ∀ a ∈ past ++ xs.map Prod.fst, Hashable a) :
    Told (past ++ xs.map Prod.fst) (s.run gap xs) ∧ s.runRaises gap xs = false := by
  induction xs generalizing past s seen with
  | nil =>
    rw [List.map_nil, List.append_nil]
    exact ⟨h, rfl⟩
  | cons x xs ih =>
    obtain ⟨e, i⟩ := x
    rw [List.map_cons, List.append_cons] at hhash ⊢
    have hi : BuilderRef.line i ∉ seen := hb.fresh (e, i) List.mem_cons_self
    have hswept := h.swept gap e
    obtain ⟨htold, hquiet⟩ := ih (hswept.route (wf_swept hb.wf gap e) hi) hb.step hhash
    refine ⟨htold, ?_⟩
    unfold runRaises
    rw [hswept.quiet fun a ha => hhash a (List.mem_append_left _ ha), Bool.false_or]
    exact hquiet

/-- Where the lines keep the ids apart, the flush passes over nothing. -/
theorem Told.passedOver (h : Told past s) (hapart : IdsApart past) : s.passedOver = ∅ := by
  -- an open conversation is one an id leads to, or was cut
  have hopen : ∀ r ∈ s.flushOrder, ∀ rid, (s.builder r).reqid = some rid →
      ∃ server, ((server, rid), r) ∈ s.openByReqid.items ∨ CutBy past s rid server r := by
    intro r hr rid hrid
    unfold flushOrder at hr
    cases List.mem_append.mp hr with
    | inl hslot =>
      obtain ⟨k, hk⟩ := OrderedDict.mem_values.mp hslot
      exact ⟨k.server, h.left _ hk rid hrid⟩
    | inr hid =>
      obtain ⟨⟨server, rid'⟩, hk⟩ := OrderedDict.mem_values.mp hid
      have hsame : rid' = rid := Option.some.inj ((h.ids _ hk).1.symm.trans hrid)
      exact ⟨server, .inl (hsame ▸ hk)⟩
  refine Set.eq_empty_iff_forall_notMem.mpr ?_
  rintro g ⟨r, hr, hout, -, rid, hrid, hne⟩
  obtain ⟨server, hid | hcut⟩ := hopen r hr rid hrid
  · have hleft := (h.ids _ hid).2
    have hsome : (s.flushOrder.find? fun q => decide ((s.builder q).reqid = some rid)).isSome :=
      List.find?_isSome.mpr ⟨r, hr, decide_eq_true hrid⟩
    obtain ⟨q, hq⟩ := Option.isSome_iff_exists.mp hsome
    have hqrid : (s.builder q).reqid = some rid := by simpa using List.find?_some hq
    obtain ⟨server', hid' | hcut⟩ := hopen q (List.mem_of_find?_eq_some hq) rid hqrid
    · have hserver : server' = server := hapart.oneServer rid _ _ (h.ids _ hid').2 hleft
      have hid₂ : ((server, rid), q) ∈ s.openByReqid.items := hserver ▸ hid'
      exact hne (hq.trans (congrArg some (s.openByReqid.mem_unique hid₂ hid)))
    · -- a cut conversation is met first
      obtain ⟨-, l, b, l', hpast, ⟨a, ha, hjoins, hcuts⟩, rfl, hlater⟩ := hcut
      obtain ⟨hown, hothers⟩ := hapart.uncut rid l b l' hpast a ha hjoins hcuts
      by_cases hserver : server = entryServer b
      · exact hown (hlater _ hid (by rw [hserver]))
      · exact hothers server hserver hleft
  · exact hout hcut.1

end GroupState

open GroupState

/-! ## §4. The theorem. -/

variable {gap : Duration} {entries : List LogEntry}

variable (gap) in
/-- A call over lines that keep the ids apart returns, and passes over nothing. -/
theorem IdsApart.call (hids : (entries.map (·.id)).Nodup) (hapart : IdsApart entries) :
    ¬CallRaises gap entries ∧ (groupFinal gap {} entries).passedOver = ∅ := by
  have hmap : [] ++ entries.zipIdx.map Prod.fst = entries := List.zipIdx_map_fst 0 entries
  have hrun := told_empty.run gap entries.zipIdx (booked_start hids) (hmap.symm ▸ hapart.hashable)
  rw [hmap] at hrun
  have hfinal : groupFinal gap {} entries = ({} : GroupState Nat).run gap entries.zipIdx := by
    unfold groupFinal
    rw [unseen_empty]
    rfl
  refine ⟨fun hraises => ?_, ?_⟩
  · unfold CallRaises at hraises
    rw [unseen_empty] at hraises
    have hquiet : (({} : GroupState Nat)).runRaises gap entries.zipIdx = true := hraises
    rw [hrun.2] at hquiet
    cases hquiet
  · rw [hfinal]
    exact hrun.1.passedOver hapart

theorem IdsApart.sameFlush (hids : (entries.map (·.id)).Nodup) (hapart : IdsApart entries) :
    SameFlush gap entries := by
  refine .inr fun S _ => ?_
  have hids' : ((Stage2.linesOf S entries).map (·.id)).Nodup := hids.sublist (List.filter_sublist.map _)
  obtain ⟨hquiet, hnone⟩ := (hapart.linesOf S).call gap hids'
  refine ⟨hquiet, ?_⟩
  rw [hnone, (hapart.call gap hids).2]
  exact Set.eq_empty_of_subset_empty fun g hg => hg.1

/-- A stamped line of a server. -/
private def turnLine (server : String) (id : UUID) (kind : EntryType) (t : Instant) : LogEntry :=
  { id := id
    sourceFile := server ++ "/eSmartServerLog.txt"
    timestamp := some t
    entryType := kind
    fields := [("reqid", .str "R1")] }

/-- Server `A` ends its conversation `R1` before `B`, where one with this id is still open at the end. -/
def sameIdInTurn : List LogEntry :=
  [turnLine "A" 1 .request 0, turnLine "B" 2 .request 1, turnLine "A" 3 .response 2]

theorem sameIdInTurn_apart : IdsApart sameIdInTurn := by
  have hbodies : ∀ b ∈ sameIdInTurn, b.entryType ≠ .requestBody := by decide
  have honly : ∀ rid S, LeftOpen rid S sameIdInTurn → S = "B" := by
    rintro rid S ⟨l, a, r, heq, ⟨hstamp, hkind, hserver⟩, hends⟩
    match l with
    | [] =>
      -- the response of `A` comes later
      obtain ⟨rfl, rfl⟩ := List.cons.inj heq
      refine absurd ⟨hstamp, rfl, ?_⟩ (hends (turnLine "A" 3 .response 2) (by simp))
      exact (show entryServer (turnLine "A" 3 .response 2) = entryServer (turnLine "A" 1 .request 0) by
        decide +kernel).trans hserver
    | [_] =>
      obtain ⟨rfl, -⟩ := List.cons.inj (List.cons.inj heq).2
      exact hserver.symm.trans (show entryServer (turnLine "B" 2 .request 1) = "B" by decide +kernel)
    | [_, _] =>
      obtain ⟨rfl, -⟩ := List.cons.inj (List.cons.inj (List.cons.inj heq).2).2
      exact absurd rfl hkind
    | _ :: _ :: _ :: l =>
      have hlength := congrArg List.length heq
      simp [sameIdInTurn] at hlength
  refine ⟨?_, fun rid S T hS hT => (honly rid S hS).trans (honly rid T hT).symm, ?_⟩
  · unfold Hashable
    decide +kernel
  · intro rid l b r heq a _ _ hcuts
    exact absurd hcuts.body (hbodies b (heq ▸ List.mem_append_right _ List.mem_cons_self))

end RagPipeline.Stage2
