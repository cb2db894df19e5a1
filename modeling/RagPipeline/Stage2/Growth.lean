/-
  RagPipeline.Stage2.Growth — what one line can do to the conversations, said once.

  A line joins a builder that is open, or one closed a moment ago, or opens one; a pending request may
  come with it.  `route_grows` says this of every route of the grouper, in the terms an invariant on the
  builders' lines needs: what each builder becomes (`Grown`), which builders are open after it, which
  requests still wait, and what is remembered as closed.

    * `lateWork`      — the work line that rejoins a closed conversation is in its window;
    * `route_grows`   — one spec for all routes;
    * `sweep_shrinks` — the sweep before it takes out what is stale, and changes no builder;
    * `Filed.route`   — what the spec asks of the state is kept; `plants` for the seeds.
-/
import RagPipeline.Stage2.Conservation
import RagPipeline.Stage2.Sweep

namespace RagPipeline.Stage2

open RagPipeline.Lib

namespace GroupState

variable {ι : Type} [DecidableEq ι] {s s' : GroupState ι} {i : ι} {e : LogEntry}

/-! ## §1. What a builder becomes. -/

/-- A builder that can still take a line by its slot or its id. -/
def Open (s : GroupState ι) (r : BuilderRef ι) : Prop :=
  (∃ k, (k, r) ∈ s.openByKey.items) ∨ ∃ k, (k, r) ∈ s.openByReqid.items

/-- A builder closed at most `lateWorkWindow` before the line. -/
def JustClosed (s : GroupState ι) (e : LogEntry) (r : BuilderRef ι) : Prop :=
  ∃ k t now, (k, (r, t)) ∈ s.recentlyClosed.items ∧ e.timestamp = some now ∧ now - t ≤ lateWorkWindow

/-- The lines a builder has before it takes the line `e`. -/
inductive Base (s : GroupState ι) (i : ι) (r : BuilderRef ι) (b' : TxnBuilder) : List LogEntry → Prop
  | held (h : s.Open r) (hid : b'.reqid = (s.builder r).reqid) : Base s i r b' (s.builder r).entries
  | new (h : r = .line i) : Base s i r b' []

/-- What a builder is after the line `e` was routed. -/
inductive Grown (s : GroupState ι) (i : ι) (e : LogEntry) (r : BuilderRef ι) (b' : TxnBuilder) : Prop
  | same (h : b' = s.builder r)
  | took (base : List LogEntry) (hb : Base s i r b' base) (h : b'.entries = base ++ [e])
  | late (hb : s.JustClosed e r) (hid : b'.reqid = (s.builder r).reqid)
      (h : b'.entries = (s.builder r).entries ++ [e])
  | bound (base : List LogEntry) (hb : Base s i r b' base) (req : LogEntry) (hreq : req ∈ s.pendingReqs)
      (h : b'.entries = base ++ [e] ++ [req])
  | claimed (hr : r = .line i) (req : LogEntry) (hreq : req ∈ s.pendingReqs) (h : b'.entries = [req] ++ [e])
  | absorbed (base : List LogEntry) (hb : Base s i r b' base) (hst : isIdBuilder b' = true)
      (p : BuilderRef ι) (hp : s.Open p) (h : b'.entries = base ++ (s.builder p).entries ++ [e])

/-- What the state is after the line `e` was routed. -/
structure Grows (s : GroupState ι) (i : ι) (e : LogEntry) (s' : GroupState ι) : Prop where
  grown : ∀ r, Grown s i e r (s'.builder r)
  opened : ∀ r, s'.Open r → s.Open r ∨ r = .line i
  pending : ∀ x ∈ s'.pendingReqs, x ∈ s.pendingReqs ∨ (x = e ∧ e.entryType = .request)
  closed : ∀ p ∈ s'.recentlyClosed.items, p ∈ s.recentlyClosed.items ∨
    (e.timestamp = some p.2.2 ∧ e ∈ (s'.builder p.2.1).entries ∧ (s.Open p.2.1 ∨ p.2.1 = .line i))
  ids : ∀ p ∈ s'.openByReqid.items, p ∈ s.openByReqid.items ∨ isIdBuilder (s'.builder p.2) = true

/-- One builder is written, and the others stay. -/
theorem grown_of_write (r : BuilderRef ι) {b' : TxnBuilder} (hr : Grown s i e r b')
    (hother : ∀ x, s'.builder x = if x = r then b' else s.builder x) (x : BuilderRef ι) :
    Grown s i e x (s'.builder x) := by
  rw [hother]
  by_cases hx : x = r
  · rw [if_pos hx, hx]
    exact hr
  · rw [if_neg hx]
    exact .same rfl

omit [DecidableEq ι] in
theorem open_of_slot {k : StreamKey ι} {r : BuilderRef ι} (h : (k, r) ∈ s.openByKey.items) : s.Open r :=
  Or.inl ⟨k, h⟩

omit [DecidableEq ι] in
theorem open_of_id {k : String × String} {r : BuilderRef ι} (h : (k, r) ∈ s.openByReqid.items) : s.Open r :=
  Or.inr ⟨k, h⟩

omit [DecidableEq ι] in
/-- Fewer slots and ids leave fewer open builders. -/
theorem Open.of_subset {r : BuilderRef ι} (h : s'.Open r)
    (hslots : ∀ p ∈ s'.openByKey.items, p ∈ s.openByKey.items)
    (hids : ∀ p ∈ s'.openByReqid.items, p ∈ s.openByReqid.items) : s.Open r := by
  rcases h with ⟨k, hk⟩ | ⟨k, hk⟩
  · exact open_of_slot (hslots _ hk)
  · exact open_of_id (hids _ hk)

/-- A set slot opens its builder. -/
theorem open_of_set {k : StreamKey ι} {r x : BuilderRef ι}
    (hslots : s'.openByKey = s.openByKey.set k r) (hids : ∀ p ∈ s'.openByReqid.items, p ∈ s.openByReqid.items)
    (h : s'.Open x) : s.Open x ∨ x = r := by
  rcases h with ⟨k', hk⟩ | ⟨k', hk⟩
  · rw [hslots] at hk
    rcases OrderedDict.mem_set.mp hk with ⟨-, hx⟩ | ⟨-, hm⟩
    · exact Or.inr hx
    · exact Or.inl (open_of_slot hm)
  · exact Or.inl (open_of_id (hids _ hk))

/-! ## §2. Work lines. -/

/-- A work line that rejoins a closed conversation comes within the window. -/
theorem lateWork (h : (s.workTarget i e).1 = none) :
    ∃ r, s.JustClosed e r ∧ (s.workTarget i e).2 = s.modify r (·.add e) := by
  unfold workTarget at h ⊢
  simp only at h ⊢
  cases hu : e.contextUser with
  | none =>
    rw [hu] at h
    cases hc : (s.currentByThread.get? (entryServer e, e.thread)).bind s.openByKey.get? with
    | none => simp [hc] at h
    | some r => simp [hc] at h
  | some u =>
    rw [hu] at h
    cases hk : s.openByKey.get? ⟨entryServer e, e.thread, some u, none⟩ with
    | some r => simp [hk] at h
    | none =>
      simp only [hk] at h ⊢
      by_cases hfresh : s.freshRequest (entryServer e) e.thread (some u) = true
      · simp [hfresh] at h
      · simp only [if_neg hfresh] at h ⊢
        -- nothing is opened only where the line rejoins a conversation closed within the window
        unfold rejoinLateWork at h ⊢
        cases hrc : s.recentlyClosed.get? (StreamKey.closedKey
            (⟨entryServer e, e.thread, some u, none⟩ : StreamKey ι)) with
        | none => simp [hrc] at h
        | some q =>
          cases ht : e.timestamp with
          | none => simp [hrc, ht] at h
          | some now =>
            by_cases hold : now - q.2 > lateWorkWindow
            · simp [hrc, ht, hold] at h
            · have hin : now - q.2 ≤ lateWorkWindow := not_lt.mp hold
              refine ⟨q.1, ⟨_, q.2, now, OrderedDict.get?_eq_some.mp hrc, ht, hin⟩, ?_⟩
              simp [hold]

theorem Base.congr {r : BuilderRef ι} {b b' : TxnBuilder} {base : List LogEntry} (h : Base s i r b base)
    (hid : b'.reqid = b.reqid) : Base s i r b' base := by
  cases h with
  | held ho hr => exact .held ho (hid.trans hr)
  | new hr => exact .new hr

/-- The state in which a work line is added: nothing but the builder `r` may have changed, and what waits
    and what is remembered was there before. -/
structure Placed (s : GroupState ι) (i : ι) (r : BuilderRef ι) (s₁ : GroupState ι) : Prop where
  base : Base s i r (s₁.builder r) (s₁.builder r).entries ∨
    (r = .line i ∧ ∃ req ∈ s.pendingReqs, (s₁.builder r).entries = [req])
  other : ∀ x, x ≠ r → s₁.builder x = s.builder x
  opened : ∀ x, s₁.Open x → s.Open x ∨ x = .line i
  pending : ∀ x ∈ s₁.pendingReqs, x ∈ s.pendingReqs
  closed : ∀ p ∈ s₁.recentlyClosed.items, p ∈ s.recentlyClosed.items
  ids : ∀ p ∈ s₁.openByReqid.items, p ∈ s.openByReqid.items

theorem builder_bind (s : GroupState ι) (r x : BuilderRef ι) (q : LogEntry × List LogEntry) :
    (s.bind r (some q)).builder x =
      if x = r then { (s.builder r).add q.1 with openPos := streamPos q.1 } else s.builder x :=
  builder_modify { s with pendingReqs := q.2 } r x _

theorem hasRequest_of_mem {b : TxnBuilder} {x : LogEntry} (hx : x ∈ b.entries) (ht : x.entryType = .request) :
    hasRequest b = true :=
  List.any_eq_true.mpr ⟨x, hx, decide_eq_true ht⟩

/-- The line is added, and a request of its user comes with it if the builder has none. -/
theorem Placed.grows {r : BuilderRef ι} {s₁ : GroupState ι} (h : Placed s i r s₁)
    (hreqs : ∀ x ∈ s.pendingReqs, x.entryType = .request) {taken : Taken}
    (htaken : Takes s₁.pendingReqs taken) {wanted : Bool} :
    let s₂ := s₁.modify r (·.add e)
    Grows s i e (if wanted && !hasRequest (s₂.builder r) then s₂.bind r taken else s₂) := by
  intro s₂
  have hadd : ∀ x, s₂.builder x = if x = r then (s₁.builder r).add e else s.builder x := by
    intro x
    rw [builder_modify]
    by_cases hx : x = r
    · rw [if_pos hx, if_pos hx]
    · rw [if_neg hx, if_neg hx, h.other x hx]
  -- the line itself
  have hplain : Grows s i e s₂ := by
    refine ⟨grown_of_write r ?_ hadd, h.opened, fun x hx => Or.inl (h.pending x hx),
      fun p hp => Or.inl (h.closed p hp), fun p hp => Or.inl (h.ids p hp)⟩
    rcases h.base with hb | ⟨hr, req, hreq, hone⟩
    · exact .took _ (hb.congr rfl) rfl
    · refine .claimed hr req hreq ?_
      show (s₁.builder r).entries ++ [e] = [req] ++ [e]
      rw [hone]
  by_cases hbind : (wanted && !hasRequest (s₂.builder r)) = true
  · rw [if_pos hbind]
    cases taken with
    | none => exact hplain
    | some q =>
      have hperm := htaken q.1 q.2 rfl
      have hreq : q.1 ∈ s.pendingReqs := h.pending q.1 (hperm.mem_iff.mpr List.mem_cons_self)
      have hgrown : Grown s i e r { (s₂.builder r).add q.1 with openPos := streamPos q.1 } := by
        rcases h.base with hb | ⟨-, req, hreq', hone⟩
        · refine .bound _ (hb.congr ?_) q.1 hreq ?_
          · show (s₂.builder r).reqid = _
            rw [hadd, if_pos rfl]
            rfl
          · show (s₂.builder r).entries ++ [q.1] = _
            rw [hadd, if_pos rfl]
            rfl
        · -- the builder has its request already
          have hmem : req ∈ (s₂.builder r).entries := by
            rw [hadd, if_pos rfl]
            show req ∈ (s₁.builder r).entries ++ [e]
            rw [hone]
            exact List.mem_cons_self
          rw [hasRequest_of_mem hmem (hreqs req hreq')] at hbind
          simp at hbind
      refine ⟨grown_of_write r hgrown ?_, h.opened, ?_, fun p hp => Or.inl (h.closed p hp),
        fun p hp => Or.inl (h.ids p hp)⟩
      · intro x
        rw [builder_bind]
        by_cases hx : x = r
        · rw [if_pos hx, if_pos hx]
        · rw [if_neg hx, if_neg hx, hadd, if_neg hx]
      · intro x hx
        exact Or.inl (h.pending x (hperm.mem_iff.mpr (List.mem_cons_of_mem _ hx)))
  · rw [if_neg hbind]
    exact hplain

/-- A slot opened for the line. -/
theorem placed_openSlot (k : StreamKey ι) {rc : OrderedDict ClosedKey (BuilderRef ι × Instant)}
    (hrc : ∀ p ∈ rc.items, p ∈ s.recentlyClosed.items) :
    Placed s i (.line i) ({ s with recentlyClosed := rc }.openSlot i k e) := by
  have hbuild : ∀ x, ({ s with recentlyClosed := rc }.openSlot i k e).builder x =
      if x = .line i then { openPos := streamPos e } else s.builder x := fun x => getD_set _ _ _ _
  refine ⟨Or.inl ?_, ?_, ?_, fun x hx => hx, hrc, fun _ hp => hp⟩
  · rw [hbuild, if_pos rfl]
    exact .new rfl
  · intro x hx
    rw [hbuild, if_neg hx]
  · intro x hx
    refine open_of_set (s := s) (k := k) ?_ ?_ hx
    · rfl
    · exact fun _ hp => hp

/-- An anonymous slot, with the request the thread logged just before. -/
theorem placed_anonymous {k : StreamKey ι} {taken : Taken} (htaken : Takes s.pendingReqs taken) :
    Placed s i (.line i) ((s.openSlot i k e).bind (.line i) taken) := by
  have hslot : Placed s i (.line i) (s.openSlot i k e) := placed_openSlot k (fun _ hp => hp)
  have hnew : (s.openSlot i k e).builder (.line i) = { openPos := streamPos e } := by
    unfold openSlot builder
    rw [OrderedDict.get?_set_self]
    rfl
  cases taken with
  | none => exact hslot
  | some q =>
    have hperm := htaken q.1 q.2 rfl
    have hbuild : ∀ x, _ := fun x => builder_bind (s.openSlot i k e) (.line i) x q
    refine ⟨Or.inr ⟨rfl, q.1, hperm.mem_iff.mpr List.mem_cons_self, ?_⟩, ?_, hslot.opened, ?_, hslot.closed,
      hslot.ids⟩
    · rw [hbuild, if_pos rfl]
      show ((s.openSlot i k e).builder (.line i)).entries ++ [q.1] = [q.1]
      rw [hnew]
      rfl
    · intro x hx
      rw [hbuild, if_neg hx]
      exact hslot.other x hx
    · intro x hx
      exact hperm.mem_iff.mpr (List.mem_cons_of_mem _ hx)

theorem work_grows (hreqs : ∀ x ∈ s.pendingReqs, x.entryType = .request) : Grows s i e (s.work i e) := by
  have hroute := workRoute s i e
  have hlate := lateWork (s := s) (i := i) (e := e)
  unfold work
  generalize s.workTarget i e = w at hroute hlate
  cases hroute with
  | own u r hu hk =>
    have hopen := open_of_slot (OrderedDict.get?_eq_some.mp hk)
    have hplaced : Placed s i r { s with
        currentByThread := s.currentByThread.set (entryServer e, e.thread)
          ⟨entryServer e, e.thread, some u, none⟩ } :=
      ⟨Or.inl (.held hopen rfl), fun _ _ => rfl, fun _ hx => Or.inl hx, fun _ hx => hx, fun _ hp => hp,
        fun _ hp => hp⟩
    exact hplaced.grows hreqs (takes_byUser _ _ _ _)
  | fresh u rc hu hk hrc =>
    -- only the window of recent closes can shrink here
    have hsub : ∀ p ∈ rc.items, p ∈ s.recentlyClosed.items := by
      rcases hrc with rfl | rfl
      · exact fun p hp => hp
      · exact fun p hp => (List.mem_filter.mp hp).1
    exact (placed_openSlot _ hsub).grows hreqs (takes_byUser _ _ _ _)
  | late u r t hu hrc =>
    obtain ⟨r', hclosed, heq⟩ := hlate rfl
    show Grows s i e (s.modify r (·.add e))
    rw [show s.modify r (·.add e) = s.modify r' (·.add e) from heq]
    have hbuild : ∀ x, (s.modify r' (·.add e)).builder x =
        if x = r' then (s.builder r').add e else s.builder x := fun x => builder_modify s r' x (·.add e)
    have hgrown : Grown s i e r' ((s.builder r').add e) := .late hclosed rfl rfl
    exact ⟨grown_of_write r' hgrown hbuild, fun _ hx => Or.inl hx, fun _ hx => Or.inl hx,
      fun _ hp => Or.inl hp, fun _ hp => Or.inl hp⟩
  | inherited k r hu hc hk =>
    have hopen := open_of_slot (OrderedDict.get?_eq_some.mp hk)
    have hplaced : Placed s i r s :=
      ⟨Or.inl (.held hopen rfl), fun _ _ => rfl, fun _ hx => Or.inl hx, fun _ hx => hx, fun _ hp => hp,
        fun _ hp => hp⟩
    exact hplaced.grows hreqs (takes_byUser _ _ _ _)
  | anonymous hu => exact (placed_anonymous (takes_anonymous _ _ _)).grows hreqs (takes_byUser _ _ _ _)

/-! ## §3. Bodies and responses. -/

/-- Fewer of everything, and the same builders. -/
structure Shrunk (s s' : GroupState ι) : Prop where
  builder : ∀ r, s'.builder r = s.builder r
  slots : ∀ p ∈ s'.openByKey.items, p ∈ s.openByKey.items
  ids : ∀ p ∈ s'.openByReqid.items, p ∈ s.openByReqid.items
  pending : ∀ x ∈ s'.pendingReqs, x ∈ s.pendingReqs
  closed : ∀ p ∈ s'.recentlyClosed.items, p ∈ s.recentlyClosed.items

theorem Shrunk.opened (h : Shrunk s s') {r : BuilderRef ι} (hr : s'.Open r) : s.Open r :=
  hr.of_subset h.slots h.ids

theorem shrunk_closeInto (s : GroupState ι) (k : StreamKey ι) : Shrunk s (s.closeInto k) := by
  refine ⟨fun r => by unfold builder; rw [closeInto_heap], ?_, ?_, fun x hx => by simpa using hx, ?_⟩
  · intro p hp
    rw [closeInto_openByKey] at hp
    exact (List.mem_filter.mp hp).1
  · intro p hp
    cases hk : s.openByKey.get? k with
    | none =>
      rw [closeInto_of_none s k hk] at hp
      exact hp
    | some r =>
      rw [closeInto_of_get? s k r hk] at hp
      simp only [giveBack, forgetId, releaseSlot_openByReqid] at hp
      exact (List.mem_filter.mp hp).1
  · intro p hp
    cases hk : s.openByKey.get? k with
    | none =>
      rw [closeInto_of_none s k hk] at hp
      exact hp
    | some r =>
      rw [closeInto_of_get? s k r hk] at hp
      simpa only [giveBack, forgetId, releaseSlot_recentlyClosed] using hp

theorem requestBody_grows : Grows s i e (s.requestBody i e) := by
  have hshrunk := shrunk_closeInto s ⟨entryServer e, e.thread, reqUser e, none⟩
  unfold requestBody
  simp only
  -- first the body's slot is closed, which opens nothing; then the body takes a waiting request, if there is one
  generalize s.closeInto ⟨entryServer e, e.thread, reqUser e, none⟩ = s₁ at hshrunk
  have htaken : Takes s₁.pendingReqs ((takeByReqid s₁.pendingReqs (entryReqid e) (entryServer e)).or
      (takePostRequest s₁.pendingReqs (entryServer e) e.thread (reqUser e))) :=
    takes_or (takes_byReqid _ _ _) (takes_preferred _ _ _)
  generalize (takeByReqid s₁.pendingReqs (entryReqid e) (entryServer e)).or
      (takePostRequest s₁.pendingReqs (entryServer e) e.thread (reqUser e)) = taken at htaken
  have hopened : ∀ (s₂ : GroupState ι), s₂.openByKey = s₁.openByKey.set
      ⟨entryServer e, e.thread, reqUser e, none⟩ (.line i) → s₂.openByReqid = s₁.openByReqid →
      ∀ r, s₂.Open r → s.Open r ∨ r = .line i := by
    intro s₂ hkey hid r hr
    exact (open_of_set hkey (fun p hp => hid ▸ hp) hr).imp hshrunk.opened id
  cases taken with
  | none =>
    have hgrown : Grown s i e (.line i) { entries := [e], openPos := streamPos e } := .took [] (.new rfl) rfl
    refine ⟨grown_of_write (.line i) hgrown ?_, hopened _ rfl rfl, ?_,
      fun p hp => Or.inl (hshrunk.closed p hp), fun p hp => Or.inl (hshrunk.ids p hp)⟩
    · intro x
      exact (getD_set _ _ _ _).trans (by rw [show (s₁.heap.get? x).getD {} = s.builder x from hshrunk.builder x])
    · exact fun x hx => Or.inl (hshrunk.pending x hx)
  | some q =>
    have hperm := htaken q.1 q.2 rfl
    have hreq := hshrunk.pending q.1 (hperm.mem_iff.mpr List.mem_cons_self)
    have hgrown : Grown s i e (.line i) { entries := [q.1, e], openPos := streamPos q.1 } :=
      .claimed rfl q.1 hreq rfl
    refine ⟨grown_of_write (.line i) hgrown ?_, hopened _ rfl rfl, ?_,
      fun p hp => Or.inl (hshrunk.closed p hp), fun p hp => Or.inl (hshrunk.ids p hp)⟩
    · intro x
      exact (getD_set _ _ _ _).trans (by rw [show (s₁.heap.get? x).getD {} = s.builder x from hshrunk.builder x])
    · exact fun x hx => Or.inl (hshrunk.pending x (hperm.mem_iff.mpr (List.mem_cons_of_mem _ hx)))

/-- Remembering a builder that has just taken the line. -/
theorem Grows.rememberClosed {r : BuilderRef ι} (h : Grows s i e s') (k : ClosedKey)
    (he : e ∈ (s'.builder r).entries) (hr : s.Open r ∨ r = .line i) : Grows s i e (s'.rememberClosed k r e) := by
  unfold GroupState.rememberClosed
  cases ht : e.timestamp with
  | none => exact h
  | some t =>
    refine ⟨h.grown, h.opened, h.pending, ?_, h.ids⟩
    rintro ⟨k', q⟩ hp
    rcases OrderedDict.mem_set.mp hp with ⟨-, rfl⟩ | ⟨-, hm⟩
    · exact Or.inr ⟨ht, he, hr⟩
    · exact h.closed _ hm

/-- An open builder takes the line, and leaves some of its places. -/
theorem grows_add {r : BuilderRef ι} (hr : s.Open r) (hshrunk : Shrunk s s') :
    Grows s i e (s'.modify r (·.add e)) ∧ e ∈ ((s'.modify r (·.add e)).builder r).entries := by
  have hbuild : ∀ x, (s'.modify r (·.add e)).builder x =
      if x = r then (s.builder r).add e else s.builder x := by
    intro x
    rw [builder_modify, hshrunk.builder, hshrunk.builder]
  have hgrown : Grown s i e r ((s.builder r).add e) := .took _ (.held hr rfl) rfl
  refine ⟨⟨grown_of_write r hgrown hbuild, fun x hx => Or.inl (hshrunk.opened hx),
    fun x hx => Or.inl (hshrunk.pending x hx), fun p hp => Or.inl (hshrunk.closed p hp),
    fun p hp => Or.inl (hshrunk.ids p hp)⟩, ?_⟩
  rw [hbuild, if_pos rfl]
  exact List.mem_append_right _ (List.mem_singleton_self e)

/-- A builder of its own for the line, with a request that waited or alone. -/
theorem grows_own {b : TxnBuilder} {pending : List LogEntry}
    (hb : b.entries = [e] ∨ ∃ req ∈ s.pendingReqs, b.entries = [req, e])
    (hpending : ∀ x ∈ pending, x ∈ s.pendingReqs) :
    Grows s i e { s with heap := s.heap.set (.line i) b, pendingReqs := pending } := by
  have hgrown : Grown s i e (.line i) b := by
    rcases hb with hone | ⟨req, hreq, htwo⟩
    · exact .took [] (.new rfl) hone
    · exact .claimed rfl req hreq htwo
  exact ⟨grown_of_write (.line i) hgrown (fun x => getD_set _ _ _ _), fun _ hx => Or.inl hx,
    fun x hx => Or.inl (hpending x hx), fun _ hp => Or.inl hp, fun _ hp => Or.inl hp⟩

theorem Grows.giveBack (h : Grows s i e s') (r : BuilderRef ι) : Grows s i e (s'.giveBack r) :=
  ⟨h.grown, h.opened, h.pending, h.closed, h.ids⟩

theorem response_grows : Grows s i e (s.response i e) := by
  have hroute := responseRoute s i e
  generalize s.response i e = s₁ at hroute
  cases hroute with
  | builder k r hk =>
    have hslot := (candidates_slot hk).1
    rw [answerBuilder_eq e (OrderedDict.get?_eq_some.mpr hslot)]
    obtain ⟨hgrows, hmem⟩ := grows_add (i := i) (e := e) (open_of_slot hslot) (shrunk_closeInto s k)
    exact hgrows.rememberClosed _ hmem (Or.inl (open_of_slot hslot))
  | request req hreq =>
    have hpending := (candidates_request hreq).1
    unfold answerRequest
    have hown : Grows s i e { s with
        heap := s.heap.set (.line i) { entries := [req, e], openPos := streamPos req }
        pendingReqs := s.pendingReqs.eraseP (fun r => decide (r.id = req.id)) } :=
      grows_own (Or.inr ⟨req, hpending, rfl⟩) (fun x hx => List.mem_of_mem_eraseP hx)
    refine (hown.rememberClosed _ ?_ (Or.inr rfl)).giveBack _
    show e ∈ (((s.heap.set _ _).get? _).getD {}).entries
    rw [OrderedDict.get?_set_self]
    exact List.mem_cons_of_mem _ List.mem_cons_self
  | orphan =>
    unfold orphan
    exact (grows_own (Or.inl rfl) (fun x hx => hx)).giveBack _

/-! ## §4. Stamped lines. -/

theorem closeStamped_grows (rid : String) : Grows s i e (s.closeStamped i e rid) := by
  cases h : s.openByReqid.get? (entryServer e, rid) with
  | some r =>
    obtain ⟨s₁, hclose, hheap, hbuilders, hids, hclosed, hpending, hslots⟩ := closeIdBuilder_some h
    obtain ⟨head, -, heq⟩ := closeStamped_some i hclose
    have hopen : s.Open r := open_of_id (OrderedDict.get?_eq_some.mp h)
    have hshrunk : Shrunk s (s₁.giveBack r) := by
      refine ⟨fun x => ?_, fun p hp => ((hslots p).mp hp).1, fun p hp => ?_, fun x hx => ?_, fun p hp => ?_⟩
      · show (s₁.heap.get? x).getD {} = s.builder x
        rw [hheap]
        rfl
      · have hp' : p ∈ s₁.openByReqid.items := hp
        rw [hids] at hp'
        exact (List.mem_filter.mp hp').1
      · have hx' : x ∈ s₁.pendingReqs := hx
        rwa [hpending] at hx'
      · have hp' : p ∈ s₁.recentlyClosed.items := hp
        rwa [hclosed] at hp'
    rw [heq]
    obtain ⟨hgrows, hmem⟩ := grows_add (i := i) (e := e) hopen hshrunk
    exact hgrows.rememberClosed _ hmem (Or.inl hopen)
  | none =>
    rw [closeStamped_none i h]
    have hown : Grows s i e { s with heap := s.heap.set (.line i) { entries := [e], openPos := streamPos e } } :=
      grows_own (Or.inl rfl) (fun x hx => hx)
    refine (hown.giveBack _).rememberClosed _ ?_ (Or.inr rfl)
    show e ∈ (((s.heap.set _ _).get? _).getD {}).entries
    rw [OrderedDict.get?_set_self]
    exact List.mem_cons_self

/-- The conversation a stamped line joins, before the line is added. -/
structure Routed (s : GroupState ι) (i : ι) (r : BuilderRef ι) (s₁ : GroupState ι) : Prop where
  base : Base s i r (s₁.builder r) (s₁.builder r).entries
  other : ∀ x, x ≠ r → s₁.builder x = s.builder x
  opened : ∀ x, s₁.Open x → s.Open x ∨ x = .line i
  known : r = .line i ∨ s.Open r
  slots : ∀ p ∈ s₁.openByKey.items, p ∈ s.openByKey.items
  pending : s₁.pendingReqs = s.pendingReqs
  closed : s₁.recentlyClosed = s.recentlyClosed
  ids : ∀ p ∈ s₁.openByReqid.items, p ∈ s.openByReqid.items ∨ p.2 = r
  stamped : isIdBuilder (s₁.builder r) = true

theorem routed_stampedBuilder (hstamped : ∀ p ∈ s.openByReqid.items, s.Stamped p.2) (srv rid : String) :
    Routed s i (s.stampedBuilder i srv rid e).1 (s.stampedBuilder i srv rid e).2 := by
  unfold stampedBuilder
  cases h : s.openByReqid.get? (srv, rid) with
  | some r =>
    have hopen : s.Open r := open_of_id (OrderedDict.get?_eq_some.mp h)
    exact ⟨.held hopen rfl, fun _ _ => rfl, fun _ hx => Or.inl hx, Or.inr hopen, fun _ hp => hp, rfl, rfl,
      fun _ hp => Or.inl hp, hstamped _ (OrderedDict.get?_eq_some.mp h)⟩
  | none =>
    have hbuild : ∀ x, ((s.heap.set (.line i) { entries := [], openPos := streamPos e, reqid := some rid }).get?
        x).getD {} = if x = .line i then { entries := [], openPos := streamPos e, reqid := some rid }
          else s.builder x := fun x => getD_set _ _ _ _
    refine ⟨?_, ?_, ?_, Or.inl rfl, fun _ hp => hp, rfl, rfl, ?_, ?_⟩
    · show Base s i (.line i) (((s.heap.set _ _).get? _).getD {}) (((s.heap.set _ _).get? _).getD {}).entries
      rw [hbuild, if_pos rfl]
      exact .new rfl
    · intro x hx
      exact (hbuild x).trans (if_neg hx)
    · intro x hx
      rcases hx with ⟨k, hk⟩ | ⟨k, hk⟩
      · exact Or.inl (open_of_slot hk)
      · rcases OrderedDict.mem_set.mp hk with ⟨-, hx⟩ | ⟨-, hm⟩
        · exact Or.inr hx
        · exact Or.inl (open_of_id hm)
    · rintro ⟨k, x⟩ hp
      rcases OrderedDict.mem_set.mp hp with ⟨-, hx⟩ | ⟨-, hm⟩
      · exact Or.inr hx
      · exact Or.inl hm
    · show isIdBuilder (((s.heap.set _ _).get? _).getD {}) = true
      rw [OrderedDict.get?_set_self]
      rfl

/-- The stamped conversation takes its slot and the line, after whatever it absorbed. -/
theorem Routed.grows {r : BuilderRef ι} {s₁ : GroupState ι} (h : Routed s i r s₁) (s₂ : GroupState ι)
    {k : StreamKey ι} {b' : TxnBuilder} (hgrown : Grown s i e r (b'.add e))
    (hbuild : ∀ x, s₂.builder x = if x = r then b' else s₁.builder x)
    (hslots : ∀ p ∈ s₂.openByKey.items, p ∈ s₁.openByKey.items) (hids : s₂.openByReqid = s₁.openByReqid)
    (hpending : s₂.pendingReqs = s₁.pendingReqs) (hclosed : s₂.recentlyClosed = s₁.recentlyClosed)
    (hid : b'.reqid = (s₁.builder r).reqid) (c : OrderedDict ThreadKey (StreamKey ι)) :
    Grows s i e ({ s₂ with openByKey := s₂.openByKey.set k r, currentByThread := c }.modify r (·.add e)) := by
  have hwrite : ∀ x, ({ s₂ with openByKey := s₂.openByKey.set k r, currentByThread := c }.modify r
      (·.add e)).builder x = if x = r then b'.add e else s.builder x := by
    intro x
    refine (builder_modify _ r x _).trans ?_
    show (if x = r then (s₂.builder r).add e else s₂.builder x) = _
    by_cases hx : x = r
    · rw [if_pos hx, if_pos hx, hbuild, if_pos rfl]
    · rw [if_neg hx, if_neg hx, hbuild, if_neg hx, h.other x hx]
  refine ⟨grown_of_write r hgrown hwrite, ?_, ?_, ?_, ?_⟩
  · intro x hx
    -- what is open was open, or is the conversation itself
    have hcases : s₁.Open x ∨ x = r := by
      rcases hx with ⟨k', hk⟩ | ⟨k', hk⟩
      · rcases OrderedDict.mem_set.mp hk with ⟨-, hx⟩ | ⟨-, hm⟩
        · exact Or.inr hx
        · exact Or.inl (open_of_slot (hslots _ hm))
      · exact Or.inl (open_of_id (hids ▸ hk))
    rcases hcases with hopen | rfl
    · exact h.opened x hopen
    · exact h.known.symm
  · intro x hx
    have hx' : x ∈ s₂.pendingReqs := hx
    rw [hpending, h.pending] at hx'
    exact Or.inl hx'
  · intro p hp
    have hp' : p ∈ s₂.recentlyClosed.items := hp
    rw [hclosed, h.closed] at hp'
    exact Or.inl hp'
  · intro p hp
    have hp' : p ∈ s₂.openByReqid.items := hp
    rw [hids] at hp'
    rcases h.ids p hp' with hold | hnew
    · exact Or.inl hold
    · refine Or.inr ?_
      rw [hwrite, if_pos hnew]
      show b'.reqid.isSome = true
      rw [hid]
      exact h.stamped

theorem joinStamped_grows (hstamped : ∀ p ∈ s.openByReqid.items, s.Stamped p.2) (rid : String) :
    Grows s i e (s.joinStamped i e rid) := by
  have hrouted := routed_stampedBuilder (i := i) (e := e) hstamped (entryServer e) rid
  unfold joinStamped openIdBuilder
  generalize s.stampedBuilder i (entryServer e) rid e = q at hrouted
  obtain ⟨r, s₁⟩ := q
  simp only at hrouted ⊢
  rcases s₁.absorb_cases r (stampedKey (entryServer e) e) with ⟨p, hk, habsorb, heq⟩ | heq
  · -- the headless work on the slot goes into the conversation
    rw [heq]
    have hslot := OrderedDict.get?_eq_some.mp hk
    have hne : p ≠ r := of_decide_eq_true (Bool.and_eq_true_iff.mp habsorb).1
    have hgrown : Grown s i e r (TxnBuilder.add { s₁.builder r with
        entries := (s₁.builder r).entries ++ (s₁.builder p).entries
        openPos := absorbedPos (s₁.builder r).openPos (s₁.builder p).openPos } e) := by
      refine .absorbed _ (hrouted.base.congr rfl) hrouted.stamped p (open_of_slot (hrouted.slots _ hslot)) ?_
      show (s₁.builder r).entries ++ (s₁.builder p).entries ++ [e] = _
      rw [hrouted.other p hne]
    refine hrouted.grows { (s₁.modify r fun b => { b with
        entries := b.entries ++ (s₁.builder p).entries
        openPos := absorbedPos b.openPos (s₁.builder p).openPos }) with
      openByKey := s₁.openByKey.erase (stampedKey (entryServer e) e) } hgrown
      (fun x => getD_set s₁.heap r x _) ?_ rfl rfl rfl rfl _
    intro q hq
    exact (List.mem_filter.mp hq).1
  · rw [heq]
    refine hrouted.grows s₁ (.took _ (hrouted.base.congr rfl) rfl) ?_ (fun _ hp => hp) rfl rfl rfl rfl _
    intro x
    by_cases hx : x = r
    · rw [if_pos hx, hx]
    · rw [if_neg hx]

/-- **What one line can do**, by whatever route. -/
theorem route_grows (hstamped : ∀ p ∈ s.openByReqid.items, s.Stamped p.2)
    (hreqs : ∀ x ∈ s.pendingReqs, x.entryType = .request) : Grows s i e (s.route i e) := by
  unfold route
  cases s.routedId e with
  | some rid =>
    simp only
    split
    · exact closeStamped_grows rid
    · exact joinStamped_grows hstamped rid
  | none =>
    simp only
    cases ht : e.entryType with
    | request =>
      refine ⟨fun r => .same rfl, fun _ hr => Or.inl hr, ?_, fun _ hp => Or.inl hp, fun _ hp => Or.inl hp⟩
      intro x hx
      rcases List.mem_append.mp hx with hold | hnew
      · exact Or.inl hold
      · exact Or.inr ⟨List.mem_singleton.mp hnew, ht⟩
    | requestBody => exact requestBody_grows
    | response => exact response_grows
    | miCall | miResult | sql | info | error => exact work_grows hreqs

/-! ## §5. The sweep before it. -/

/-- The sweep changes no builder, and what is open or waits after it was heard from since the horizon. -/
theorem sweep_shrinks (gap : Duration) (s : GroupState ι) (now : Instant) :
    Shrunk s (s.evictStale gap now)
      ∧ (∀ r, (s.evictStale gap now).Open r → s.stale (now - gap) r = false)
      ∧ ∀ x ∈ (s.evictStale gap now).pendingReqs, olderThan (now - gap) x.timestamp = false := by
  have hswept := swept_evictStale gap s now
  -- slots, ids and waiting requests are each filtered by the horizon
  have hslot : ∀ p ∈ (s.evictStale gap now).openByKey.items,
      p ∈ s.openByKey.items ∧ s.stale (now - gap) p.2 = false := by
    intro p hp
    rw [hswept.slots] at hp
    obtain ⟨hm, hfresh⟩ := List.mem_filter.mp hp
    exact ⟨hm, by simpa using hfresh⟩
  have hid : ∀ p ∈ (s.evictStale gap now).openByReqid.items,
      p ∈ s.openByReqid.items ∧ s.stale (now - gap) p.2 = false := by
    intro p hp
    rw [hswept.ids] at hp
    obtain ⟨hm, hfresh⟩ := List.mem_filter.mp hp
    exact ⟨hm, by simpa using hfresh⟩
  have hpending : ∀ x ∈ (s.evictStale gap now).pendingReqs,
      x ∈ s.pendingReqs ∧ olderThan (now - gap) x.timestamp = false := by
    intro x hx
    rw [hswept.pending] at hx
    obtain ⟨hm, hfresh⟩ := List.mem_filter.mp hx
    exact ⟨hm, by simpa using hfresh⟩
  refine ⟨⟨hswept.builder, fun p hp => (hslot p hp).1, fun p hp => (hid p hp).1,
    fun x hx => (hpending x hx).1, fun p hp => by rwa [hswept.closed] at hp⟩, ?_,
    fun x hx => (hpending x hx).2⟩
  intro r hr
  rcases hr with ⟨k, hk⟩ | ⟨k, hk⟩
  · exact (hslot _ hk).2
  · exact (hid _ hk).2

/-! ## §6. Who knows which builder. -/

/-- What the specification needs, and keeps: `seen` are the references handed out so far. -/
structure Filed (seen : Set (BuilderRef ι)) (s : GroupState ι) : Prop where
  requests : ∀ x ∈ s.pendingReqs, x.entryType = .request
  known : ∀ r, (s.Open r ∨ ∃ p ∈ s.recentlyClosed.items, p.2.1 = r) → r ∈ seen
  blank : ∀ r, r ∉ seen → (s.builder r).entries = []
  stamped : ∀ p ∈ s.openByReqid.items, s.Stamped p.2

variable {seen : Set (BuilderRef ι)}

/-- An old builder keeps its id, and its lines. -/
theorem Grown.keeps {r : BuilderRef ι} {b' : TxnBuilder} (h : Grown s i e r b') (hr : r ≠ .line i) :
    b'.reqid = (s.builder r).reqid ∧ (s.builder r).entries <+: b'.entries := by
  have hbase : ∀ base, Base s i r b' base → b'.reqid = (s.builder r).reqid ∧ base = (s.builder r).entries := by
    intro base hb
    cases hb with
    | held _ hid => exact ⟨hid, rfl⟩
    | new hnew => exact absurd hnew hr
  cases h with
  | same h => exact ⟨by rw [h], by rw [h]⟩
  | took base hb h =>
    obtain ⟨hid, rfl⟩ := hbase base hb
    exact ⟨hid, ⟨[e], h.symm⟩⟩
  | late _ hid h => exact ⟨hid, ⟨[e], h.symm⟩⟩
  | bound base hb req _ h =>
    obtain ⟨hid, rfl⟩ := hbase base hb
    exact ⟨hid, ⟨[e] ++ [req], by rw [h, List.append_assoc]⟩⟩
  | claimed hnew _ _ _ => exact absurd hnew hr
  | absorbed base hb _ p _ h =>
    obtain ⟨hid, rfl⟩ := hbase base hb
    exact ⟨hid, ⟨(s.builder p).entries ++ [e], by rw [h, List.append_assoc]⟩⟩

/-- A builder nobody knows of does not change. -/
theorem Grown.unknown {r : BuilderRef ι} {b' : TxnBuilder} (h : Grown s i e r b')
    (hd : Filed seen s) (hr : r ∉ insert (BuilderRef.line i) seen) : b' = s.builder r := by
  have hne : r ≠ .line i := fun heq => hr (Or.inl heq)
  have hopen : ¬ s.Open r := fun ho => hr (Or.inr (hd.known r (Or.inl ho)))
  have hbase : ∀ base, ¬ Base s i r b' base := by
    intro base hb
    cases hb with
    | held ho _ => exact hopen ho
    | new hnew => exact hne hnew
  cases h with
  | same h => exact h
  | took base hb _ => exact absurd hb (hbase base)
  | late hclosed _ _ =>
    obtain ⟨k, t, now, hm, -, -⟩ := hclosed
    exact absurd (hd.known r (Or.inr ⟨_, hm, rfl⟩)) fun hs => hr (Or.inr hs)
  | bound base hb _ _ _ => exact absurd hb (hbase base)
  | claimed hnew _ _ _ => exact absurd hnew hne
  | absorbed base hb _ _ _ _ => exact absurd hb (hbase base)

omit [DecidableEq ι] in
/-- An old builder is not the one of the line. -/
theorem ne_line (hi : BuilderRef.line i ∉ seen) {r : BuilderRef ι} (hr : r ∈ seen) : r ≠ .line i :=
  fun heq => hi (heq ▸ hr)

theorem Filed.route (h : Filed seen s) (hi : BuilderRef.line i ∉ seen) :
    Grows s i e (s.route i e) ∧ Filed (insert (.line i) seen) (s.route i e) := by
  have hgrows := route_grows (i := i) (e := e) h.stamped h.requests
  generalize s.route i e = s' at hgrows
  refine ⟨hgrows, ?_, ?_, ?_, ?_⟩
  · intro x hx
    rcases hgrows.pending x hx with hx | ⟨rfl, hreq⟩
    · exact h.requests x hx
    · exact hreq
  · intro r hr
    -- whatever is referred to now was referred to before, or is the builder of this line
    have hwas : s.Open r ∨ r = .line i ∨ ∃ p ∈ s.recentlyClosed.items, p.2.1 = r := by
      rcases hr with ho | ⟨p, hp, rfl⟩
      · exact (hgrows.opened r ho).imp id Or.inl
      · rcases hgrows.closed p hp with hp | ⟨-, -, ho | heq⟩
        · exact Or.inr (Or.inr ⟨p, hp, rfl⟩)
        · exact Or.inl ho
        · exact Or.inr (Or.inl heq)
    rcases hwas with ho | rfl | hc
    · exact Or.inr (h.known r (Or.inl ho))
    · exact Or.inl rfl
    · exact Or.inr (h.known r (Or.inr hc))
  · intro r hr
    rw [(hgrows.grown r).unknown h hr]
    exact h.blank r fun hs => hr (Or.inr hs)
  · intro p hp
    rcases hgrows.ids p hp with hp | hst
    · have hseen := h.known p.2 (Or.inl (open_of_id (k := p.1) hp))
      unfold Stamped isIdBuilder
      rw [((hgrows.grown p.2).keeps (ne_line hi hseen)).1]
      exact h.stamped p hp
    · exact hst

theorem Filed.shrink (h : Filed seen s) (hshrunk : Shrunk s s') : Filed seen s' := by
  refine ⟨fun x hx => h.requests x (hshrunk.pending x hx), ?_, ?_, ?_⟩
  · rintro r (ho | ⟨p, hp, rfl⟩)
    · exact h.known r (Or.inl (hshrunk.opened ho))
    · exact h.known _ (Or.inr ⟨p, hshrunk.closed p hp, rfl⟩)
  · intro r hr
    rw [hshrunk.builder]
    exact h.blank r hr
  · intro p hp
    unfold Stamped
    rw [hshrunk.builder]
    exact h.stamped p (hshrunk.ids p hp)

/-- The sweep of a line, if it has a time. -/
theorem shrunk_swept (gap : Duration) (s : GroupState ι) (e : LogEntry) : Shrunk s (s.swept gap e) := by
  unfold swept
  cases e.timestamp with
  | none => exact ⟨fun _ => rfl, fun _ h => h, fun _ h => h, fun _ h => h, fun _ h => h⟩
  | some now => exact (sweep_shrinks gap s now).1

omit [DecidableEq ι] in
/-- A reference handed out for this line is not the one of a later line. -/
theorem fresh_insert {xs : List (LogEntry × ι)} (htag : i ∉ xs.map Prod.snd)
    (hfresh : ∀ p ∈ xs, BuilderRef.line p.2 ∉ seen) :
    ∀ p ∈ xs, BuilderRef.line p.2 ∉ insert (BuilderRef.line i) seen := by
  intro p hp hmem
  rcases hmem with heq | hseen
  · have hsame : p.2 = i := by simpa using heq
    exact htag (List.mem_map.mpr ⟨p, hp, hsame⟩)
  · exact hfresh p hp hseen

/-! ## §7. The seeds. -/

/-- What planting a stream with lines does. -/
structure Plants (s : GroupState ι) (n : ℕ) (st : SeedStream) (s' : GroupState ι) : Prop where
  builder : ∀ x, s'.builder x = if x = .seed n then
    { entries := st.entries, openPos := st.openPos, reqid := stampedReqidOf st.entries } else s.builder x
  slots : s'.openByKey = s.openByKey.set st.key (.seed n)
  ids : ∀ p ∈ s'.openByReqid.items,
    p ∈ s.openByReqid.items ∨ (p.2 = .seed n ∧ (stampedReqidOf st.entries).isSome = true)
  closed : s'.recentlyClosed = s.recentlyClosed
  pending : s'.pendingReqs = s.pendingReqs

/-- A stream is planted, or has no lines and is skipped. -/
theorem plants (s : GroupState ι) (n : ℕ) (st : SeedStream) :
    s.plant n st = s ∨ Plants s n st (s.plant n st) := by
  by_cases hne : st.entries = []
  · refine Or.inl ?_
    unfold plant
    rw [hne]
    rfl
  · refine Or.inr ?_
    rw [plant_eq n s hne]
    refine ⟨fun x => getD_set _ _ _ _, rfl, fun p hp => ?_, rfl, rfl⟩
    cases hrid : stampedReqidOf st.entries with
    | none =>
      simp only [hrid] at hp
      exact Or.inl hp
    | some rid =>
      simp only [hrid] at hp
      rcases OrderedDict.mem_set.mp hp with ⟨-, hx⟩ | ⟨-, hm⟩
      · exact Or.inr ⟨hx, rfl⟩
      · exact Or.inl hm

/-- A builder that is known before the `n`-th stream is planted stays. -/
theorem Plants.other {n : ℕ} {st : SeedStream} (h : Plants s n st s') {r : BuilderRef ι}
    (hr : r ∈ seedRefs n) : s'.builder r = s.builder r :=
  (h.builder r).trans (if_neg fun heq => seed_not_mem_seedRefs n (heq ▸ hr))

theorem Filed.plant {n : ℕ} (h : Filed (seedRefs n) s) (st : SeedStream) :
    Filed (seedRefs (n + 1)) (s.plant n st) := by
  have hmono : seedRefs (ι := ι) n ⊆ seedRefs (n + 1) :=
    fun r hr => seedRefs_succ n (Set.mem_insert_of_mem _ hr)
  have hnew : BuilderRef.seed n ∈ seedRefs (ι := ι) (n + 1) := seedRefs_succ n (Set.mem_insert _ _)
  rcases plants s n st with hskip | hplants
  · rw [hskip]
    exact ⟨h.requests, fun r hr => hmono (h.known r hr), fun r hr => h.blank r fun hs => hr (hmono hs),
      h.stamped⟩
  · generalize s.plant n st = s' at hplants
    refine ⟨fun x hx => h.requests x (hplants.pending ▸ hx), ?_, ?_, ?_⟩
    · rintro r (ho | ⟨p, hp, rfl⟩)
      · rcases ho with ⟨k, hk⟩ | ⟨k, hk⟩
        · rw [hplants.slots] at hk
          rcases OrderedDict.mem_set.mp hk with ⟨-, rfl⟩ | ⟨-, hm⟩
          · exact hnew
          · exact hmono (h.known r (Or.inl (open_of_slot hm)))
        · rcases hplants.ids _ hk with hm | ⟨hx, -⟩
          · exact hmono (h.known r (Or.inl (open_of_id hm)))
          · exact (show r = .seed n from hx) ▸ hnew
      · rw [hplants.closed] at hp
        exact hmono (h.known _ (Or.inr ⟨p, hp, rfl⟩))
    · intro r hr
      have hne : r ≠ .seed n := fun heq => hr (heq ▸ hnew)
      rw [hplants.builder, if_neg hne]
      exact h.blank r fun hs => hr (hmono hs)
    · intro p hp
      unfold Stamped
      rcases hplants.ids p hp with hm | ⟨hx, hst⟩
      · rw [hplants.other (h.known p.2 (Or.inl (open_of_id (k := p.1) hm)))]
        exact h.stamped p hm
      · rw [hplants.builder, if_pos hx]
        exact hst

theorem filed_empty : Filed (seedRefs (ι := ι) 0) ({} : GroupState ι) := by
  refine ⟨fun x hx => absurd hx List.not_mem_nil, ?_, fun r _ => rfl, fun p hp => absurd hp List.not_mem_nil⟩
  rintro r ((⟨k, hk⟩ | ⟨k, hk⟩) | ⟨p, hp, -⟩)
  · exact absurd hk List.not_mem_nil
  · exact absurd hk List.not_mem_nil
  · exact absurd hp List.not_mem_nil

/-- A property of the planted state, stream by stream. -/
theorem plant_induction {P : ℕ → GroupState ι → Prop} (sts : List SeedStream) (n : ℕ) {s : GroupState ι}
    (hstart : P n s) (hplant : ∀ m s, ∀ st ∈ sts, P m s → P (m + 1) (s.plant m st)) :
    P (n + sts.length) ((sts.zipIdx n).foldl (fun s p => s.plant p.2 p.1) s) := by
  induction sts generalizing n s with
  | nil => exact hstart
  | cons st sts ih =>
    have hrest := ih (n + 1) (hplant n s st List.mem_cons_self hstart)
      (fun m s st' hs => hplant m s st' (List.mem_cons_of_mem _ hs))
    have hlen : n + 1 + sts.length = n + (st :: sts).length := by
      rw [List.length_cons]
      omega
    rw [← hlen]
    exact hrest

end GroupState

end RagPipeline.Stage2
