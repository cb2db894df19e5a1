/-
  RagPipeline.Stage2.UserIsolation — which users a conversation may hold.

  The `identity` of a line is its context user, else the user its payload names.  A conversation
  holds two identities only where a rule of the grouper says so:

    * `CarriedById`     — both come with lines routed here by one request id;
    * `FallsBack`       — a response landed on what was left, nothing of its own user being open;
    * `Brought.work`    — a work line without a context user went with its thread's stream, and its
                          payload named somebody;
    * `Brought.claimed` — a POST body claimed a request line of somebody else;
    * `Brought.seeded`  — a seeded stream had it already.

  The invariant (`Kept`) gives every builder an OWNER and says that each identity in it is the
  owner's, or is one of these; it is kept line by line (`kept_step`) and so along a run
  (`kept_run`).  `users_isolated` is the theorem.
-/
import RagPipeline.Stage2.Conservation
import RagPipeline.Stage2.Sweep

namespace RagPipeline.Stage2

open RagPipeline.Lib

/-! ## §1. Identities and the rules that mix them. -/

/-- A user that is there and counts as true. -/
def known (u : Option User) : Option User := if namesUser u then u else none

/-- The user identity of a line. -/
def identity (e : LogEntry) : Option User := known (reqUser e)

/-- A line that a request id routes to its conversation: stamped with it, or a body that names it. -/
def carriesId (rid : String) (e : LogEntry) : Prop :=
  stampedReqid e = some rid ∨ (e.entryType = .requestBody ∧ entryReqid e = some rid)

/-- A user of a line the request id routed here. -/
def CarriedById (rid : String) (b : TxnBuilder) (v : User) : Prop :=
  ∃ e ∈ b.entries, carriesId rid e ∧ identity e = some v

/-- A user of a seeded stream that is not its own: for a stamped stream, one no line with the id
    carries; for any other, one that is not the stream's user. -/
def SeedStream.Foreign (st : SeedStream) (v : User) : Prop :=
  (known (st.userCtx.map User.text) = some v ∨ ∃ e ∈ st.entries, identity e = some v)
    ∧ match stampedReqidOf st.entries with
      | some rid => ¬ ∃ e ∈ st.entries, carriesId rid e ∧ identity e = some v
      | none => known (st.userCtx.map User.text) ≠ some v

/-- A user that a rule of the grouper brings into a conversation of somebody else. -/
inductive Brought (seed : Seed) (b : TxnBuilder) (v : User) : Prop
  | work (e : LogEntry) (he : e ∈ b.entries) (hwork : e.entryType.internal = true)
      (hctx : namesUser e.contextUser = false) (hid : identity e = some v)
  | claimed (req body : LogEntry) (h : [req, body] <:+: b.entries)
      (hreq : req.entryType = .request) (hbody : body.entryType = .requestBody)
      (hid : identity req = some v)
  | seeded (st : SeedStream) (hst : st ∈ seed.streams) (hne : st.entries ≠ [])
      (h : st.entries <:+: b.entries) (hv : st.Foreign v)

/-- A user accounted for: brought in, carried by the id of a stamped builder, or the owner of an
    unstamped one. -/
def Accounted (seed : Seed) (own : Option User) (b : TxnBuilder) (v : User) : Prop :=
  Brought seed b v ∨ match b.reqid with
    | some rid => CarriedById rid b v
    | none => known own = some v

theorem namesUser_of_known {u : Option User} {v : User} (h : known u = some v) :
    namesUser u = true ∧ u = some v := by
  unfold known at h
  split at h
  · exact ⟨‹_›, h⟩
  · cases h

/-- A context user is the identity. -/
theorem identity_of_ctx {e : LogEntry} {v : User} (h : known e.contextUser = some v) :
    identity e = some v := by
  obtain ⟨ht, hu⟩ := namesUser_of_known h
  unfold identity reqUser userOr
  rw [if_pos ht]
  exact h

/-- Without a context user, the identity is the payload's. -/
theorem identity_of_payload {e : LogEntry} (h : namesUser e.contextUser = false) :
    identity e = known (entryUser e) := by
  unfold identity reqUser userOr
  rw [h]
  rfl

/-- A payload names somebody only in a request, a body or an M3 call. -/
theorem identity_response {e : LogEntry} (h : e.entryType = .response) :
    identity e = known e.contextUser := by
  cases ht : namesUser e.contextUser with
  | true =>
      unfold identity reqUser userOr
      rw [if_pos ht]
  | false =>
      rw [identity_of_payload ht]
      unfold entryUser known
      rw [h, ht]
      rfl

/-! ## §2. What is accounted for stays so. -/

section Mono

variable {seed : Seed} {b b' : TxnBuilder} {v : User}

theorem CarriedById.mono {rid : String} (h : CarriedById rid b v)
    (hb : b.entries <:+: b'.entries) : CarriedById rid b' v := by
  obtain ⟨e, he, h1, h2⟩ := h
  exact ⟨e, hb.subset he, h1, h2⟩

theorem Brought.mono (h : Brought seed b v) (hb : b.entries <:+: b'.entries) :
    Brought seed b' v := by
  cases h with
  | work e he hwork hctx hid => exact .work e (hb.subset he) hwork hctx hid
  | claimed req body h hreq hbody hid => exact .claimed req body (h.trans hb) hreq hbody hid
  | seeded st hst hne h hv => exact .seeded st hst hne (h.trans hb) hv

theorem Accounted.mono {own : Option User} (h : Accounted seed own b v)
    (hb : b.entries <:+: b'.entries) (hid : b'.reqid = b.reqid) : Accounted seed own b' v := by
  refine h.imp (fun h => h.mono hb) (fun h => ?_)
  rw [hid]
  cases hr : b.reqid with
  | none =>
      rw [hr] at h
      exact h
  | some rid =>
      rw [hr] at h
      exact CarriedById.mono h hb

end Mono

namespace GroupState

variable {ι : Type} [DecidableEq ι]

/-! ## §3. The fallback. -/

/-- Nothing of the response's own user is open on its server: neither an unstamped builder nor a
    pending request. -/
def FallsBack (s : GroupState ι) (e : LogEntry) : Prop :=
  (e.entryType = .response ∧ s.routedId e = none)
    ∧ (∀ p ∈ s.openByKey.items, p.1.server = entryServer e → isIdBuilder (s.builder p.2) = false →
        txnUser (s.builder p.2) ≠ e.contextUser)
    ∧ ∀ r ∈ s.pendingReqs, entryServer r = entryServer e → reqUser r ≠ e.contextUser

instance (s : GroupState ι) (e : LogEntry) : Decidable (s.FallsBack e) :=
  inferInstanceAs (Decidable (_ ∧ _ ∧ _))

/-- The responses of a run that fall back. -/
def fallbacks (gap : Duration) (s : GroupState ι) : List (LogEntry × ι) → List LogEntry
  | [] => []
  | (e, i) :: rest =>
      if (s.swept gap e).FallsBack e then e :: (s.step gap i e).fallbacks gap rest
      else (s.step gap i e).fallbacks gap rest

/-- Without the fallback, the candidates are of the response's user. -/
theorem candidates_user {s : GroupState ι} {e : LogEntry} (h : e.entryType = .response)
    (hid : s.routedId e = none) (hf : ¬ s.FallsBack e) :
    (∀ p ∈ (s.candidates e).1, txnUser (s.builder p.2) = e.contextUser)
      ∧ ∀ r ∈ (s.candidates e).2, reqUser r = e.contextUser := by
  unfold candidates
  simp only
  generalize hkeys : s.openByKey.items.filter (fun p =>
    decide (p.1.server = entryServer e) && !isIdBuilder (s.builder p.2)) = keys
  generalize hreqs : s.pendingReqs.filter (fun r => decide (entryServer r = entryServer e)) = reqs
  by_cases hempty : ((keys.filter (fun p => decide (txnUser (s.builder p.2) = e.contextUser))).isEmpty
      && (reqs.filter (fun r => decide (reqUser r = e.contextUser))).isEmpty) = true
  · -- both lists of the own user are empty: that is the fallback
    refine absurd ⟨⟨h, hid⟩, ?_, ?_⟩ hf
    · intro p hp hsrv hst hu
      obtain ⟨h1, -⟩ := Bool.and_eq_true_iff.mp hempty
      have hm : p ∈ keys.filter (fun p => decide (txnUser (s.builder p.2) = e.contextUser)) := by
        refine List.mem_filter.mpr ⟨?_, decide_eq_true hu⟩
        rw [← hkeys]
        exact List.mem_filter.mpr ⟨hp, by simp [hsrv, hst]⟩
      rw [List.isEmpty_iff.mp h1] at hm
      cases hm
    · intro r hr hsrv hu
      obtain ⟨-, h2⟩ := Bool.and_eq_true_iff.mp hempty
      have hm : r ∈ reqs.filter (fun r => decide (reqUser r = e.contextUser)) := by
        refine List.mem_filter.mpr ⟨?_, decide_eq_true hu⟩
        rw [← hreqs]
        exact List.mem_filter.mpr ⟨hr, decide_eq_true hsrv⟩
      rw [List.isEmpty_iff.mp h2] at hm
      cases hm
  · -- a candidate of the own user is there, so both lists are cut down to this user
    rw [if_neg hempty]
    constructor
    · intro p hp
      have hm : p ∈ keys.filter (fun p => decide (txnUser (s.builder p.2) = e.contextUser)) := by
        simp only at hp
        split at hp
        · exact (List.mem_filter.mp hp).1
        · exact hp
      simpa using (List.mem_filter.mp hm).2
    · intro r hr
      simpa using (List.mem_filter.mp hr).2

/-- The user of a builder is the identity of one of its lines. -/
theorem identity_of_txnUser {b : TxnBuilder} {v : User} (h : known (txnUser b) = some v) :
    ∃ e ∈ b.entries, identity e = some v := by
  unfold txnUser at h
  cases hctx : b.entries.findSome? (fun e => if namesUser e.contextUser then e.contextUser else none) with
  | some u =>
      rw [hctx] at h
      obtain ⟨e, he, hu⟩ := List.exists_of_findSome?_eq_some hctx
      refine ⟨e, he, identity_of_ctx ?_⟩
      split at hu
      · rw [hu]
        exact h
      · cases hu
  | none =>
      rw [hctx, Option.none_or] at h
      unfold boundUser at h
      cases hb : b.entries.findSome?
          (fun e => if namesUser (entryUser e) then entryUser e else none) with
      | none =>
          rw [hb] at h
          cases h
      | some u =>
          rw [hb] at h
          obtain ⟨e, he, hu⟩ := List.exists_of_findSome?_eq_some hb
          -- no line has a context, so the payload is what names this one
          have hnone := List.findSome?_eq_none_iff.mp hctx e he
          have hfalse : namesUser e.contextUser = false := by
            cases ht : namesUser e.contextUser with
            | false => rfl
            | true =>
                rw [if_pos ht] at hnone
                rw [hnone] at ht
                cases ht
          refine ⟨e, he, ?_⟩
          rw [identity_of_payload hfalse]
          split at hu
          · rw [hu]
            exact h
          · cases hu

/-! ## §4. The invariant. -/

/-- **The invariant**: under an owner for each builder, every identity is accounted for; `F` are the
    responses that fall back. -/
structure Kept (F : Set LogEntry) (seed : Seed) (owner : BuilderRef ι → Option User)
    (s : GroupState ι) : Prop where
  lines : ∀ r, ∀ e ∈ (s.builder r).entries, ∀ v, identity e = some v →
    e ∈ F ∨ Accounted seed (owner r) (s.builder r) v
  slots : ∀ p ∈ s.openByKey.items, ∀ v, known p.1.user = some v →
    Accounted seed (owner p.2) (s.builder p.2) v
  slotOwner : ∀ p ∈ s.openByKey.items, ¬ s.Stamped p.2 → owner p.2 = p.1.user
  settled : ∀ r, (s.Stamped r ∨ ∃ k, (k, r) ∈ s.openByKey.items) →
    ∀ e ∈ (s.builder r).entries, e ∉ F
  closed : ∀ p ∈ s.recentlyClosed.items, ∀ v, known p.1.2.2 = some v →
    Accounted seed (owner p.2.1) (s.builder p.2.1) v
  ids : ∀ p ∈ s.openByReqid.items, (s.builder p.2).reqid = some p.1.2
  pending : ∀ e ∈ s.pendingReqs, e.entryType = .request

section Updates

variable {F : Set LogEntry} {seed : Seed} {owner : BuilderRef ι → Option User}
  {seen : Set (BuilderRef ι)} {s s' : GroupState ι} (h : Kept F seed owner s)
include h

/-- Nothing is new in the indexes. -/
theorem kept_shrink (hheap : ∀ r, s'.builder r = s.builder r)
    (hslots : ∀ p ∈ s'.openByKey.items, p ∈ s.openByKey.items)
    (hclosed : ∀ p ∈ s'.recentlyClosed.items, p ∈ s.recentlyClosed.items)
    (hids : ∀ p ∈ s'.openByReqid.items, p ∈ s.openByReqid.items)
    (hpending : ∀ e ∈ s'.pendingReqs, e ∈ s.pendingReqs) : Kept F seed owner s' := by
  have hst : ∀ r, s'.Stamped r ↔ s.Stamped r := fun r => by
    unfold Stamped
    rw [hheap]
  refine ⟨?_, ?_, ?_, ?_, ?_, ?_, fun e he => h.pending e (hpending e he)⟩
  · intro r
    rw [hheap]
    exact h.lines r
  · intro p hp
    rw [hheap]
    exact h.slots p (hslots p hp)
  · intro p hp hns
    exact h.slotOwner p (hslots p hp) (fun hs => hns ((hst _).mpr hs))
  · intro r hr
    rw [hheap]
    refine h.settled r (hr.imp (hst r).mp ?_)
    exact fun ⟨k, hk⟩ => ⟨k, hslots _ hk⟩
  · intro p hp
    rw [hheap]
    exact h.closed p (hclosed p hp)
  · intro p hp
    rw [hheap]
    exact h.ids p (hids p hp)

/-- A builder takes lines that are accounted for. -/
theorem kept_append {r : BuilderRef ι} {f : TxnBuilder → TxnBuilder} {l : List LogEntry}
    (hf : (f (s.builder r)).entries = (s.builder r).entries ++ l)
    (hid : (f (s.builder r)).reqid = (s.builder r).reqid)
    (hl : ∀ e ∈ l, ∀ v, identity e = some v →
      e ∈ F ∨ Accounted seed (owner r) (f (s.builder r)) v)
    (hset : (s.Stamped r ∨ ∃ k, (k, r) ∈ s.openByKey.items) → ∀ e ∈ l, e ∉ F) :
    Kept F seed owner (s.modify r f) := by
  have hbuild : ∀ x, (s.modify r f).builder x = if x = r then f (s.builder r) else s.builder x :=
    fun x => builder_modify s r x f
  -- every builder is extended, if at all, and keeps its id
  have hgrow : ∀ x, (s.builder x).entries <:+: ((s.modify r f).builder x).entries
      ∧ ((s.modify r f).builder x).reqid = (s.builder x).reqid := by
    intro x
    rw [hbuild]
    by_cases hx : x = r
    · rw [if_pos hx, hx, hf, hid]
      exact ⟨⟨[], l, by simp⟩, rfl⟩
    · rw [if_neg hx]
      exact ⟨List.infix_rfl, rfl⟩
  have hst : ∀ x, (s.modify r f).Stamped x ↔ s.Stamped x := fun x => by
    unfold Stamped isIdBuilder
    rw [(hgrow x).2]
  have hacc : ∀ x v, Accounted seed (owner x) (s.builder x) v →
      Accounted seed (owner x) ((s.modify r f).builder x) v :=
    fun x v ha => ha.mono (hgrow x).1 (hgrow x).2
  refine ⟨?_, ?_, ?_, ?_, ?_, ?_, h.pending⟩
  · intro x e he v hv
    rw [hbuild] at he
    by_cases hx : x = r
    · rw [if_pos hx, hf] at he
      rcases List.mem_append.mp he with hold | hnew
      · exact (h.lines r e hold v hv).imp id (fun ha => hx ▸ hacc r v ha)
      · refine (hl e hnew v hv).imp id (fun ha => ?_)
        rw [hbuild, if_pos hx, hx]
        exact ha
    · rw [if_neg hx] at he
      exact (h.lines x e he v hv).imp id (hacc x v)
  · exact fun p hp v hv => hacc _ v (h.slots p hp v hv)
  · exact fun p hp hns => h.slotOwner p hp (fun hs => hns ((hst _).mpr hs))
  · intro x hx e he
    have hx' : s.Stamped x ∨ ∃ k, (k, x) ∈ s.openByKey.items := hx.imp (hst x).mp id
    rw [hbuild] at he
    by_cases hxr : x = r
    · rw [if_pos hxr, hf] at he
      rcases List.mem_append.mp he with hold | hnew
      · exact h.settled r (hxr ▸ hx') e hold
      · exact hset (hxr ▸ hx') e hnew
    · rw [if_neg hxr] at he
      exact h.settled x hx' e he
  · exact fun p hp v hv => hacc _ v (h.closed p hp v hv)
  · intro p hp
    rw [(hgrow p.2).2]
    exact h.ids p hp

/-- A new builder gets an owner. -/
theorem kept_alloc (hw : Wf seen s) {r : BuilderRef ι} (hr : r ∉ seen) (u : Option User)
    (b : TxnBuilder)
    (hb : ∀ e ∈ b.entries, ∀ v, identity e = some v → e ∈ F ∨ Accounted seed u b v)
    (hset : b.reqid ≠ none → ∀ e ∈ b.entries, e ∉ F) :
    Kept F seed (Function.update owner r u) { s with heap := s.heap.set r b } := by
  have hnew : r ∉ s.reachable := fun hm => hr (hw.known r hm)
  have hbuild : ∀ x, ({ s with heap := s.heap.set r b } : GroupState ι).builder x
      = if x = r then b else s.builder x := fun x => getD_set _ _ _ _
  -- nothing refers to the new builder yet
  have hold : ∀ x, x ∈ s.reachable →
      ({ s with heap := s.heap.set r b } : GroupState ι).builder x = s.builder x
        ∧ Function.update owner r u x = owner x := by
    intro x hx
    have hne : x ≠ r := fun he => hnew (he ▸ hx)
    rw [hbuild, if_neg hne, Function.update_of_ne hne]
    exact ⟨rfl, rfl⟩
  have hst : ∀ x, x ∈ s.reachable →
      (({ s with heap := s.heap.set r b } : GroupState ι).Stamped x ↔ s.Stamped x) := by
    intro x hx
    unfold Stamped
    rw [(hold x hx).1]
  refine ⟨?_, ?_, ?_, ?_, ?_, ?_, h.pending⟩
  · intro x e he v hv
    rw [hbuild] at he ⊢
    by_cases hx : x = r
    · rw [if_pos hx] at he ⊢
      rw [hx, Function.update_self]
      exact hb e he v hv
    · rw [if_neg hx] at he ⊢
      rw [Function.update_of_ne hx]
      exact h.lines x e he v hv
  · intro p hp
    obtain ⟨h1, h2⟩ := hold p.2 (reachable_of_slot (k := p.1) hp)
    rw [h1, h2]
    exact h.slots p hp
  · intro p hp hns
    have hreach := reachable_of_slot (k := p.1) hp
    rw [(hold p.2 hreach).2]
    exact h.slotOwner p hp (fun hs => hns ((hst _ hreach).mpr hs))
  · intro x hx e he
    rw [hbuild] at he
    by_cases hxr : x = r
    · rw [if_pos hxr] at he
      rcases hx with hs | ⟨k, hk⟩
      · refine hset (fun hnone => ?_) e he
        unfold Stamped at hs
        rw [hbuild, if_pos hxr, isIdBuilder, hnone] at hs
        cases hs
      · exact absurd (reachable_of_slot hk) (hxr ▸ hnew)
    · rw [if_neg hxr] at he
      refine h.settled x (hx.imp (fun hs => ?_) id) e he
      unfold Stamped at hs ⊢
      rwa [hbuild, if_neg hxr] at hs
  · intro p hp
    obtain ⟨h1, h2⟩ := hold p.2.1 (reachable_of_out (hw.closedOut p hp))
    rw [h1, h2]
    exact h.closed p hp
  · intro p hp
    rw [(hold p.2 (reachable_of_id (k := p.1) hp)).1]
    exact h.ids p hp

/-- A slot is given to a builder of its user. -/
theorem kept_slot {k : StreamKey ι} {r : BuilderRef ι}
    {d : OrderedDict (StreamKey ι) (BuilderRef ι)} {c : OrderedDict ThreadKey (StreamKey ι)}
    (hd : ∀ p ∈ d.items, p = (k, r) ∨ p ∈ s.openByKey.items)
    (hacc : ∀ v, known k.user = some v → Accounted seed (owner r) (s.builder r) v)
    (hown : ¬ s.Stamped r → owner r = k.user)
    (hset : ¬ s.Stamped r → ∀ e ∈ (s.builder r).entries, e ∉ F) :
    Kept F seed owner { s with openByKey := d, currentByThread := c } := by
  refine { h with slots := ?_, slotOwner := ?_, settled := ?_ }
  · intro p hp
    rcases hd p hp with rfl | hold
    · exact hacc
    · exact h.slots p hold
  · intro p hp
    rcases hd p hp with rfl | hold
    · exact hown
    · exact h.slotOwner p hold
  · intro x hx
    rcases hx with hs | ⟨k', hk'⟩
    · exact h.settled x (Or.inl hs)
    · rcases hd _ hk' with he | hold
      · have hxr : x = r := (Prod.mk.inj he).2
        by_cases hs : s.Stamped r
        · exact hxr ▸ h.settled r (Or.inl hs)
        · exact hxr ▸ hset hs
      · exact h.settled x (Or.inr ⟨k', hold⟩)

/-- A returned conversation is remembered under a user it accounts for. -/
theorem kept_remember {k : ClosedKey} {r : BuilderRef ι} (e : LogEntry)
    (hacc : ∀ v, known k.2.2 = some v → Accounted seed (owner r) (s.builder r) v) :
    Kept F seed owner (s.rememberClosed k r e) := by
  unfold rememberClosed
  cases e.timestamp with
  | none => exact h
  | some t =>
      refine { h with closed := ?_ }
      rintro ⟨k', r', t'⟩ hp
      rcases OrderedDict.mem_set.mp hp with ⟨hk, hv⟩ | ⟨-, hm⟩
      · have hr : r' = r := (Prod.mk.inj hv).1
        have hk' : k' = k := hk
        rw [hr, hk']
        exact hacc
      · exact h.closed _ hm

/-- What is left of the pool. -/
theorem kept_taken {taken : Taken} (ht : Takes s.pendingReqs taken) {req : LogEntry}
    {rest : List LogEntry} (hq : taken = some (req, rest)) :
    Kept F seed owner { s with pendingReqs := rest } ∧ req.entryType = .request := by
  have hperm := ht req rest hq
  refine ⟨kept_shrink h (fun _ => rfl) (fun _ hp => hp) (fun _ hp => hp) (fun _ hp => hp) ?_, ?_⟩
  · exact fun e he => hperm.symm.subset (List.mem_cons_of_mem _ he)
  · exact h.pending req (hperm.symm.subset List.mem_cons_self)

theorem kept_closeInto (k : StreamKey ι) : Kept F seed owner (s.closeInto k) := by
  cases hg : s.openByKey.get? k with
  | none =>
      rw [closeInto_of_none s k hg]
      exact h
  | some r =>
      refine kept_shrink h (fun x => ?_) ?_ ?_ ?_ ?_
      · unfold builder
        rw [closeInto_heap]
      · intro p hp
        rw [closeInto_openByKey] at hp
        exact (List.mem_filter.mp hp).1
      · intro p hp
        rw [closeInto_of_get? s k r hg] at hp
        simpa [giveBack, forgetId] using hp
      · intro p hp
        rw [closeInto_of_get? s k r hg] at hp
        have hp' : p ∈ (s.openByReqid.filterItems (fun p => decide (p.2 ≠ r))).items := by
          simpa [giveBack, forgetId] using hp
        exact (List.mem_filter.mp hp').1
      · intro e he
        rwa [closeInto_pendingReqs] at he

theorem kept_swept (gap : Duration) (e : LogEntry) : Kept F seed owner (s.swept gap e) := by
  unfold swept
  cases e.timestamp with
  | none => exact h
  | some now =>
      have hsw := swept_evictStale gap s now
      refine kept_shrink h hsw.builder ?_ ?_ ?_ ?_
      · intro p hp
        rw [hsw.slots] at hp
        exact (List.mem_filter.mp hp).1
      · intro p hp
        rwa [hsw.closed] at hp
      · intro p hp
        rw [hsw.ids] at hp
        exact (List.mem_filter.mp hp).1
      · intro r hr
        rw [hsw.pending] at hr
        exact (List.mem_filter.mp hr).1

end Updates

/-! ## §5. One line. -/

section Route

variable {F : Set LogEntry} {seed : Seed} {owner : BuilderRef ι → Option User}
  {seen : Set (BuilderRef ι)} {s : GroupState ι} {i : ι} {e : LogEntry}

/-- A line that is no unstamped response does not fall back. -/
def Responses (F : Set LogEntry) : Prop :=
  ∀ x ∈ F, x.entryType = .response ∧ stampedReqid x = none

/-- A request of a user is taken for that user. -/
theorem takeByUser_user {l : List LogEntry} {u : Option User} {srv : String}
    {th : Option String} {req : LogEntry} {rest : List LogEntry}
    (h : takeByUser l u srv th = some (req, rest)) : reqUser req = u := by
  unfold takeByUser at h
  split at h
  · obtain ⟨accept, -, hpop⟩ := List.exists_of_findSome?_eq_some h
    have hp := (popLast?_perm hpop).1
    rw [Bool.and_eq_true, Bool.and_eq_true] at hp
    simpa using hp.1.2
  · cases h

/-- A request that is taken without a user has none. -/
theorem takeAnonymousRequest_user {l : List LogEntry} {srv : String} {th : Option String}
    {req : LogEntry} {rest : List LogEntry}
    (h : takeAnonymousRequest l srv th = some (req, rest)) : identity req = none := by
  unfold takeAnonymousRequest at h
  split at h
  · have hp := (popLast?_perm h).1
    rw [Bool.and_eq_true] at hp
    have hu : reqUser req = none := by simpa using hp.2
    unfold identity known
    rw [hu]
    rfl
  · cases h

/-- A request moves from the pool to a builder that accounts for its user. -/
theorem kept_bind (hF : Responses F) (h : Kept F seed owner s) {r : BuilderRef ι} {taken : Taken}
    (ht : Takes s.pendingReqs taken)
    (hacc : ∀ req rest, taken = some (req, rest) → ∀ v, identity req = some v →
      Accounted seed (owner r) (s.builder r) v) : Kept F seed owner (s.bind r taken) := by
  unfold bind
  cases taken with
  | none => exact h
  | some q =>
      obtain ⟨req, rest⟩ := q
      obtain ⟨h1, hreq⟩ := kept_taken h ht rfl
      refine kept_append h1 (l := [req]) rfl rfl ?_ ?_
      · intro e he v hv
        rw [List.mem_singleton.mp he] at hv
        exact Or.inr ((hacc req rest rfl v hv).mono ⟨[], [req], rfl⟩ rfl)
      · intro _ e he hmem
        rw [List.mem_singleton.mp he] at hmem
        have hresp := (hF req hmem).1
        rw [hreq] at hresp
        cases hresp

/-- A line of the loop's own kind is no response. -/
theorem not_fallback (hF : Responses F) (h : e.entryType ≠ .response) : e ∉ F :=
  fun hm => h (hF e hm).1

/-- A new builder on a slot of its own, whose lines the user of the slot accounts for. -/
theorem kept_newSlot (hw : Wf seen s) (hi : BuilderRef.line i ∉ seen) (h : Kept F seed owner s)
    (k : StreamKey ι) {b : TxnBuilder} {c : OrderedDict ThreadKey (StreamKey ι)}
    (hnone : b.reqid = none) (hset : ∀ x ∈ b.entries, x ∉ F)
    (hb : ∀ x ∈ b.entries, ∀ v, identity x = some v → Accounted seed k.user b v) :
    Kept F seed (Function.update owner (.line i) k.user) { s with
        heap := s.heap.set (.line i) b
        openByKey := s.openByKey.set k (.line i)
        currentByThread := c }
      ∧ ∀ v, known k.user = some v →
          Accounted seed (Function.update owner (.line i) k.user (.line i))
            (({ s with heap := s.heap.set (.line i) b } : GroupState ι).builder (.line i)) v := by
  -- first the builder is made, and then the slot refers to it: its user is the owner
  have h1 := kept_alloc h hw hi k.user b (fun x hx v hv => Or.inr (hb x hx v hv))
    (fun hne => absurd hnone hne)
  have hbuild : ({ s with heap := s.heap.set (.line i) b } : GroupState ι).builder (.line i) = b := by
    unfold builder
    rw [OrderedDict.get?_set_self]
    rfl
  have hacc : ∀ v, known k.user = some v →
      Accounted seed (Function.update owner (.line i) k.user (.line i))
        (({ s with heap := s.heap.set (.line i) b } : GroupState ι).builder (.line i)) v := by
    intro v hv
    rw [hbuild, Function.update_self]
    refine Or.inr ?_
    rw [hnone]
    exact hv
  refine ⟨kept_slot h1 ?_ hacc (fun _ => Function.update_self ..) ?_, hacc⟩
  · rintro ⟨k', r'⟩ hp
    rcases OrderedDict.mem_set.mp hp with ⟨hk, hr⟩ | ⟨-, hm⟩
    · rw [hk, hr]
      exact Or.inl rfl
    · exact Or.inr hm
  · intro _ x hx
    rw [hbuild] at hx
    exact hset x hx

/-- A new builder on a slot of its own, and the thread's current stream. -/
theorem kept_openSlot (hw : Wf seen s) (hi : BuilderRef.line i ∉ seen) (h : Kept F seed owner s)
    (k : StreamKey ι) (e : LogEntry) :
    Kept F seed (Function.update owner (.line i) k.user) (s.openSlot i k e)
      ∧ ∀ v, known k.user = some v →
          Accounted seed (Function.update owner (.line i) k.user (.line i))
            ((s.openSlot i k e).builder (.line i)) v :=
  kept_newSlot hw hi h k rfl (fun _ hx => absurd hx List.not_mem_nil)
    (fun _ hx => absurd hx List.not_mem_nil)

/-- A work line joins a builder: the one of its own user, or the one its thread is on. -/
theorem kept_addWork (hF : Responses F) (h : Kept F seed owner s)
    (hwork : e.entryType.internal = true) {r : BuilderRef ι}
    (hacc : ∀ v, known e.contextUser = some v → Accounted seed (owner r) (s.builder r) v) :
    Kept F seed owner (s.modify r (·.add e))
      ∧ ∀ v, identity e = some v → Accounted seed (owner r) ((s.builder r).add e) v := by
  have hline : ∀ v, identity e = some v → Accounted seed (owner r) ((s.builder r).add e) v := by
    intro v hv
    cases hctx : namesUser e.contextUser with
    | true =>
        -- the line names its context user, whose builder this is
        have hk : known e.contextUser = some v := by
          unfold identity reqUser userOr at hv
          rwa [if_pos hctx] at hv
        exact (hacc v hk).mono ⟨[], [e], rfl⟩ rfl
    | false =>
        exact Or.inl (.work e (List.mem_append_right _ (List.mem_singleton_self e)) hwork hctx hv)
  refine ⟨kept_append h (l := [e]) rfl rfl ?_ ?_, hline⟩
  · intro x hx v hv
    rw [List.mem_singleton.mp hx] at hv
    exact Or.inr (hline v hv)
  · intro _ x hx
    rw [List.mem_singleton.mp hx]
    refine not_fallback hF (fun hr => ?_)
    rw [hr] at hwork
    cases hwork

theorem kept_work (hF : Responses F) (hw : Wf seen s) (hi : BuilderRef.line i ∉ seen)
    (h : Kept F seed owner s) (hwork : e.entryType.internal = true) :
    ∃ owner', Kept F seed owner' (s.work i e) := by
  have hroute := workRoute s i e
  unfold work
  generalize s.workTarget i e = w at hroute
  -- the target of the line accounts for the line's context user
  have htarget : ∃ owner', Kept F seed owner' w.2 ∧ ∀ r, w.1 = some r →
      ∀ v, known e.contextUser = some v → Accounted seed (owner' r) (w.2.builder r) v := by
    cases hroute with
    | own u r hu hk =>
        refine ⟨owner, { h with }, fun r' hr' v hv => ?_⟩
        have he : r = r' := Option.some.inj hr'
        rw [hu] at hv
        rw [← he]
        exact h.slots _ (OrderedDict.get?_eq_some.mp hk) v hv
    | fresh u rc hu hk hrc =>
        have hsub : ∀ p ∈ rc.items, p ∈ s.recentlyClosed.items := by
          rcases hrc with rfl | rfl
          · exact fun p hp => hp
          · exact fun p hp => (List.mem_filter.mp hp).1
        have h0 : Kept F seed owner { s with recentlyClosed := rc } :=
          kept_shrink h (fun _ => rfl) (fun _ hp => hp) hsub (fun _ hp => hp) (fun _ he => he)
        obtain ⟨h1, hacc⟩ := kept_openSlot (wf_dropClosed hw hrc) hi h0
          ⟨entryServer e, e.thread, some u, none⟩ e
        refine ⟨_, h1, fun r hr v hv => ?_⟩
        have he : BuilderRef.line i = r := Option.some.inj hr
        rw [hu] at hv
        rw [← he]
        exact hacc v hv
    | late u r t hu hrc =>
        refine ⟨owner, (kept_addWork hF h hwork (fun v hv => ?_)).1, fun r' hr' => by cases hr'⟩
        rw [hu] at hv
        exact h.closed _ hrc v hv
    | inherited k r hu hc hk =>
        refine ⟨owner, h, fun r' _ v hv => ?_⟩
        rw [hu] at hv
        cases hv
    | anonymous hu =>
        obtain ⟨h1, -⟩ := kept_openSlot hw hi h ⟨entryServer e, e.thread, none, some i⟩ e
        refine ⟨_, kept_bind hF h1 (takes_anonymous _ _ _) ?_, fun r' _ v hv => ?_⟩
        · intro req rest hq v hv
          rw [takeAnonymousRequest_user hq] at hv
          cases hv
        · rw [hu] at hv
          cases hv
  obtain ⟨owner', h1, hacc⟩ := htarget
  rcases w with ⟨_ | r, s'⟩
  · exact ⟨owner', h1⟩
  · obtain ⟨h2, hline⟩ := kept_addWork hF h1 hwork (hacc r rfl)
    simp only
    split
    · refine ⟨owner', kept_bind hF h2 (takes_byUser _ _ _ _) ?_⟩
      intro req rest hq v hv
      have hreq : identity req = identity e := by
        unfold identity
        rw [takeByUser_user hq]
      rw [builder_modify, if_pos rfl]
      exact hline v (hreq ▸ hv)
    · exact ⟨owner', h2⟩

theorem kept_requestBody (hF : Responses F) (hw : Wf seen s) (hi : BuilderRef.line i ∉ seen)
    (h : Kept F seed owner s) (hbody : e.entryType = .requestBody) :
    ∃ owner', Kept F seed owner' (s.requestBody i e) := by
  have hc := kept_closeInto h ⟨entryServer e, e.thread, reqUser e, none⟩
  have hwc := (frame_closeInto hw ⟨entryServer e, e.thread, reqUser e, none⟩).wf hw
  unfold requestBody
  simp only
  generalize s.closeInto ⟨entryServer e, e.thread, reqUser e, none⟩ = s1 at hc hwc ⊢
  have htakes : Takes s1.pendingReqs ((takeByReqid s1.pendingReqs (entryReqid e) (entryServer e)).or
      (takePostRequest s1.pendingReqs (entryServer e) e.thread (reqUser e))) :=
    takes_or (takes_byReqid _ _ _) (takes_preferred _ _ _)
  generalize (takeByReqid s1.pendingReqs (entryReqid e) (entryServer e)).or
    (takePostRequest s1.pendingReqs (entryServer e) e.thread (reqUser e)) = taken at htakes ⊢
  have hnot : e ∉ F := not_fallback hF (by rw [hbody]; exact fun he => by cases he)
  -- the body is the owner's; the request it claims is brought in with it
  cases taken with
  | none =>
      refine ⟨_, (kept_newSlot hwc hi hc ⟨entryServer e, e.thread, reqUser e, none⟩ rfl (fun x hx => ?_)
        (fun x hx v hv => ?_)).1⟩
      · rw [List.mem_singleton.mp hx]
        exact hnot
      · rw [List.mem_singleton.mp hx] at hv
        exact Or.inr hv
  | some q =>
      obtain ⟨req, rest⟩ := q
      obtain ⟨h1, hreq⟩ := kept_taken hc htakes rfl
      refine ⟨_, (kept_newSlot (wf_pending hwc rest) hi h1 ⟨entryServer e, e.thread, reqUser e, none⟩ rfl
        (fun x hx => ?_) (fun x hx v hv => ?_)).1⟩
      · rcases List.mem_cons.mp hx with hx | hx
        · rw [hx]
          exact not_fallback hF (by rw [hreq]; exact fun he => by cases he)
        · rw [List.mem_singleton.mp hx]
          exact hnot
      · rcases List.mem_cons.mp hx with hx | hx
        · rw [hx] at hv
          exact Or.inl (.claimed req e List.infix_rfl hreq hbody hv)
        · rw [List.mem_singleton.mp hx] at hv
          exact Or.inr hv

/-- A conversation of one line or two is returned at once, and remembered under its owner. -/
theorem kept_returnNew (hw : Wf seen s) (hi : BuilderRef.line i ∉ seen) (h : Kept F seed owner s)
    (u : Option User) (b : TxnBuilder) (hnone : b.reqid = none)
    (hb : ∀ x ∈ b.entries, ∀ v, identity x = some v → x ∈ F ∨ Accounted seed u b v) :
    Kept F seed (Function.update owner (.line i) u) { s with heap := s.heap.set (.line i) b }
      ∧ ∀ v, known u = some v → Accounted seed (Function.update owner (.line i) u (.line i))
          (({ s with heap := s.heap.set (.line i) b } : GroupState ι).builder (.line i)) v := by
  refine ⟨kept_alloc h hw hi u b hb (fun hne => absurd hnone hne), fun v hv => ?_⟩
  have hbuild : ({ s with heap := s.heap.set (.line i) b } : GroupState ι).builder (.line i) = b := by
    unfold builder
    rw [OrderedDict.get?_set_self]
    rfl
  rw [hbuild, Function.update_self]
  refine Or.inr ?_
  rw [hnone]
  exact hv

theorem kept_giveBack (h : Kept F seed owner s) (r : BuilderRef ι) :
    Kept F seed owner (s.giveBack r) :=
  kept_shrink h (fun _ => rfl) (fun _ hp => hp) (fun _ hp => hp) (fun _ hp => hp) (fun _ he => he)

/-- A response that joins the open builder of a slot, by a user that is one of its lines'. -/
theorem kept_answerBuilder (hw : Wf seen s) (h : Kept F seed owner s) {k : StreamKey ι}
    {r : BuilderRef ι} (hm : (k, r) ∈ s.openByKey.items) (hns : ¬ s.Stamped r)
    (huser : e ∈ F ∨ known (txnUser (s.builder r)) = identity e) :
    Kept F seed owner (s.answerBuilder k e) := by
  have hget := OrderedDict.get?_eq_some.mpr hm
  have hc := kept_closeInto h k
  have hwc := (frame_closeInto hw k).wf hw
  have hbuild : (s.closeInto k).builder r = s.builder r := by
    unfold builder
    rw [closeInto_heap]
  have hns' : ¬ (s.closeInto k).Stamped r := by
    unfold Stamped
    rwa [hbuild]
  have hout : r ∈ (s.closeInto k).outRefs := by
    rw [closeInto_of_get? s k r hget, outRefs_giveBack]
    exact List.mem_append_right _ (List.mem_singleton_self r)
  rw [answerBuilder_eq e hget]
  refine kept_remember (kept_append hc (l := [e]) rfl rfl ?_ ?_) e ?_
  · intro x hx v hv
    rw [List.mem_singleton.mp hx] at hv ⊢
    refine huser.imp id (fun hu => ?_)
    -- the user the builder was matched by is the identity of one of its lines
    obtain ⟨y, hy, hyv⟩ := identity_of_txnUser (hu.trans hv)
    have hacc := (h.lines r y hy v hyv).resolve_left (h.settled r (Or.inr ⟨k, hm⟩) y hy)
    rw [← hbuild] at hacc
    exact hacc.mono ⟨[], [e], rfl⟩ rfl
  · rintro (hs | ⟨k', hk'⟩)
    · exact absurd hs hns'
    · exact absurd hout (hwc.slotOpen k' r hk' hns')
  · intro v hv
    have hacc := h.slots (k, r) hm v hv
    rw [builder_modify, if_pos rfl, hbuild]
    exact hacc.mono ⟨[], [e], rfl⟩ rfl

theorem kept_response (hw : Wf seen s) (hi : BuilderRef.line i ∉ seen) (h : Kept F seed owner s)
    (hresp : e.entryType = .response) (hid : s.routedId e = none)
    (hfall : s.FallsBack e → e ∈ F) : ∃ owner', Kept F seed owner' (s.response i e) := by
  have hidentity := identity_response hresp
  have huser : e ∈ F ∨ ((∀ p ∈ (s.candidates e).1, txnUser (s.builder p.2) = e.contextUser)
      ∧ ∀ r ∈ (s.candidates e).2, reqUser r = e.contextUser) := by
    by_cases hf : s.FallsBack e
    · exact Or.inl (hfall hf)
    · exact Or.inr (candidates_user hresp hid hf)
  -- with no fallback the candidates are of the line's user; the route decides which of them it joins
  have hroute := responseRoute s i e
  generalize s.response i e = s' at hroute
  cases hroute with
  | builder k r hk =>
      obtain ⟨hm, -, hns⟩ := candidates_slot hk
      refine ⟨owner, kept_answerBuilder hw h hm hns (huser.imp id fun hu => ?_)⟩
      rw [hu.1 (k, r) hk, hidentity]
  | request req hreq =>
      have hp : Kept F seed owner
          { s with pendingReqs := s.pendingReqs.eraseP (fun r => decide (r.id = req.id)) } :=
        kept_shrink h (fun _ => rfl) (fun _ hp => hp) (fun _ hp => hp) (fun _ hp => hp)
          (fun x hx => List.eraseP_subset hx)
      obtain ⟨h1, hacc⟩ := kept_returnNew (wf_pending hw _) hi hp (reqUser req)
        { entries := [req, e], openPos := streamPos req } rfl (fun x hx v hv => by
          rcases List.mem_cons.mp hx with hx | hx
          · rw [hx] at hv
            exact Or.inr (Or.inr hv)
          · rw [List.mem_singleton.mp hx] at hv ⊢
            refine huser.imp id (fun hu => Or.inr ?_)
            show known (reqUser req) = some v
            rw [hu.2 req hreq, ← hidentity]
            exact hv)
      exact ⟨_, kept_giveBack (kept_remember
        (k := (entryServer e, req.thread, reqUser req)) h1 e hacc) _⟩
  | orphan =>
      obtain ⟨h1, -⟩ := kept_returnNew hw hi h (reqUser e)
        { entries := [e], openPos := streamPos e } rfl (fun x hx v hv => by
          rw [List.mem_singleton.mp hx] at hv
          exact Or.inr (Or.inr hv))
      exact ⟨_, kept_giveBack h1 _⟩

/-- A conversation that is closed leaves its slots and its id, and nothing else. -/
theorem closeIdBuilder_frame {s : GroupState ι} {srv rid : String} {r : BuilderRef ι}
    (hg : s.openByReqid.get? (srv, rid) = some r) :
    ∃ s', s.closeIdBuilder srv rid = (some r, s') ∧ s'.heap = s.heap
      ∧ (∀ p ∈ s'.openByKey.items, p ∈ s.openByKey.items)
      ∧ (∀ p ∈ s'.openByReqid.items, p ∈ s.openByReqid.items)
      ∧ s'.recentlyClosed = s.recentlyClosed ∧ s'.pendingReqs = s.pendingReqs := by
  unfold closeIdBuilder
  rw [hg]
  obtain ⟨h1, -, h3, h4, h5, h6⟩ := foldl_releaseSlot
    ((s.openByKey.items.filter (fun p => decide (p.2 = r))).map Prod.fst)
    { s with openByReqid := s.openByReqid.erase (srv, rid) }
  refine ⟨_, rfl, h1, fun p hp => ((h6 p).mp hp).1, fun p hp => ?_, h4, h5⟩
  rw [h3] at hp
  exact (List.mem_filter.mp hp).1

theorem kept_closeStamped (hF : Responses F) (hw : Wf seen s) (hi : BuilderRef.line i ∉ seen)
    (h : Kept F seed owner s) {rid : String} (hrid : stampedReqid e = some rid) :
    ∃ owner', Kept F seed owner' (s.closeStamped i e rid) := by
  have hnot : e ∉ F := fun hm => by
    have hnone := (hF e hm).2
    rw [hrid] at hnone
    cases hnone
  cases hg : s.openByReqid.get? (entryServer e, rid) with
  | some r =>
      obtain ⟨s', hs', hheap, hslots, hids, hclosed, hpend⟩ := closeIdBuilder_frame hg
      obtain ⟨head, hhead, heq⟩ := closeStamped_some i hs'
      have hbuild : ∀ x, (s'.giveBack r).builder x = s.builder x := fun x => by
        show (s'.heap.get? x).getD {} = _
        rw [hheap]
        rfl
      -- closing only takes slots and ids away
      have h1 : Kept F seed owner (s'.giveBack r) := kept_shrink h hbuild hslots
        (fun p hp => hclosed ▸ hp) hids (fun x hx => hpend ▸ hx)
      have hreqid : (s.builder r).reqid = some rid := h.ids _ (OrderedDict.get?_eq_some.mp hg)
      have h2 : Kept F seed owner ((s'.giveBack r).modify r (·.add e)) := by
        refine kept_append h1 (l := [e]) rfl rfl ?_ ?_
        · intro x hx v hv
          rw [List.mem_singleton.mp hx] at hv
          refine Or.inr (Or.inr ?_)
          rw [hbuild]
          show match (s.builder r).reqid with | some rid => _ | none => _
          rw [hreqid]
          exact ⟨e, List.mem_append_right _ (List.mem_singleton_self e), Or.inl hrid, hv⟩
        · intro _ x hx
          rw [List.mem_singleton.mp hx]
          exact hnot
      refine ⟨owner, ?_⟩
      rw [heq]
      -- the conversation is remembered under the user of its first line
      refine kept_remember h2 e (fun v hv => ?_)
      refine (h2.lines r head hhead v (identity_of_ctx hv)).resolve_left ?_
      refine h2.settled r (Or.inl ?_) head hhead
      unfold Stamped isIdBuilder
      rw [builder_modify, if_pos rfl, hbuild]
      show (s.builder r).reqid.isSome = true
      rw [hreqid]
      rfl
  | none =>
      rw [closeStamped_none i hg]
      obtain ⟨h1, hacc⟩ := kept_returnNew hw hi h (reqUser e)
        { entries := [e], openPos := streamPos e } rfl (fun x hx v hv => by
          rw [List.mem_singleton.mp hx] at hv
          exact Or.inr (Or.inr hv))
      exact ⟨_, kept_remember (kept_giveBack h1 _) e
        (fun v hv => hacc v (identity_of_ctx hv))⟩

/-- The conversation of an id, open or new, has that id. -/
theorem kept_stampedBuilder (hw : Wf seen s) (hi : BuilderRef.line i ∉ seen)
    (h : Kept F seed owner s) (srv rid : String) (e : LogEntry) :
    (∃ owner', Kept F seed owner' (s.stampedBuilder i srv rid e).2)
      ∧ ((s.stampedBuilder i srv rid e).2.builder (s.stampedBuilder i srv rid e).1).reqid
          = some rid := by
  unfold stampedBuilder
  cases hg : s.openByReqid.get? (srv, rid) with
  | some r => exact ⟨⟨owner, h⟩, h.ids _ (OrderedDict.get?_eq_some.mp hg)⟩
  | none =>
      have h1 := kept_alloc h hw hi none { openPos := streamPos e, reqid := some rid }
        (fun x hx => by cases hx) (fun _ x hx => by cases hx)
      have hbuild : (builder { s with
          heap := s.heap.set (.line i) { openPos := streamPos e, reqid := some rid } }
            (.line i)) = { openPos := streamPos e, reqid := some rid } := by
        unfold builder
        rw [OrderedDict.get?_set_self]
        rfl
      refine ⟨⟨_, { h1 with ids := ?_ }⟩, congrArg TxnBuilder.reqid hbuild⟩
      rintro ⟨k', r'⟩ hp
      rcases OrderedDict.mem_set.mp hp with ⟨hk, hr⟩ | ⟨-, hm⟩
      · have hk' : k' = (srv, rid) := hk
        have hr' : r' = .line i := hr
        rw [hk', hr']
        exact congrArg TxnBuilder.reqid hbuild
      · exact h1.ids _ hm

/-- A stamped line: its conversation takes the headless work it finds on the slot, and the line. -/
theorem joinStamped_shape (s : GroupState ι) (i : ι) (e : LogEntry) (rid : String) :
    ∃ (l : List LogEntry) (g : TxnBuilder → TxnBuilder)
      (d : OrderedDict (StreamKey ι) (BuilderRef ι)) (c : OrderedDict ThreadKey (StreamKey ι)),
      s.joinStamped i e rid
          = { (s.stampedBuilder i (entryServer e) rid e).2.modify
                (s.stampedBuilder i (entryServer e) rid e).1 g with
              openByKey := d
              currentByThread := c }
        ∧ (∀ b, (g b).entries = b.entries ++ (l ++ [e]) ∧ (g b).reqid = b.reqid)
        ∧ (∀ p ∈ d.items, p = (stampedKey (entryServer e) e, (s.stampedBuilder i (entryServer e) rid e).1)
            ∨ p ∈ (s.stampedBuilder i (entryServer e) rid e).2.openByKey.items)
        ∧ (l = [] ∨ ∃ p, (stampedKey (entryServer e) e, p)
              ∈ (s.stampedBuilder i (entryServer e) rid e).2.openByKey.items
            ∧ ¬ (s.stampedBuilder i (entryServer e) rid e).2.Stamped p
            ∧ l = ((s.stampedBuilder i (entryServer e) rid e).2.builder p).entries) := by
  unfold joinStamped openIdBuilder
  generalize s.stampedBuilder i (entryServer e) rid e = w
  obtain ⟨r, s1⟩ := w
  -- whatever was absorbed, the slot is set last: its items are the new one and old ones
  have hset : ∀ (d : OrderedDict (StreamKey ι) (BuilderRef ι)) (k : StreamKey ι),
      (∀ p ∈ d.items, p ∈ s1.openByKey.items) →
      ∀ p ∈ (d.set k r).items, p = (k, r) ∨ p ∈ s1.openByKey.items := by
    rintro d k hd ⟨k', r'⟩ hp
    rcases OrderedDict.mem_set.mp hp with ⟨hk, hr⟩ | ⟨-, hm⟩
    · rw [hk, hr]
      exact Or.inl rfl
    · exact Or.inr (hd _ hm)
  rcases s1.absorb_cases r (stampedKey (entryServer e) e) with ⟨p, hp, hh, heq⟩ | heq
  · -- the headless work on the slot goes in front of the line
    refine ⟨(s1.builder p).entries, fun b =>
      { b with entries := b.entries ++ ((s1.builder p).entries ++ [e])
               openPos := absorbedPos b.openPos (s1.builder p).openPos },
      (s1.openByKey.erase (stampedKey (entryServer e) e)).set (stampedKey (entryServer e) e) r,
      s1.currentByThread.set (stampedKey (ι := ι) (entryServer e) e).threadKey
        (stampedKey (entryServer e) e),
      ?_, fun b => ⟨rfl, rfl⟩, hset _ _ (fun q hq => (List.mem_filter.mp hq).1),
      Or.inr ⟨p, OrderedDict.get?_eq_some.mp hp, ?_, rfl⟩⟩
    · simp only
      rw [heq]
      unfold modify builder
      simp only [OrderedDict.get?_set_self, OrderedDict.set_set, Option.getD_some, TxnBuilder.add,
        List.append_assoc]
    · unfold headless at hh
      unfold Stamped
      rw [Bool.and_eq_true, Bool.and_eq_true] at hh
      simpa using hh.2.1
  · refine ⟨[], (·.add e), s1.openByKey.set (stampedKey (entryServer e) e) r,
      s1.currentByThread.set (stampedKey (ι := ι) (entryServer e) e).threadKey
        (stampedKey (entryServer e) e), ?_,
      fun b => ⟨rfl, rfl⟩, hset _ _ (fun q hq => hq), Or.inl rfl⟩
    simp only
    rw [heq]
    rfl

theorem kept_joinStamped (hF : Responses F) (hw : Wf seen s) (hi : BuilderRef.line i ∉ seen)
    (h : Kept F seed owner s) {rid : String} (hrid : carriesId rid e)
    (hresp : e.entryType ≠ .response) : ∃ owner', Kept F seed owner' (s.joinStamped i e rid) := by
  obtain ⟨⟨owner', h1⟩, hreqid⟩ := kept_stampedBuilder hw hi h (entryServer e) rid e
  obtain ⟨l, g, d, c, heq, hg, hd, hl⟩ := joinStamped_shape s i e rid
  rw [heq]
  generalize s.stampedBuilder i (entryServer e) rid e = w at h1 hreqid hd hl
  obtain ⟨r, s1⟩ := w
  obtain ⟨hentries, hsame⟩ := hg (s1.builder r)
  have hgid : (g (s1.builder r)).reqid = some rid := hsame.trans hreqid
  -- what the line itself carries
  have hline : ∀ v, identity e = some v → Accounted seed (owner' r) (g (s1.builder r)) v := by
    intro v hv
    refine Or.inr ?_
    rw [hgid]
    refine ⟨e, ?_, hrid, hv⟩
    rw [hentries]
    exact List.mem_append_right _ (List.mem_append_right _ (List.mem_singleton_self e))
  have hnot : e ∉ F := not_fallback hF hresp
  have hmem : ∀ x ∈ l ++ [e], x ∉ F ∧ ∀ v, identity x = some v →
      Accounted seed (owner' r) (g (s1.builder r)) v := by
    intro x hx
    rcases List.mem_append.mp hx with hx | hx
    · rcases hl with rfl | ⟨p, hp, hns, rfl⟩
      · cases hx
      · have hsettled := h1.settled p (Or.inr ⟨_, hp⟩) x hx
        refine ⟨hsettled, fun v hv => ?_⟩
        rcases (h1.lines p x hx v hv).resolve_left hsettled with hb | hown
        · refine Or.inl (hb.mono ?_)
          rw [hentries]
          exact ⟨(s1.builder r).entries, [e], by simp⟩
        · -- the owner of the headless work is the user of the line
          have hnone : (s1.builder p).reqid = none := by
            unfold GroupState.Stamped isIdBuilder at hns
            simpa using hns
          rw [hnone] at hown
          have hu : owner' p = e.contextUser := h1.slotOwner _ hp hns
          rw [hu] at hown
          exact hline v (identity_of_ctx hown)
    · rw [List.mem_singleton.mp hx]
      exact ⟨hnot, hline⟩
  have h2 : Kept F seed owner' (s1.modify r g) :=
    kept_append h1 hentries hsame (fun x hx v hv => Or.inr ((hmem x hx).2 v hv))
      (fun _ x hx => (hmem x hx).1)
  have hbuild : (s1.modify r g).builder r = g (s1.builder r) := by
    rw [builder_modify, if_pos rfl]
  have hst : (s1.modify r g).Stamped r := by
    unfold GroupState.Stamped isIdBuilder
    rw [hbuild, hgid]
    rfl
  refine ⟨owner', kept_slot h2 hd ?_ (fun hns => absurd hst hns) (fun hns => absurd hst hns)⟩
  intro v hv
  rw [hbuild]
  exact hline v (identity_of_ctx hv)

omit [DecidableEq ι] in
/-- An id routes the lines that carry it. -/
theorem routedId_carries {rid : String} (h : s.routedId e = some rid) :
    carriesId rid e ∧ (e.entryType = .response → stampedReqid e = some rid) := by
  unfold routedId at h
  cases hst : stampedReqid e with
  | some rid' =>
      rw [hst] at h
      exact ⟨Or.inl (hst.trans h), fun _ => h⟩
  | none =>
      rw [hst] at h
      cases ht : e.entryType with
      | requestBody =>
          cases hr : entryReqid e with
          | none =>
              rw [ht, hr] at h
              cases h
          | some rid' =>
              rw [ht, hr] at h
              simp only at h
              split at h
              · refine ⟨Or.inr ⟨ht, ?_⟩, fun he => by cases he⟩
                rw [hr]
                exact h
              · cases h
      | request | miCall | miResult | sql | response | info | error =>
          rw [ht] at h
          simp at h

/-- **One line keeps the users apart.** -/
theorem kept_step (hF : Responses F) (hw : Wf seen s) (hi : BuilderRef.line i ∉ seen)
    (h : Kept F seed owner s) (gap : Duration)
    (hfall : (s.swept gap e).FallsBack e → e ∈ F) :
    ∃ owner', Kept F seed owner' (s.step gap i e) := by
  have hw' := wf_swept hw gap e
  have h' := kept_swept h gap e
  unfold step
  generalize s.swept gap e = s1 at hw' h' hfall ⊢
  -- the sweep opens and joins nothing; then each route keeps the users apart by its own lemma
  unfold route
  cases hid : s1.routedId e with
  | some rid =>
      obtain ⟨hcar, hstamp⟩ := routedId_carries hid
      simp only
      by_cases hresp : e.entryType = .response
      · rw [if_pos hresp]
        exact kept_closeStamped hF hw' hi h' (hstamp hresp)
      · rw [if_neg hresp]
        exact kept_joinStamped hF hw' hi h' hcar hresp
  | none =>
      simp only
      cases ht : e.entryType with
      | request =>
          refine ⟨owner, { h' with pending := ?_ }⟩
          intro x hx
          rcases List.mem_append.mp hx with hx | hx
          · exact h'.pending x hx
          · rw [List.mem_singleton.mp hx, ht]
      | requestBody => exact kept_requestBody hF hw' hi h' ht
      | response => exact kept_response hw' hi h' ht hid hfall
      | miCall | miResult | sql | info | error =>
          exact kept_work hF hw' hi h' (by rw [ht]; rfl)

/-- **A run keeps the users apart.** -/
theorem kept_run (hF : Responses F) (gap : Duration) (xs : List (LogEntry × ι)) (hw : Wf seen s)
    (h : Kept F seed owner s) (htags : (xs.map Prod.snd).Nodup)
    (hfresh : ∀ p ∈ xs, BuilderRef.line p.2 ∉ seen) (hfall : ∀ e ∈ s.fallbacks gap xs, e ∈ F) :
    ∃ owner', Kept F seed owner' (s.run gap xs) := by
  induction xs generalizing seen s owner with
  | nil => exact ⟨owner, h⟩
  | cons x xs ih =>
      obtain ⟨e, i⟩ := x
      obtain ⟨htag, htags⟩ := List.nodup_cons.mp htags
      have hi : BuilderRef.line i ∉ seen := hfresh (e, i) List.mem_cons_self
      have hsub : ∀ e' ∈ (s.step gap i e).fallbacks gap xs, e' ∈ F := by
        intro e' he'
        refine hfall e' ?_
        unfold fallbacks
        split
        · exact List.mem_cons_of_mem _ he'
        · exact he'
      obtain ⟨owner', h'⟩ := kept_step hF hw hi h gap (e := e) (fun hf => hfall e (by
        unfold fallbacks
        rw [if_pos hf]
        exact List.mem_cons_self))
      refine ih (wf_step hw hi gap e) h' htags (fun p hp hmem => ?_) hsub
      rcases hmem with hm | hm
      · have hpi : p.2 = i := by simpa using hm
        exact htag (List.mem_map.mpr ⟨p, hp, hpi⟩)
      · exact hfresh p (List.mem_cons_of_mem _ hp) hm

/-- The responses that fall back are unstamped. -/
theorem fallbacks_responses (gap : Duration) (xs : List (LogEntry × ι)) (s : GroupState ι) :
    ∀ e ∈ s.fallbacks gap xs, (e.entryType = .response ∧ stampedReqid e = none)
      ∧ ∃ p ∈ xs, p.1 = e := by
  induction xs generalizing s with
  | nil => exact fun e he => by cases he
  | cons x xs ih =>
      obtain ⟨e', i⟩ := x
      intro e he
      unfold fallbacks at he
      have htail : e ∈ (s.step gap i e').fallbacks gap xs →
          (e.entryType = .response ∧ stampedReqid e = none) ∧ ∃ p ∈ (e', i) :: xs, p.1 = e := by
        intro hm
        obtain ⟨h1, p, hp, he⟩ := ih _ e hm
        exact ⟨h1, p, List.mem_cons_of_mem _ hp, he⟩
      split at he
      · rename_i hf
        rcases List.mem_cons.mp he with rfl | hm
        · refine ⟨⟨hf.1.1, ?_⟩, (e, i), List.mem_cons_self, rfl⟩
          have hid := hf.1.2
          unfold routedId at hid
          cases hst : stampedReqid e with
          | none => rfl
          | some rid =>
              rw [hst] at hid
              cases hid
        · exact htail hm
      · exact htail he

end Route

/-! ## §6. The starting state. -/

section Seeded

variable {F : Set LogEntry} {seed : Seed} {owner : BuilderRef ι → Option User} {n : Nat}
  {s : GroupState ι}

/-- A seeded stream accounts for its own users, and brings the others along. -/
theorem accounted_seeded {st : SeedStream} (hst : st ∈ seed.streams) (hne : st.entries ≠ [])
    {b : TxnBuilder} (hb : b.entries = st.entries) (hid : b.reqid = stampedReqidOf st.entries)
    {v : User} (hv : known (st.userCtx.map User.text) = some v ∨ ∃ e ∈ st.entries, identity e = some v) :
    Accounted seed (st.userCtx.map User.text) b v := by
  by_cases hf : st.Foreign v
  · exact Or.inl (.seeded st hst hne (hb ▸ List.infix_rfl) hf)
  · refine Or.inr ?_
    have hown : ¬ match stampedReqidOf st.entries with
        | some rid => ¬ ∃ e ∈ st.entries, carriesId rid e ∧ identity e = some v
        | none => known (st.userCtx.map User.text) ≠ some v := fun h => hf ⟨hv, h⟩
    rw [hid]
    cases hrid : stampedReqidOf st.entries with
    | none =>
        rw [hrid] at hown
        exact not_not.mp hown
    | some rid =>
        rw [hrid] at hown
        have hcar := not_not.mp hown
        unfold CarriedById
        rw [hb]
        exact hcar

theorem kept_plant (hw : Wf (seedRefs n) s) (h : Kept F seed owner s) {st : SeedStream}
    (hst : st ∈ seed.streams) (hF : ∀ e ∈ st.entries, e ∉ F) :
    ∃ owner', Kept F seed owner' (s.plant n st) := by
  by_cases hne : st.entries = []
  · have hskip : s.plant n st = s := by
      unfold plant
      exact if_pos (by simpa using hne)
    rw [hskip]
    exact ⟨owner, h⟩
  rw [plant_eq n s hne]
  generalize hb : TxnBuilder.mk st.entries st.openPos (stampedReqidOf st.entries) = b
  have hentries : b.entries = st.entries := by rw [← hb]
  have hreqid : b.reqid = stampedReqidOf st.entries := by rw [← hb]
  have h1 := kept_alloc h hw (seed_not_mem_seedRefs n) (st.userCtx.map User.text) b
    (fun x hx v hv => Or.inr (accounted_seeded hst hne hentries hreqid
      (Or.inr ⟨x, hentries ▸ hx, hv⟩)))
    (fun _ x hx => hF x (hentries ▸ hx))
  have hbuild : ({ s with heap := s.heap.set (.seed n) b } : GroupState ι).builder (.seed n) = b := by
    unfold builder
    rw [OrderedDict.get?_set_self]
    rfl
  -- the slot of the stream, then the id it is stamped with
  have h2 := kept_slot (k := st.key) (r := .seed n) (d := s.openByKey.set st.key (.seed n))
    (c := if st.isCurrent then s.currentByThread.set (st.server, st.thread) st.key
      else s.currentByThread) h1 ?_ ?_ (fun _ => Function.update_self ..) ?_
  · refine ⟨_, { h2 with ids := ?_ }⟩
    cases hrid : stampedReqidOf st.entries with
    | none => exact h2.ids
    | some rid =>
        rintro ⟨k', r'⟩ hp
        rcases OrderedDict.mem_set.mp hp with ⟨hk, hr⟩ | ⟨-, hm⟩
        · have hk' : k' = (st.server, rid) := hk
          have hr' : r' = .seed n := hr
          rw [hk', hr']
          exact (congrArg TxnBuilder.reqid hbuild).trans (hreqid.trans hrid)
        · exact h2.ids _ hm
  · rintro ⟨k', r'⟩ hp
    rcases OrderedDict.mem_set.mp hp with ⟨hk, hr⟩ | ⟨-, hm⟩
    · rw [hk, hr]
      exact Or.inl rfl
    · exact Or.inr hm
  · intro v hv
    rw [hbuild, Function.update_self]
    exact accounted_seeded hst hne hentries hreqid (Or.inl hv)
  · intro _ x hx
    rw [hbuild, hentries] at hx
    exact hF x hx

/-- All the streams of a seed, one after the other. -/
theorem kept_foldl_plant (sts : List SeedStream) (n : Nat) (hw : Wf (seedRefs n) s)
    (h : Kept F seed owner s) (hsub : ∀ st ∈ sts, st ∈ seed.streams)
    (hF : ∀ st ∈ sts, ∀ e ∈ st.entries, e ∉ F) :
    Wf (seedRefs (n + sts.length)) ((sts.zipIdx n).foldl (fun s p => s.plant p.2 p.1) s)
      ∧ ∃ owner', Kept F seed owner' ((sts.zipIdx n).foldl (fun s p => s.plant p.2 p.1) s) := by
  induction sts generalizing n s owner with
  | nil => exact ⟨hw, owner, h⟩
  | cons st sts ih =>
      obtain ⟨owner', h'⟩ := kept_plant hw h (hsub st List.mem_cons_self)
        (hF st List.mem_cons_self)
      have hrest := ih (n + 1) (wf_plant hw st) h'
        (fun st' hs => hsub st' (List.mem_cons_of_mem _ hs))
        (fun st' hs => hF st' (List.mem_cons_of_mem _ hs))
      have hlen : n + (st :: sts).length = n + 1 + sts.length := by
        rw [List.length_cons]
        omega
      rw [hlen]
      exact hrest

/-- The seeded state. -/
theorem kept_seedState (hpending : ∀ r ∈ seed.pending, r.entryType = .request)
    (hF : ∀ st ∈ seed.streams, ∀ e ∈ st.entries, e ∉ F) :
    Wf (seedRefs seed.streams.length) (seedState (ι := ι) seed)
      ∧ ∃ owner, Kept F seed owner (seedState (ι := ι) seed) := by
  have hempty : Kept F seed (fun _ => none) ({} : GroupState ι) := by
    refine ⟨?_, ?_, ?_, ?_, ?_, ?_, ?_⟩
    · exact fun r e he => by cases he
    · exact fun p hp => by cases hp
    · exact fun p hp => by cases hp
    · exact fun r _ e he => by cases he
    · exact fun p hp => by cases hp
    · exact fun p hp => by cases hp
    · exact fun e he => by cases he
  obtain ⟨hw, owner, h⟩ := kept_foldl_plant seed.streams 0 (planted_empty (ι := ι)).1.wf hempty
    (fun _ hs => hs) hF
  rw [Nat.zero_add] at hw
  exact ⟨wf_pending hw _, owner, { h with pending := hpending }⟩

end Seeded

end GroupState

open GroupState

/-! ## §7. The theorem. -/

/-- The responses of a whole run that fall back. -/
def fallbackResponses (gap : Duration) (seed : Seed) (entries : List LogEntry) : List LogEntry :=
  (seedState seed).fallbacks gap (seed.unseen entries)

/-- Two users share a conversation only under one stamped id, or by a response that falls back. -/
def UsersIsolated (gap : Duration) (seed : Seed) (entries : List LogEntry) : Prop :=
  ∀ b ∈ group gap seed entries, ∀ e ∈ b.entries, ∀ e' ∈ b.entries, ∀ u v,
    identity e = some u → identity e' = some v → u ≠ v →
      (∃ rid, stampedReqid e = some rid ∧ stampedReqid e' = some rid)
        ∨ e ∈ fallbackResponses gap seed entries ∨ e' ∈ fallbackResponses gap seed entries

/-- Two users share a conversation only by a rule of the grouper: one of the two lines is a response
    that fell back, lines of both were routed here by one request id, or one of the two was brought
    in. -/
def UsersMixByRule (gap : Duration) (seed : Seed) (entries : List LogEntry) : Prop :=
  ∀ b ∈ group gap seed entries, ∀ e ∈ b.entries, ∀ e' ∈ b.entries, ∀ u v,
    identity e = some u → identity e' = some v → u ≠ v →
      e ∈ fallbackResponses gap seed entries ∨ e' ∈ fallbackResponses gap seed entries
        ∨ (∃ rid, CarriedById rid b u ∧ CarriedById rid b v)
        ∨ Brought seed b u ∨ Brought seed b v

/-- **User isolation**, for every seed and every list of lines. -/
theorem users_isolated (gap : Duration) (seed : Seed) (entries : List LogEntry)
    (hpending : ∀ r ∈ seed.pending, r.entryType = .request) :
    UsersMixByRule gap seed entries := by
  intro b hb e he e' he' u v hu hv hne
  have hfallbacks := fallbacks_responses gap (seed.unseen entries) (seedState (ι := Nat) seed)
  have hF : Responses {x | x ∈ fallbackResponses gap seed entries} :=
    fun x hx => (hfallbacks x hx).1
  have hseeds : ∀ st ∈ seed.streams, ∀ x ∈ st.entries,
      x ∉ {x | x ∈ fallbackResponses gap seed entries} := by
    intro st hst x hx hmem
    obtain ⟨-, p, hp, hpx⟩ := hfallbacks x hmem
    have hnot : p.1.id ∉ seed.ids := by simpa using (List.mem_filter.mp hp).2
    refine hnot (hpx ▸ ?_)
    exact List.mem_map_of_mem (List.mem_flatMap.mpr ⟨st, hst, hx⟩)
  obtain ⟨hw, owner, h⟩ := kept_seedState (ι := Nat) hpending hseeds
  have htags := unseen_tags seed entries
  have hfresh : ∀ p ∈ seed.unseen entries,
      BuilderRef.line p.2 ∉ seedRefs (ι := Nat) seed.streams.length := by
    rintro p - ⟨m, -, heq⟩
    cases heq
  obtain ⟨owner', hfinal⟩ := kept_run hF gap (seed.unseen entries) hw h htags hfresh
    (fun x hx => hx)
  obtain ⟨x, -, rfl⟩ := List.mem_map.mp hb
  cases x with
  | lone r =>
      -- one line, one user
      have h1 : e = r := List.mem_singleton.mp he
      have h2 : e' = r := List.mem_singleton.mp he'
      rw [h1] at hu
      rw [h2, hu] at hv
      exact absurd (Option.some.inj hv) hne
  | shared r =>
      have hu' := hfinal.lines r e he u hu
      have hv' := hfinal.lines r e' he' v hv
      rcases hu' with hf | hu' | hu'
      · exact Or.inl hf
      · exact Or.inr (Or.inr (Or.inr (Or.inl hu')))
      · rcases hv' with hf | hv' | hv'
        · exact Or.inr (Or.inl hf)
        · exact Or.inr (Or.inr (Or.inr (Or.inr hv')))
        · refine Or.inr (Or.inr (Or.inl ?_))
          revert hu' hv'
          show (match (GroupState.builder _ r).reqid with | some rid => _ | none => _) →
            (match (GroupState.builder _ r).reqid with | some rid => _ | none => _) → _
          cases (GroupState.builder (GroupState.run gap (seedState seed) (seed.unseen entries))
              r).reqid with
          | some rid => exact fun hu' hv' => ⟨rid, hu', hv'⟩
          | none => exact fun hu' hv' => absurd (Option.some.inj (hu'.symm.trans hv')) hne

/-! ## §8. A conversation of two users. -/

/-- A work line of ANNA, and on the same thread an M3 call without a context user, made for BOB. -/
def bobOnAnnasThread : List LogEntry :=
  [{ id := 1
     sourceFile := "A/eSmartServerLog.txt"
     timestamp := some 0
     thread := some "12"
     userCtx := some "ANNA"
     entryType := .info },
   { id := 2
     sourceFile := "A/eSmartServerLog.txt"
     timestamp := some 1
     thread := some "12"
     entryType := .miCall
     fields := [("params", .obj [("m3user", .str "BOB")])] }]

/-- **A user-less work line goes with its thread**, whoever its payload names. -/
theorem bobOnAnnasThread_not_isolated :
    bobOnAnnasThread.Pairwise (fun a b => timeLe a b = true)
      ∧ (group (300 * second) {} bobOnAnnasThread).map (fun b => b.entries.map identity)
          = [[some (.text "ANNA"), some (.text "BOB")]]
      ∧ ¬ UsersIsolated (300 * second) {} bobOnAnnasThread := by
  have hmixed : ∃ b ∈ group (300 * second) {} bobOnAnnasThread, ∃ e ∈ b.entries, ∃ e' ∈ b.entries,
      identity e = some (.text "ANNA") ∧ identity e' = some (.text "BOB") ∧ stampedReqid e = none
        ∧ e.entryType ≠ .response ∧ e'.entryType ≠ .response := by decide +kernel
  refine ⟨by decide, by decide +kernel, fun h => ?_⟩
  obtain ⟨b, hb, e, he, e', he', hu, hv, hst, hr, hr'⟩ := hmixed
  have hresp := fallbacks_responses (300 * second) (({} : Seed).unseen bobOnAnnasThread)
    (seedState (ι := Nat) {})
  rcases h b hb e he e' he' (.text "ANNA") (.text "BOB") hu hv (by decide) with ⟨rid, h1, -⟩ | h1 | h1
  · rw [hst] at h1
    cases h1
  · exact hr (hresp e h1).1.1
  · exact hr' (hresp e' h1).1.1

/-- The theorem on these two lines: BOB was brought in. -/
theorem users_isolated_bob : UsersMixByRule (300 * second) {} bobOnAnnasThread :=
  users_isolated (300 * second) {} bobOnAnnasThread (fun _ h => (List.not_mem_nil h).elim)

end RagPipeline.Stage2
