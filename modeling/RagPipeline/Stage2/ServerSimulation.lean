/-
  RagPipeline.Stage2.ServerSimulation — one server's part of the grouper is a grouper of its own.

  Two runs are compared: one over the lines of all the servers, one over the lines of server `S`
  alone.  The loop index of a line differs between them, and with it the references of the builders
  and the keys of the anonymous streams, so the second state is related to the first through an
  injection `f` of the indexes:

    * `Sim f S s s₀` — the part of `S` in `s` is `s₀`, renamed by `f`; of the result only membership
      is compared, since the shared sweep may return builders in another order, or earlier;
    * `sim_route` — a line of `S` keeps the relation, both runs taking the same branch;
    * `sim_of_local` — a line of another server keeps it too, with `s₀` standing still;
    * the sweep, on whatever clock, is the matter of `ServerIsolation` (`sim_swept`).
-/
import RagPipeline.Stage2.ServerLocality

namespace RagPipeline.Stage2

open RagPipeline.Lib

/-! ## §1. Renaming the indexes of the lines. -/

section Rename

variable {ι κ : Type} (f : κ → ι)

/-- The reference of the same builder under other indexes. -/
def BuilderRef.map : BuilderRef κ → BuilderRef ι
  | .seed n => .seed n
  | .line j => .line (f j)

/-- The key of the same stream under other indexes. -/
def StreamKey.map (k : StreamKey κ) : StreamKey ι := ⟨k.server, k.thread, k.user, k.anon.map f⟩

variable {f} (hf : Function.Injective f)
include hf

/-- Different builders keep different references. -/
theorem BuilderRef.map_injective : Function.Injective (BuilderRef.map f) := by
  intro a b h
  cases a with
  | seed n =>
      cases b with
      | seed m =>
          have hm : n = m := BuilderRef.seed.inj h
          rw [hm]
      | line j => cases h
  | line i =>
      cases b with
      | seed m => cases h
      | line j => rw [hf (BuilderRef.line.inj h)]

/-- Different streams keep different keys. -/
theorem StreamKey.map_injective : Function.Injective (StreamKey.map f) := by
  intro a b h
  obtain ⟨a1, a2, a3, a4⟩ := a
  obtain ⟨b1, b2, b3, b4⟩ := b
  obtain ⟨h1, h2, h3, h4⟩ := StreamKey.mk.inj h
  have h4' : a4 = b4 := Option.map_injective hf h4
  exact StreamKey.mk.injEq .. ▸ ⟨h1, h2, h3, h4'⟩

end Rename

namespace GroupState

variable {ι κ : Type} [DecidableEq ι] [DecidableEq κ]

/-! ## §2. The relation. -/

/-- The part of server `S` in `s` is `s₀` under other indexes. -/
structure Sim {f : κ → ι} (hf : Function.Injective f) (S : String) (s : GroupState ι)
    (s₀ : GroupState κ) : Prop where
  heap : ∀ r, s.builder (BuilderRef.map f r) = s₀.builder r
  slots : s.openByKey.filterKeys (fun k => decide (k.server = S))
    = s₀.openByKey.mapKV (StreamKey.map_injective hf) (BuilderRef.map f)
  current : s.currentByThread.filterKeys (fun k => decide (k.1 = S))
    = s₀.currentByThread.mapKV Function.injective_id (StreamKey.map f)
  ids : s.openByReqid.filterKeys (fun k => decide (k.1 = S))
    = s₀.openByReqid.mapKV Function.injective_id (BuilderRef.map f)
  closed : s.recentlyClosed.filterKeys (fun k => decide (k.1 = S))
    = s₀.recentlyClosed.mapKV Function.injective_id (Prod.map (BuilderRef.map f) id)
  pending : s.pendingReqs.filter (fun e => decide (entryServer e = S)) = s₀.pendingReqs
  out : ∀ r, BuilderRef.map f r ∈ s.outRefs ↔ r ∈ s₀.outRefs
  lones : ∀ e, entryServer e = S → (e ∈ s.lones ↔ e ∈ s₀.lones)

variable {f : κ → ι} {hf : Function.Injective f} {S : String} {s : GroupState ι}
  {s₀ : GroupState κ}

/-! ## §3. Lookups agree. -/

section Lookups

variable (h : Sim hf S s s₀)
include h

/-- A slot of `S` holds the same builder in both. -/
theorem Sim.get_slot {k : StreamKey κ} (hk : k.server = S) :
    s.openByKey.get? (StreamKey.map f k) = (s₀.openByKey.get? k).map (BuilderRef.map f) :=
  OrderedDict.get?_of_filterKeys_eq_mapKV _ _ h.slots (decide_eq_true hk)

/-- A thread of `S` is on the same stream in both. -/
theorem Sim.get_current (th : Option String) :
    s.currentByThread.get? (S, th) = (s₀.currentByThread.get? (S, th)).map (StreamKey.map f) :=
  OrderedDict.get?_of_filterKeys_eq_mapKV Function.injective_id _ h.current
    (k := (S, th)) (by simp)

/-- A request id of `S` names the same builder in both. -/
theorem Sim.get_id (rid : String) :
    s.openByReqid.get? (S, rid) = (s₀.openByReqid.get? (S, rid)).map (BuilderRef.map f) :=
  OrderedDict.get?_of_filterKeys_eq_mapKV Function.injective_id _ h.ids (k := (S, rid)) (by simp)

/-- What was closed last on a thread of `S` is the same in both. -/
theorem Sim.get_closed (th : Option String) (u : Option User) :
    s.recentlyClosed.get? (S, th, u)
      = (s₀.recentlyClosed.get? (S, th, u)).map (Prod.map (BuilderRef.map f) id) :=
  OrderedDict.get?_of_filterKeys_eq_mapKV Function.injective_id _ h.closed
    (k := (S, th, u)) (by simp)

/-- Every slot of the second state is one of `S`. -/
theorem Sim.slot_server {p : StreamKey κ × BuilderRef κ} (hp : p ∈ s₀.openByKey.items) :
    p.1.server = S := by
  have hk := OrderedDict.key_of_filterKeys_eq_mapKV _ _ h.slots hp
  exact of_decide_eq_true hk

/-- Every request that waits in the second state is of `S`. -/
theorem Sim.pending_server {e : LogEntry} (he : e ∈ s₀.pendingReqs) : entryServer e = S := by
  rw [← h.pending] at he
  simpa using (List.mem_filter.mp he).2

end Lookups

/-! ## §4. The single updates. -/

section Updates

variable (h : Sim hf S s s₀)
include h

/-- A builder is written in both. -/
theorem sim_heap (r : BuilderRef κ) (b : TxnBuilder) :
    Sim hf S { s with heap := s.heap.set (BuilderRef.map f r) b }
      { s₀ with heap := s₀.heap.set r b } := by
  refine { h with heap := ?_ }
  intro x
  show ((s.heap.set (BuilderRef.map f r) b).get? (BuilderRef.map f x)).getD {}
    = ((s₀.heap.set r b).get? x).getD {}
  rw [getD_set, getD_set]
  by_cases hx : x = r
  · rw [if_pos hx, if_pos (congrArg _ hx)]
  · have hne : BuilderRef.map f x ≠ BuilderRef.map f r :=
      fun he => hx (BuilderRef.map_injective hf he)
    rw [if_neg hx, if_neg hne]
    exact h.heap x

/-- A builder is changed in both. -/
theorem sim_modify (r : BuilderRef κ) (g : TxnBuilder → TxnBuilder) :
    Sim hf S (s.modify (BuilderRef.map f r) g) (s₀.modify r g) := by
  unfold modify
  rw [h.heap r]
  exact sim_heap h r _

theorem sim_setSlot {k : StreamKey κ} (hk : k.server = S) (r : BuilderRef κ) :
    Sim hf S { s with openByKey := s.openByKey.set (StreamKey.map f k) (BuilderRef.map f r) }
      { s₀ with openByKey := s₀.openByKey.set k r } := by
  exact { h with
    slots := OrderedDict.set_of_filterKeys_eq_mapKV _ _ h.slots (decide_eq_true hk) r }

/-- A slot is cleared in both, whichever server it is of. -/
theorem sim_eraseSlot (k : StreamKey κ) :
    Sim hf S { s with openByKey := s.openByKey.erase (StreamKey.map f k) }
      { s₀ with openByKey := s₀.openByKey.erase k } := by
  exact { h with slots := OrderedDict.erase_of_filterKeys_eq_mapKV _ _ h.slots k }

/-- A thread of `S` moves to the same stream in both. -/
theorem sim_setCurrent {k : StreamKey κ} (hk : k.server = S) :
    Sim hf S { s with currentByThread := s.currentByThread.set k.threadKey (StreamKey.map f k) }
      { s₀ with currentByThread := s₀.currentByThread.set k.threadKey k } := by
  exact { h with
    current := OrderedDict.set_of_filterKeys_eq_mapKV Function.injective_id _ h.current
      (k := k.threadKey) (decide_eq_true hk) k }

/-- A request id of `S` is noted in both. -/
theorem sim_setId (rid : String) (r : BuilderRef κ) :
    Sim hf S { s with openByReqid := s.openByReqid.set (S, rid) (BuilderRef.map f r) }
      { s₀ with openByReqid := s₀.openByReqid.set (S, rid) r } := by
  exact { h with
    ids := OrderedDict.set_of_filterKeys_eq_mapKV Function.injective_id _ h.ids
      (k := (S, rid)) (decide_eq_true rfl) r }

theorem sim_eraseId (k : String × String) :
    Sim hf S { s with openByReqid := s.openByReqid.erase k }
      { s₀ with openByReqid := s₀.openByReqid.erase k } := by
  exact { h with ids := OrderedDict.erase_of_filterKeys_eq_mapKV Function.injective_id _ h.ids k }

/-- What was closed is forgotten in both. -/
theorem sim_eraseClosed (k : ClosedKey) :
    Sim hf S { s with recentlyClosed := s.recentlyClosed.erase k }
      { s₀ with recentlyClosed := s₀.recentlyClosed.erase k } := by
  exact { h with
    closed := OrderedDict.erase_of_filterKeys_eq_mapKV Function.injective_id _ h.closed k }

/-- What was closed at a line without a timestamp is remembered in neither. -/
theorem sim_rememberClosed {k : ClosedKey} (hk : k.1 = S) (r : BuilderRef κ) (e : LogEntry) :
    Sim hf S (s.rememberClosed k (BuilderRef.map f r) e) (s₀.rememberClosed k r e) := by
  unfold rememberClosed
  cases e.timestamp with
  | none => exact h
  | some t =>
      exact { h with
        closed := OrderedDict.set_of_filterKeys_eq_mapKV Function.injective_id _ h.closed
          (k := k) (decide_eq_true hk) (r, t) }

/-- The ids of a builder are forgotten in both; other builders keep theirs under the injection. -/
theorem sim_forgetId (r : BuilderRef κ) :
    Sim hf S (s.forgetId (BuilderRef.map f r)) (s₀.forgetId r) := by
  exact { h with
    ids := OrderedDict.filterItems_of_filterKeys_eq_mapKV Function.injective_id _ h.ids
      (fun x _ => by simp [(BuilderRef.map_injective hf).eq_iff]) }

/-- A builder is given back in both; the order among the servers is not compared. -/
theorem sim_giveBack (r : BuilderRef κ) :
    Sim hf S (s.giveBack (BuilderRef.map f r)) (s₀.giveBack r) := by
  refine { h with out := ?_, lones := ?_ }
  · intro x
    rw [outRefs_giveBack, outRefs_giveBack, List.mem_append, List.mem_append, h.out,
      List.mem_singleton, List.mem_singleton, (BuilderRef.map_injective hf).eq_iff]
  · intro e he
    rw [lones_giveBack, lones_giveBack]
    exact h.lones e he

/-- The waiting requests of `S` are all that the relation asks of the pool. -/
theorem sim_pending {p : List LogEntry} {p₀ : List LogEntry}
    (hp : p.filter (fun e => decide (entryServer e = S)) = p₀) :
    Sim hf S { s with pendingReqs := p } { s₀ with pendingReqs := p₀ } :=
  { h with pending := hp }

/-- A slot is released with the thread that was on it. -/
theorem sim_releaseSlot {k : StreamKey κ} (hk : k.server = S) :
    Sim hf S (s.releaseSlot (StreamKey.map f k)) (s₀.releaseSlot k) := by
  have h1 := sim_eraseSlot h k
  have hcur := h.get_current k.thread
  have hkey : ((S, k.thread) : ThreadKey) = k.threadKey := by
    unfold StreamKey.threadKey
    rw [hk]
  rw [hkey] at hcur
  unfold releaseSlot dropCurrent
  show Sim hf S (if s.currentByThread.get? k.threadKey = some (StreamKey.map f k) then _ else _)
    (if s₀.currentByThread.get? k.threadKey = some k then _ else _)
  have hiff : s.currentByThread.get? k.threadKey = some (StreamKey.map f k)
      ↔ s₀.currentByThread.get? k.threadKey = some k := by
    rw [hcur, Option.map_eq_some_iff]
    constructor
    · rintro ⟨k', hk', he⟩
      rw [hk', StreamKey.map_injective hf he]
    · intro h'
      exact ⟨k, h', rfl⟩
  by_cases hc : s₀.currentByThread.get? k.threadKey = some k
  · rw [if_pos (hiff.mpr hc), if_pos hc]
    exact { h1 with
      current := OrderedDict.erase_of_filterKeys_eq_mapKV Function.injective_id _ h.current k.threadKey }
  · rw [if_neg (fun h' => hc (hiff.mp h')), if_neg hc]
    exact h1

end Updates

/-! ## §5. Taking from the pool. -/

section Taking

variable {q : LogEntry → Bool} (l : List LogEntry)

/-- What is left of the pool, of one server. -/
def keepTaken (q : LogEntry → Bool) (t : Taken) : Taken := t.map fun t => (t.1, t.2.filter q)

/-- A search that only accepts what `q` keeps can be made in what `q` keeps. -/
theorem takePreferred_filter {pool : LogEntry → Bool} (hp : ∀ e, pool e = true → q e = true)
    (prefs : List (LogEntry → Bool)) :
    takePreferred (l.filter q) pool prefs = keepTaken q (takePreferred l pool prefs) := by
  unfold takePreferred
  induction prefs with
  | nil => rfl
  | cons accept prefs ih =>
      have hpop := popLast?_filter (p := fun r => pool r && accept r) (q := q)
        (fun a ha => hp a (by rw [Bool.and_eq_true] at ha; exact ha.1)) l
      rw [List.findSome?_cons, List.findSome?_cons, hpop]
      cases popLast? (fun r => pool r && accept r) l with
      | some t => rfl
      | none => exact ih

/-- The first of two takes, of one server. -/
theorem keepTaken_or (t t' : Taken) :
    keepTaken q (t.or t') = (keepTaken q t).or (keepTaken q t') := by
  cases t with
  | none => rfl
  | some t => rfl

/-- Requests are taken by id within a server only. -/
theorem takeByReqid_filter (rid : Option String) :
    takeByReqid (l.filter (fun e => decide (entryServer e = S))) rid S
      = keepTaken (fun e => decide (entryServer e = S)) (takeByReqid l rid S) := by
  unfold takeByReqid
  cases rid with
  | none => rfl
  | some rid =>
      refine popFirst?_filter (fun a ha => ?_) l
      rw [Bool.and_eq_true] at ha
      exact ha.1

/-- The request of a body is taken within a server. -/
theorem takePostRequest_filter (th : Option String) (u : Option User) :
    takePostRequest (l.filter (fun e => decide (entryServer e = S))) S th u
      = keepTaken (fun e => decide (entryServer e = S)) (takePostRequest l S th u) := by
  refine takePreferred_filter l (fun a ha => ?_) _
  rw [Bool.and_eq_true] at ha
  exact ha.1

/-- Requests are taken by user within a server. -/
theorem takeByUser_filter (u : Option User) (th : Option String) :
    takeByUser (l.filter (fun e => decide (entryServer e = S))) u S th
      = keepTaken (fun e => decide (entryServer e = S)) (takeByUser l u S th) := by
  unfold takeByUser
  split
  · refine takePreferred_filter l (fun a ha => ?_) _
    rw [Bool.and_eq_true] at ha
    exact ha.1
  · rfl

/-- Anonymous requests are taken within a server. -/
theorem takeAnonymousRequest_filter (th : Option String) :
    takeAnonymousRequest (l.filter (fun e => decide (entryServer e = S))) S th
      = keepTaken (fun e => decide (entryServer e = S)) (takeAnonymousRequest l S th) := by
  unfold takeAnonymousRequest
  split
  · refine popLast?_filter (fun a ha => ?_) l
    rw [Bool.and_eq_true, Bool.and_eq_true] at ha
    exact ha.1.1
  · rfl

end Taking

/-! ## §6. The operations of one line. -/

section Ops

variable {j : κ} {e : LogEntry}

/-- A stream of `S` is closed in both. -/
theorem sim_closeInto (h : Sim hf S s s₀) {k : StreamKey κ} (hk : k.server = S) :
    Sim hf S (s.closeInto (StreamKey.map f k)) (s₀.closeInto k) := by
  have hget := h.get_slot hk
  cases hg : s₀.openByKey.get? k with
  | none =>
      rw [hg] at hget
      rw [closeInto_of_none s _ hget, closeInto_of_none s₀ k hg]
      exact h
  | some r =>
      rw [hg] at hget
      rw [closeInto_of_get? s _ _ hget, closeInto_of_get? s₀ k r hg]
      exact sim_giveBack (sim_forgetId (sim_releaseSlot h hk) r) r

/-- A request that is taken goes to the same builder in both. -/
theorem sim_bind (h : Sim hf S s s₀) (r : BuilderRef κ) {t t₀ : Taken}
    (ht : t₀ = keepTaken (fun e => decide (entryServer e = S)) t) :
    Sim hf S (s.bind (BuilderRef.map f r) t) (s₀.bind r t₀) := by
  subst ht
  cases t with
  | none => exact h
  | some q =>
      exact sim_modify (sim_pending h (p := q.2) rfl) r
        (fun b => { b.add q.1 with openPos := streamPos q.1 })

/-- A stream is opened in both, each under its own index. -/
theorem sim_openSlot (h : Sim hf S s s₀) {k : StreamKey κ} (hk : k.server = S) (e : LogEntry) :
    Sim hf S (s.openSlot (f j) (StreamKey.map f k) e) (s₀.openSlot j k e) :=
  sim_setCurrent (sim_setSlot (sim_heap h (.line j) { openPos := streamPos e }) hk (.line j)) hk

/-- Whether a request waits on a thread of `S` is seen alike. -/
theorem sim_freshRequest (h : Sim hf S s s₀) (th : Option String) (u : Option User) :
    s.freshRequest S th u = s₀.freshRequest S th u := by
  unfold freshRequest
  rw [← h.pending, List.any_filter]
  refine congrArg₂ List.any rfl (funext fun r => ?_)
  cases hd : decide (entryServer r = S) <;> simp

/-- Late work finds the same closed builder, or none, in both. -/
theorem sim_rejoinLateWork (h : Sim hf S s s₀) (th : Option String) (u : Option User) (e : LogEntry) :
    (s.rejoinLateWork (S, th, u) e).1
        = (s₀.rejoinLateWork (S, th, u) e).1.map (BuilderRef.map f)
      ∧ Sim hf S (s.rejoinLateWork (S, th, u) e).2 (s₀.rejoinLateWork (S, th, u) e).2 := by
  unfold rejoinLateWork
  rw [h.get_closed th u]
  cases s₀.recentlyClosed.get? (S, th, u) with
  | none => exact ⟨rfl, h⟩
  | some v =>
      obtain ⟨r, closedAt⟩ := v
      cases e.timestamp with
      | none => exact ⟨rfl, h⟩
      | some t =>
          simp only [Option.map_some, Prod.map_apply, id_eq]
          by_cases hlate : t - closedAt > lateWorkWindow
          · rw [if_pos hlate, if_pos hlate]
            exact ⟨rfl, sim_eraseClosed h _⟩
          · rw [if_neg hlate, if_neg hlate]
            exact ⟨rfl, h⟩

/-- Both runs send a work line the same way. -/
theorem sim_workTarget (h : Sim hf S s s₀) (he : entryServer e = S)
    (hthread : ∀ p ∈ s.currentByThread.items, p.2.threadKey = p.1) :
    (s.workTarget (f j) e).1 = (s₀.workTarget j e).1.map (BuilderRef.map f)
      ∧ Sim hf S (s.workTarget (f j) e).2 (s₀.workTarget j e).2 := by
  unfold workTarget
  rw [he]
  simp only
  cases hu : e.contextUser with
  | some u =>
      -- the user is known: the slot, else a fresh request, else late work, else a new slot
      have hget := h.get_slot (k := ⟨S, e.thread, some u, none⟩) rfl
      have hkey : StreamKey.map f ⟨S, e.thread, some u, none⟩ = ⟨S, e.thread, some u, none⟩ := rfl
      rw [hkey] at hget
      simp only
      rw [hget]
      cases s₀.openByKey.get? ⟨S, e.thread, some u, none⟩ with
      | some r => exact ⟨rfl, sim_setCurrent h (k := ⟨S, e.thread, some u, none⟩) rfl⟩
      | none =>
          simp only [Option.map_none]
          rw [sim_freshRequest h]
          by_cases hfr : s₀.freshRequest S e.thread (some u) = true
          · rw [if_pos hfr, if_pos hfr]
            exact ⟨rfl, sim_openSlot h (k := ⟨S, e.thread, some u, none⟩) rfl e⟩
          · rw [if_neg hfr, if_neg hfr]
            obtain ⟨h1, h2⟩ := sim_rejoinLateWork h e.thread (some u) e
            have hck : (⟨S, e.thread, some u, none⟩ : StreamKey ι).closedKey
                = (S, e.thread, some u) := rfl
            have hck₀ : (⟨S, e.thread, some u, none⟩ : StreamKey κ).closedKey
                = (S, e.thread, some u) := rfl
            rw [hck, hck₀]
            rcases hr : s.rejoinLateWork (S, e.thread, some u) e with ⟨late, s1⟩
            rcases hr₀ : s₀.rejoinLateWork (S, e.thread, some u) e with ⟨late₀, s2⟩
            rw [hr, hr₀] at h1 h2
            have h3 : Sim hf S s1 s2 := h2
            cases late₀ with
            | some r =>
                have hlate : late = some (BuilderRef.map f r) := h1
                subst hlate
                exact ⟨rfl, sim_modify h3 r (·.add e)⟩
            | none =>
                have hlate : late = none := h1
                subst hlate
                exact ⟨rfl, sim_openSlot h3 (k := ⟨S, e.thread, some u, none⟩) rfl e⟩
  | none =>
      -- the user is not known: the current stream of the thread, else an anonymous one
      have hcur := h.get_current e.thread
      have hfresh : Sim hf S
          ((s.openSlot (f j) ⟨S, e.thread, none, some (f j)⟩ e).bind (.line (f j))
            (takeAnonymousRequest s.pendingReqs S e.thread))
          ((s₀.openSlot j ⟨S, e.thread, none, some j⟩ e).bind (.line j)
            (takeAnonymousRequest s₀.pendingReqs S e.thread)) :=
        sim_bind (sim_openSlot h (k := ⟨S, e.thread, none, some j⟩) rfl e) (.line j)
          (h.pending ▸ takeAnonymousRequest_filter s.pendingReqs e.thread)
      simp only
      rw [hcur]
      cases hk : s₀.currentByThread.get? (S, e.thread) with
      | none => exact ⟨rfl, hfresh⟩
      | some k =>
          simp only [Option.map_some, Option.bind_some]
          have hks : k.server = S := by
            rw [hk] at hcur
            have ht := hthread _ (OrderedDict.get?_eq_some.mp hcur)
            exact congrArg Prod.fst ht
          rw [h.get_slot hks]
          cases s₀.openByKey.get? k with
          | some r => exact ⟨rfl, h⟩
          | none => exact ⟨rfl, hfresh⟩

/-- A work line keeps the relation. -/
theorem sim_work (h : Sim hf S s s₀) (he : entryServer e = S)
    (hthread : ∀ p ∈ s.currentByThread.items, p.2.threadKey = p.1) :
    Sim hf S (s.work (f j) e) (s₀.work j e) := by
  obtain ⟨h1, h2⟩ := sim_workTarget (j := j) h he hthread
  unfold work
  rcases hw : s.workTarget (f j) e with ⟨t, s1⟩
  rcases hw₀ : s₀.workTarget j e with ⟨t₀, s2⟩
  rw [hw, hw₀] at h1 h2
  have h3 : Sim hf S s1 s2 := h2
  cases t₀ with
  | none =>
      have ht : t = none := h1
      subst ht
      exact h3
  | some r =>
      have ht : t = some (BuilderRef.map f r) := h1
      subst ht
      have h4 := sim_modify h3 r (·.add e)
      simp only
      rw [h4.heap r, he]
      by_cases hb : (namesUser (reqUser e)
          && !hasRequest ((s2.modify r (·.add e)).builder r)) = true
      · rw [if_pos hb, if_pos hb]
        exact sim_bind h4 r (h4.pending ▸ takeByUser_filter _ _ _)
      · rw [if_neg hb, if_neg hb]
        exact h4

/-- A body keeps it. -/
theorem sim_requestBody (h : Sim hf S s s₀) (he : entryServer e = S) :
    Sim hf S (s.requestBody (f j) e) (s₀.requestBody j e) := by
  have h1 := sim_closeInto h (k := ⟨S, e.thread, reqUser e, none⟩) rfl
  have hkey : StreamKey.map f ⟨S, e.thread, reqUser e, none⟩ = ⟨S, e.thread, reqUser e, none⟩ := rfl
  rw [hkey] at h1
  unfold requestBody
  rw [he]
  simp only
  generalize s.closeInto ⟨S, e.thread, reqUser e, none⟩ = s1 at h1 ⊢
  generalize s₀.closeInto ⟨S, e.thread, reqUser e, none⟩ = s2 at h1 ⊢
  -- both runs claim the same request
  have htaken : (takeByReqid s2.pendingReqs (entryReqid e) S).or
        (takePostRequest s2.pendingReqs S e.thread (reqUser e))
      = keepTaken (fun e => decide (entryServer e = S))
        ((takeByReqid s1.pendingReqs (entryReqid e) S).or
          (takePostRequest s1.pendingReqs S e.thread (reqUser e))) := by
    rw [keepTaken_or, ← takeByReqid_filter, ← takePostRequest_filter, h1.pending]
  rw [htaken]
  have key : ∀ (b : TxnBuilder) (rest : List LogEntry),
      Sim hf S
        { s1 with
          heap := s1.heap.set (.line (f j)) b
          pendingReqs := rest
          openByKey := s1.openByKey.set ⟨S, e.thread, reqUser e, none⟩ (.line (f j))
          currentByThread := s1.currentByThread.set (S, e.thread)
            ⟨S, e.thread, reqUser e, none⟩ }
        { s2 with
          heap := s2.heap.set (.line j) b
          pendingReqs := rest.filter (fun e => decide (entryServer e = S))
          openByKey := s2.openByKey.set ⟨S, e.thread, reqUser e, none⟩ (.line j)
          currentByThread := s2.currentByThread.set (S, e.thread)
            ⟨S, e.thread, reqUser e, none⟩ } := by
    intro b rest
    exact sim_setCurrent (sim_setSlot (sim_heap (sim_pending h1 (p := rest) rfl) (.line j) b)
      (k := ⟨S, e.thread, reqUser e, none⟩) rfl (.line j)) (k := ⟨S, e.thread, reqUser e, none⟩) rfl
  cases (takeByReqid s1.pendingReqs (entryReqid e) S).or
      (takePostRequest s1.pendingReqs S e.thread (reqUser e)) with
  | none =>
      have hk := key { entries := [e], openPos := streamPos e } s1.pendingReqs
      rw [h1.pending] at hk
      exact hk
  | some q => exact key { entries := [q.1, e], openPos := streamPos q.1 } q.2

/-- The candidates of a response are the same in both runs. -/
theorem sim_candidates (h : Sim hf S s s₀) (he : entryServer e = S) :
    (s.candidates e).1
        = (s₀.candidates e).1.map (Prod.map (StreamKey.map f) (BuilderRef.map f))
      ∧ (s.candidates e).2 = (s₀.candidates e).2 := by
  have hkeys : s.openByKey.items.filter (fun p =>
        decide (p.1.server = S) && !isIdBuilder (s.builder p.2))
      = (s₀.openByKey.items.filter (fun p =>
          decide (p.1.server = S) && !isIdBuilder (s₀.builder p.2))).map
          (Prod.map (StreamKey.map f) (BuilderRef.map f)) := by
    have hitems := congrArg OrderedDict.items h.slots
    rw [OrderedDict.items_filterKeys, OrderedDict.items_mapKV] at hitems
    have hand : s.openByKey.items.filter (fun p =>
          decide (p.1.server = S) && !isIdBuilder (s.builder p.2))
        = (s.openByKey.items.filter (fun p => decide (p.1.server = S))).filter
            (fun p => !isIdBuilder (s.builder p.2)) := by
      rw [List.filter_filter]
      refine List.filter_congr (fun p _ => ?_)
      exact Bool.and_comm _ _
    rw [hand, hitems, List.filter_map]
    congr 1
    refine List.filter_congr (fun p hp => ?_)
    have hs : p.1.server = S := h.slot_server hp
    show (!isIdBuilder (s.builder (BuilderRef.map f p.2))) = _
    rw [h.heap, hs]
    simp
  -- the run of one server has only its own requests
  have hreqs : s₀.pendingReqs.filter (fun r => decide (entryServer r = S)) = s₀.pendingReqs := by
    rw [List.filter_eq_self]
    exact fun r hr => decide_eq_true (h.pending_server hr)
  have hmap : ∀ (l : List (StreamKey κ × BuilderRef κ)) (g : TxnBuilder → Bool),
      (l.map (Prod.map (StreamKey.map f) (BuilderRef.map f))).filter (fun p => g (s.builder p.2))
        = (l.filter (fun p => g (s₀.builder p.2))).map
            (Prod.map (StreamKey.map f) (BuilderRef.map f)) := by
    intro l g
    rw [List.filter_map]
    congr 1
    refine List.filter_congr (fun p _ => ?_)
    show g (s.builder (BuilderRef.map f p.2)) = _
    rw [h.heap]
  unfold candidates
  simp only
  rw [he, hkeys, h.pending, hreqs,
    hmap _ (fun b => decide (txnUser b = e.contextUser)), List.isEmpty_map]
  split
  · simp only
    rw [hmap _ (fun b => !awaitingM3 b), List.isEmpty_map]
    split <;> exact ⟨rfl, trivial⟩
  · simp only
    rw [hmap _ (fun b => !awaitingM3 b), List.isEmpty_map]
    split <;> exact ⟨rfl, trivial⟩

/-- A response to an open stream keeps it. -/
theorem sim_answerBuilder (h : Sim hf S s s₀) {k : StreamKey κ} (hk : k.server = S) :
    Sim hf S (s.answerBuilder (StreamKey.map f k) e) (s₀.answerBuilder k e) := by
  have hget := h.get_slot hk
  cases hg : s₀.openByKey.get? k with
  | none =>
      rw [hg] at hget
      unfold answerBuilder
      rw [close_of_none s _ hget, close_of_none s₀ k hg]
      exact h
  | some r =>
      rw [hg] at hget
      rw [answerBuilder_eq e hget, answerBuilder_eq e hg]
      exact sim_rememberClosed (sim_modify (sim_closeInto h hk) r (·.add e)) hk r e

/-- A response to a waiting request keeps it: the pool loses one line, and ids come once. -/
theorem sim_answerRequest (h : Sim hf S s s₀) (he : entryServer e = S) {req : LogEntry}
    (hreq : req ∈ s₀.pendingReqs) (hids : (s.pendingReqs.map (·.id)).Nodup) :
    Sim hf S (s.answerRequest (f j) req e) (s₀.answerRequest j req e) := by
  have hmem : req ∈ s.pendingReqs ∧ entryServer req = S := by
    rw [← h.pending] at hreq
    obtain ⟨h1, h2⟩ := List.mem_filter.mp hreq
    exact ⟨h1, by simpa using h2⟩
  have hp : (s.pendingReqs.eraseP (fun r => decide (r.id = req.id))).filter
        (fun e => decide (entryServer e = S))
      = s₀.pendingReqs.eraseP (fun r => decide (r.id = req.id)) := by
    rw [filter_eraseP, h.pending]
    intro a ha hid
    have hae : a = req := List.inj_on_of_nodup_map hids ha hmem.1 (by simpa using hid)
    rw [hae]
    exact decide_eq_true hmem.2
  have h1 := sim_heap (sim_pending h hp) (.line j) { entries := [req, e], openPos := streamPos req }
  have h2 := sim_rememberClosed h1 (k := (S, req.thread, reqUser req)) rfl (.line j) e
  unfold answerRequest
  rw [he]
  exact sim_giveBack h2 (.line j)

/-- A response to nothing keeps it. -/
theorem sim_orphan (h : Sim hf S s s₀) : Sim hf S (s.orphan (f j) e) (s₀.orphan j e) :=
  sim_giveBack (sim_heap h (.line j) { entries := [e], openPos := streamPos e }) (.line j)

/-- The best candidate of both runs is the same one. -/
theorem sim_bestKey (h : Sim hf S s s₀) (he : entryServer e = S) :
    s.bestKey (s.candidates e).1
      = (s₀.bestKey (s₀.candidates e).1).map (Prod.map (StreamKey.map f) (BuilderRef.map f)) := by
  unfold bestKey
  rw [(sim_candidates h he).1]
  refine maxBy?_map _ (fun p _ q _ => ?_)
  show (rankOfBuilder (s.builder (BuilderRef.map f p.2))).gt
    (rankOfBuilder (s.builder (BuilderRef.map f q.2))) = _
  rw [h.heap, h.heap]

/-- A response keeps it. -/
theorem sim_response (h : Sim hf S s s₀) (he : entryServer e = S)
    (hids : (s.pendingReqs.map (·.id)).Nodup) :
    Sim hf S (s.response (f j) e) (s₀.response j e) := by
  obtain ⟨-, hreqs⟩ := sim_candidates h he
  have hbest := sim_bestKey h he
  have hserver : ∀ p, s₀.bestKey (s₀.candidates e).1 = some p → p.1.server = S := by
    intro p hp
    exact h.slot_server (candidates_slot (maxBy?_mem hp)).1
  have hpending : ∀ req, bestReq (s₀.candidates e).2 = some req → req ∈ s₀.pendingReqs := by
    intro req hr
    exact (candidates_request (maxBy?_mem hr)).1
  unfold response
  simp only
  -- both runs make the same choice from here on, for the candidates are those of one server
  rw [hbest, hreqs]
  cases hk : s₀.bestKey (s₀.candidates e).1 with
  | some p =>
      obtain ⟨k, r⟩ := p
      have hks : k.server = S := hserver _ hk
      cases hr : bestReq (s₀.candidates e).2 with
      | some req =>
          show Sim hf S (if (rankOfBuilder (s.builder (BuilderRef.map f r))).ge
              (rankOfRequest req) = true then _ else _) (if _ then _ else _)
          rw [h.heap]
          by_cases hge : (rankOfBuilder (s₀.builder r)).ge (rankOfRequest req) = true
          · rw [if_pos hge, if_pos hge]
            exact sim_answerBuilder h hks
          · rw [if_neg hge, if_neg hge]
            exact sim_answerRequest h he (hpending _ hr) hids
      | none => exact sim_answerBuilder h hks
  | none =>
      cases hr : bestReq (s₀.candidates e).2 with
      | some req => exact sim_answerRequest h he (hpending _ hr) hids
      | none => exact sim_orphan h

/-- Several slots of `S` are released in both, in one order. -/
theorem sim_foldl_releaseSlot (h : Sim hf S s s₀) {ks : List (StreamKey κ)}
    (hks : ∀ k ∈ ks, k.server = S) :
    Sim hf S ((ks.map (StreamKey.map f)).foldl releaseSlot s) (ks.foldl releaseSlot s₀) := by
  induction ks generalizing s s₀ with
  | nil => exact h
  | cons k ks ih =>
      exact ih (sim_releaseSlot h (hks k List.mem_cons_self))
        (fun k' hk' => hks k' (List.mem_cons_of_mem _ hk'))

/-- Every slot of a conversation is released in both runs. -/
theorem sim_closeIdBuilder {serverOf : ι → String} (h : Sim hf S s s₀)
    (hc : Confined serverOf s) (rid : String) :
    (s.closeIdBuilder S rid).1 = (s₀.closeIdBuilder S rid).1.map (BuilderRef.map f)
      ∧ Sim hf S (s.closeIdBuilder S rid).2 (s₀.closeIdBuilder S rid).2 := by
  have hget := h.get_id rid
  unfold closeIdBuilder
  cases hg : s₀.openByReqid.get? (S, rid) with
  | none =>
      rw [hg] at hget
      rw [hget]
      exact ⟨rfl, h⟩
  | some r =>
      rw [hg] at hget
      rw [hget]
      have hr : refServer serverOf (BuilderRef.map f r) = some S :=
        hc.ids _ (OrderedDict.get?_eq_some.mp hget)
      -- the slots of a builder are of its server
      have hheld : (s.openByKey.items.filter
            (fun p => decide (p.2 = BuilderRef.map f r))).map Prod.fst
          = ((s₀.openByKey.items.filter (fun p => decide (p.2 = r))).map Prod.fst).map
              (StreamKey.map f) := by
        have hitems := congrArg OrderedDict.items h.slots
        rw [OrderedDict.items_filterKeys, OrderedDict.items_mapKV] at hitems
        have hown : s.openByKey.items.filter (fun p => decide (p.2 = BuilderRef.map f r))
            = (s.openByKey.items.filter (fun p => decide (p.1.server = S))).filter
                (fun p => decide (p.2 = BuilderRef.map f r)) := by
          rw [List.filter_filter]
          refine List.filter_congr (fun p hp => ?_)
          by_cases hv : p.2 = BuilderRef.map f r
          · have hs := hc.slots p hp
            rw [hv, hr] at hs
            have hs' : p.1.server = S := (Option.some.inj hs).symm
            simp [hv, hs']
          · simp [hv]
        rw [hown, hitems, List.filter_map, List.map_map, List.map_map]
        have hcongr : (fun p : StreamKey ι × BuilderRef ι => decide (p.2 = BuilderRef.map f r))
              ∘ Prod.map (StreamKey.map f) (BuilderRef.map f)
            = fun p => decide (p.2 = r) := by
          funext p
          simp [(BuilderRef.map_injective hf).eq_iff]
        rw [hcongr]
        rfl
      refine ⟨rfl, ?_⟩
      simp only [Option.map_some]
      rw [hheld]
      refine sim_foldl_releaseSlot (sim_eraseId h (S, rid)) (fun k hk => ?_)
      obtain ⟨p, hp, rfl⟩ := List.mem_map.mp hk
      exact h.slot_server (List.mem_filter.mp hp).1

/-- A response ends its conversation, which is returned and remembered. -/
theorem sim_endStamped (h : Sim hf S s s₀) (r : BuilderRef κ) (e : LogEntry) :
    Sim hf S
      (match (((s.modify (BuilderRef.map f r) (·.add e)).giveBack
          (BuilderRef.map f r)).builder (BuilderRef.map f r)).entries.head? with
        | some head => ((s.modify (BuilderRef.map f r) (·.add e)).giveBack
            (BuilderRef.map f r)).rememberClosed (S, head.thread, head.contextUser)
            (BuilderRef.map f r) e
        | none => (s.modify (BuilderRef.map f r) (·.add e)).giveBack (BuilderRef.map f r))
      (match (((s₀.modify r (·.add e)).giveBack r).builder r).entries.head? with
        | some head => ((s₀.modify r (·.add e)).giveBack r).rememberClosed
            (S, head.thread, head.contextUser) r e
        | none => (s₀.modify r (·.add e)).giveBack r) := by
  have hgiven := sim_giveBack (sim_modify h r (·.add e)) r
  rw [hgiven.heap r]
  cases (((s₀.modify r (·.add e)).giveBack r).builder r).entries.head? with
  | none => exact hgiven
  | some head => exact sim_rememberClosed hgiven rfl r e

/-- A stamped response closes the same streams in both. -/
theorem sim_closeStamped {serverOf : ι → String} (h : Sim hf S s s₀) (hc : Confined serverOf s)
    (he : entryServer e = S) (rid : String) :
    Sim hf S (s.closeStamped (f j) e rid) (s₀.closeStamped j e rid) := by
  obtain ⟨h1, h2⟩ := sim_closeIdBuilder h hc rid
  unfold closeStamped
  rw [he]
  simp only
  rcases hs : s.closeIdBuilder S rid with ⟨t, s1⟩
  rcases hs₀ : s₀.closeIdBuilder S rid with ⟨t₀, s2⟩
  rw [hs, hs₀] at h1 h2
  have h3 : Sim hf S s1 s2 := h2
  cases t₀ with
  | some r =>
      have ht : t = some (BuilderRef.map f r) := h1
      subst ht
      exact sim_endStamped h3 r e
  | none =>
      have ht : t = none := h1
      subst ht
      exact sim_endStamped (sim_heap h3 (.line j) { openPos := streamPos e }) (.line j) e

/-- A stamped line finds or opens the same builder in both. -/
theorem sim_stampedBuilder (h : Sim hf S s s₀) (rid : String) :
    (s.stampedBuilder (f j) S rid e).1
        = BuilderRef.map f (s₀.stampedBuilder j S rid e).1
      ∧ Sim hf S (s.stampedBuilder (f j) S rid e).2 (s₀.stampedBuilder j S rid e).2 := by
  unfold stampedBuilder
  rw [h.get_id rid]
  cases s₀.openByReqid.get? (S, rid) with
  | some r => exact ⟨rfl, h⟩
  | none =>
      exact ⟨rfl, sim_setId (sim_heap h (.line j)
        { openPos := streamPos e, reqid := some rid }) rid (.line j)⟩

/-- A stream is absorbed in both. -/
theorem sim_absorb (h : Sim hf S s s₀) (r : BuilderRef κ) {k : StreamKey κ} (hk : k.server = S) :
    Sim hf S (s.absorb (BuilderRef.map f r) (StreamKey.map f k)) (s₀.absorb r k) := by
  unfold absorb
  rw [h.get_slot hk]
  cases s₀.openByKey.get? k with
  | none => exact h
  | some p =>
      simp only [Option.map_some]
      rw [h.heap p]
      have hne : decide (BuilderRef.map f p ≠ BuilderRef.map f r) = decide (p ≠ r) := by
        simp [(BuilderRef.map_injective hf).eq_iff]
      rw [hne]
      by_cases hb : (decide (p ≠ r) && headless (s₀.builder p)) = true
      · rw [if_pos hb, if_pos hb]
        exact sim_eraseSlot (sim_modify h r fun b =>
          { b with entries := b.entries ++ (s₀.builder p).entries
                   openPos := absorbedPos b.openPos (s₀.builder p).openPos }) k
      · rw [if_neg hb, if_neg hb]
        exact h

/-- A stamped line keeps the relation. -/
theorem sim_joinStamped (h : Sim hf S s s₀) (he : entryServer e = S) (rid : String) :
    Sim hf S (s.joinStamped (f j) e rid) (s₀.joinStamped j e rid) := by
  obtain ⟨h1, h2⟩ := sim_stampedBuilder (j := j) (e := e) h rid
  have h3 := sim_absorb h2 (s₀.stampedBuilder j S rid e).1 (k := stampedKey S e) rfl
  have h4 := sim_setSlot h3 (k := stampedKey S e) rfl (s₀.stampedBuilder j S rid e).1
  have h5 := sim_setCurrent h4 (k := stampedKey S e) rfl
  have h6 := sim_modify h5 (s₀.stampedBuilder j S rid e).1 (·.add e)
  rw [← h1] at h6
  unfold joinStamped
  rw [he]
  exact h6

/-- The id a line is routed by is the same in both. -/
theorem sim_routedId (h : Sim hf S s s₀) (he : entryServer e = S) :
    s.routedId e = s₀.routedId e := by
  have hkeys : ∀ rid, (S, rid) ∈ s.openByReqid.keys ↔ (S, rid) ∈ s₀.openByReqid.keys := by
    intro rid
    rw [← not_iff_not, ← OrderedDict.get?_eq_none, ← OrderedDict.get?_eq_none, h.get_id rid,
      Option.map_eq_none_iff]
  unfold routedId
  rw [he]
  split
  · rfl
  · split
    · rename_i rid _ _
      simp only [hkeys rid]
    · rfl

/-- A line of the server asks for a hash that is not there in both runs or in neither. -/
theorem sim_raises (h : Sim hf S s s₀) (he : entryServer e = S) : s.raises e = s₀.raises e := by
  have hanswered : s.answeredRequest e = s₀.answeredRequest e := by
    unfold answeredRequest
    rw [sim_bestKey h he, (sim_candidates h he).2]
    cases s₀.bestKey (s₀.candidates e).1 with
    | none => rfl
    | some p =>
      cases bestReq (s₀.candidates e).2 with
      | none => rfl
      | some req =>
        show (if (rankOfBuilder (s.builder (BuilderRef.map f p.2))).ge (rankOfRequest req) = true then _ else _) = _
        rw [h.heap]
  unfold raises
  rw [sim_routedId h he, hanswered]

/-- **A line of the server** takes the same branch in both runs. -/
theorem sim_route {serverOf : ι → String} (h : Sim hf S s s₀) (hc : Confined serverOf s)
    (he : entryServer e = S) (hids : (s.pendingReqs.map (·.id)).Nodup) :
    Sim hf S (s.route (f j) e) (s₀.route j e) := by
  unfold route
  rw [sim_routedId h he]
  cases s₀.routedId e with
  | some rid =>
      simp only
      split
      · exact sim_closeStamped h hc he rid
      · exact sim_joinStamped h he rid
  | none =>
      simp only
      cases e.entryType with
      | request =>
          refine sim_pending h ?_
          rw [List.filter_append, h.pending]
          simp [he]
      | requestBody => exact sim_requestBody h he
      | response => exact sim_response h he hids
      | miCall | miResult | sql | info | error => exact sim_work h he hc.current

end Ops

/-! ## §7. A line of another server. -/

/-- **Another server's line** does not concern the part of `S`. -/
theorem sim_of_local {serverOf : ι → String} {T : String} {s' : GroupState ι}
    (h : Sim hf S s s₀) (hl : LocalTo serverOf T s s') (hT : T ≠ S)
    (hserver : ∀ j, serverOf (f j) = S) : Sim hf S s' s₀ := by
  have hown : ∀ r : BuilderRef κ, refServer serverOf (BuilderRef.map f r) ≠ some T := by
    intro r hr
    cases r with
    | seed n => cases hr
    | line j => exact hT ((hserver j).symm.trans (Option.some.inj hr)).symm
  -- the restriction to `S` is a restriction of the restriction to what is not `T`
  have hfilter : ∀ {α β : Type} (g : α → String) (d d' : OrderedDict α β),
      d'.filterKeys (fun k => decide (g k ≠ T)) = d.filterKeys (fun k => decide (g k ≠ T)) →
      d'.filterKeys (fun k => decide (g k = S)) = d.filterKeys (fun k => decide (g k = S)) := by
    intro α β g d d' hd
    have hsub : ∀ d : OrderedDict α β, d.filterKeys (fun k => decide (g k = S))
        = (d.filterKeys (fun k => decide (g k ≠ T))).filterKeys (fun k => decide (g k = S)) := by
      intro d
      apply OrderedDict.ext_items
      rw [OrderedDict.items_filterKeys, OrderedDict.items_filterKeys, OrderedDict.items_filterKeys,
        List.filter_filter]
      refine List.filter_congr (fun p _ => ?_)
      by_cases hp : g p.1 = S
      · simp [hp, Ne.symm hT]
      · simp [hp]
    rw [hsub d', hd, ← hsub d]
  refine ⟨?_, ?_, ?_, ?_, ?_, ?_, ?_, ?_⟩
  · intro r
    rw [hl.heap _ (hown r)]
    exact h.heap r
  · rw [hfilter _ _ _ hl.slots]
    exact h.slots
  · rw [hfilter _ _ _ hl.current]
    exact h.current
  · rw [hfilter _ _ _ hl.ids]
    exact h.ids
  · rw [hfilter _ _ _ hl.closed]
    exact h.closed
  · have hsub : ∀ l : List LogEntry, l.filter (fun e => decide (entryServer e = S))
        = (l.filter (fun e => decide (entryServer e ≠ T))).filter
            (fun e => decide (entryServer e = S)) := by
      intro l
      rw [List.filter_filter]
      refine List.filter_congr (fun e _ => ?_)
      by_cases he : entryServer e = S
      · simp [he, Ne.symm hT]
      · simp [he]
    rw [hsub, hl.pending, ← hsub]
    exact h.pending
  · intro r
    rw [hl.out _ (hown r)]
    exact h.out r
  · intro e he
    rw [hl.lones]
    exact h.lones e he

end GroupState

end RagPipeline.Stage2
