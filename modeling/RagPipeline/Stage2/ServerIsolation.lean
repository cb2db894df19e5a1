/-
  RagPipeline.Stage2.ServerIsolation — one server's conversations do not depend on the others.

  The two runs are the shared pass over the lines of all the servers and the pass over the lines of
  server `S` alone.  The shared one sweeps on every server's clock, so at any moment it may have
  returned builders of `S` that the other still holds open:

    * `Lags` — the state of the second run, swept on the clock of the first, is the part of `S`;
    * `lags_step` — one line keeps that, of `S` or of another server;
    * `lags_run` — so does a run, by induction on its lines.

  What is left is the final flush.  It remembers the ids it has emitted WITHOUT their server, so the
  conversations it passes over (`passedOver`) are the whole difference: `servers_isolated_iff`.
-/
import RagPipeline.Stage2.Sweep
import RagPipeline.Stage2.Conservation
import RagPipeline.Stage2.ServerSimulation
import Mathlib.Data.Nat.Nth

namespace RagPipeline.Stage2

open RagPipeline.Lib

namespace GroupState

variable {ι κ : Type} [DecidableEq ι] [DecidableEq κ]

/-! ## §1. The sweep and the part of one server. -/

section SweptPart

variable {serverOf : ι → String} {f : κ → ι} {hf : Function.Injective f} {S : String}
  {s s' : GroupState ι} {s₀ s₀' : GroupState κ} {horizon : Instant}

theorem Swept.confined (h : Swept horizon s s') (hc : Confined serverOf s) :
    Confined serverOf s' := by
  refine ⟨?_, ?_, ?_, ?_, ?_⟩
  · intro p hp
    rw [h.slots] at hp
    exact hc.slots p (List.mem_filter.mp hp).1
  · intro p hp
    rw [h.current] at hp
    exact hc.current p (List.mem_filter.mp hp).1
  · intro p hp
    rw [h.ids] at hp
    exact hc.ids p (List.mem_filter.mp hp).1
  · intro p hp
    rw [h.closed] at hp
    exact hc.closed p hp
  · intro r e he
    rw [h.builder] at he
    exact hc.lines r e he

/-- A builder on a slot of the part is on a slot of the whole, and back. -/
theorem Sim.slot_iff (h : Sim hf S s s₀) (hc : Confined serverOf s)
    (hserver : ∀ j, serverOf (f j) = S) (r : BuilderRef κ) :
    (∃ k, (k, BuilderRef.map f r) ∈ s.openByKey.items) ↔ ∃ k, (k, r) ∈ s₀.openByKey.items := by
  have hitems := congrArg OrderedDict.items h.slots
  rw [OrderedDict.items_filterKeys, OrderedDict.items_mapKV] at hitems
  constructor
  · rintro ⟨k, hk⟩
    have hks : k.server = S := by
      have hs := hc.slots _ hk
      cases r with
      | seed n => cases hs
      | line j => exact (Option.some.inj hs).symm.trans (hserver j)
    have hm : (k, BuilderRef.map f r) ∈ s₀.openByKey.items.map
        (Prod.map (StreamKey.map f) (BuilderRef.map f)) := by
      rw [← hitems]
      exact List.mem_filter.mpr ⟨hk, decide_eq_true hks⟩
    obtain ⟨⟨k', r'⟩, hq, he⟩ := List.mem_map.mp hm
    have hr : r' = r := BuilderRef.map_injective hf (Prod.mk.inj he).2
    exact ⟨k', hr ▸ hq⟩
  · rintro ⟨k, hk⟩
    refine ⟨StreamKey.map f k, ?_⟩
    have hm : (StreamKey.map f k, BuilderRef.map f r) ∈ s₀.openByKey.items.map
        (Prod.map (StreamKey.map f) (BuilderRef.map f)) := List.mem_map.mpr ⟨_, hk, rfl⟩
    rw [← hitems] at hm
    exact (List.mem_filter.mp hm).1

/-- A builder under an id of the part is under an id of the whole, and back. -/
theorem Sim.id_iff (h : Sim hf S s s₀) (hc : Confined serverOf s)
    (hserver : ∀ j, serverOf (f j) = S) (r : BuilderRef κ) :
    (∃ k, (k, BuilderRef.map f r) ∈ s.openByReqid.items)
      ↔ ∃ k, (k, r) ∈ s₀.openByReqid.items := by
  have hitems := congrArg OrderedDict.items h.ids
  rw [OrderedDict.items_filterKeys, OrderedDict.items_mapKV] at hitems
  constructor
  · rintro ⟨k, hk⟩
    have hks : k.1 = S := by
      have hs := hc.ids _ hk
      cases r with
      | seed n => cases hs
      | line j => exact (Option.some.inj hs).symm.trans (hserver j)
    have hm : (k, BuilderRef.map f r) ∈ s₀.openByReqid.items.map
        (Prod.map id (BuilderRef.map f)) := by
      rw [← hitems]
      exact List.mem_filter.mpr ⟨hk, decide_eq_true hks⟩
    obtain ⟨⟨k', r'⟩, hq, he⟩ := List.mem_map.mp hm
    have hr : r' = r := BuilderRef.map_injective hf (Prod.mk.inj he).2
    exact ⟨k', hr ▸ hq⟩
  · rintro ⟨k, hk⟩
    refine ⟨k, ?_⟩
    have hm : (k, BuilderRef.map f r) ∈ s₀.openByReqid.items.map
        (Prod.map id (BuilderRef.map f)) := List.mem_map.mpr ⟨_, hk, rfl⟩
    rw [← hitems] at hm
    exact (List.mem_filter.mp hm).1

theorem Sim.stale (h : Sim hf S s s₀) (r : BuilderRef κ) :
    s.stale horizon (BuilderRef.map f r) = s₀.stale horizon r := by
  unfold GroupState.stale
  rw [h.heap]

theorem Sim.staleKey (h : Sim hf S s s₀) {k : StreamKey κ} (hk : k.server = S) :
    s.staleKey horizon (StreamKey.map f k) = s₀.staleKey horizon k := by
  unfold GroupState.staleKey
  rw [h.get_slot hk]
  cases s₀.openByKey.get? k with
  | none => rfl
  | some r => exact h.stale r

/-- A pending request of the server waits in both runs. -/
theorem Sim.pending_iff (h : Sim hf S s s₀) {e : LogEntry} (he : entryServer e = S) :
    e ∈ s.pendingReqs ↔ e ∈ s₀.pendingReqs := by
  rw [← h.pending, List.mem_filter]
  simp [he]

/-- **A sweep on one clock** of both keeps the part the same. -/
theorem sim_swept (h : Sim hf S s s₀) (hc : Confined serverOf s)
    (hserver : ∀ j, serverOf (f j) = S) (hs : Swept horizon s s') (hs₀ : Swept horizon s₀ s₀') :
    Sim hf S s' s₀' := by
  refine ⟨?_, ?_, ?_, ?_, ?_, ?_, ?_, ?_⟩
  · intro r
    rw [hs.builder, hs₀.builder]
    exact h.heap r
  · rw [hs.slots, hs₀.slots]
    refine OrderedDict.filterItems_of_filterKeys_eq_mapKV _ _ h.slots (fun p _ => ?_)
    rw [h.stale]
  · rw [hs.current, hs₀.current]
    refine OrderedDict.filterItems_of_filterKeys_eq_mapKV Function.injective_id _ h.current
      (fun p hp => ?_)
    -- the slot a thread of `S` points at is a slot of `S`
    have hks : p.1.1 = S := of_decide_eq_true
      (OrderedDict.key_of_filterKeys_eq_mapKV Function.injective_id _ h.current hp)
    have hm : (p.1, StreamKey.map f p.2) ∈ s.currentByThread.items := by
      have hmap : (p.1, StreamKey.map f p.2)
          ∈ (s.currentByThread.filterKeys (fun k => decide (k.1 = S))).items := by
        rw [h.current, OrderedDict.items_mapKV]
        exact List.mem_map.mpr ⟨p, hp, rfl⟩
      exact (List.mem_filter.mp hmap).1
    have hthread : (StreamKey.map f p.2).threadKey = p.1 := hc.current _ hm
    have hserv : p.2.server = S := (congrArg Prod.fst hthread).trans hks
    show (!(decide ((StreamKey.map f p.2).threadKey = p.1)
      && s.staleKey horizon (StreamKey.map f p.2))) = _
    rw [h.staleKey hserv]
    rfl
  · rw [hs.ids, hs₀.ids]
    refine OrderedDict.filterItems_of_filterKeys_eq_mapKV Function.injective_id _ h.ids
      (fun p _ => ?_)
    rw [h.stale]
  · rw [hs.closed, hs₀.closed]
    exact h.closed
  · rw [hs.pending, hs₀.pending, ← h.pending, List.filter_filter, List.filter_filter]
    exact List.filter_congr (fun r _ => Bool.and_comm _ _)
  · intro r
    rw [hs.out, hs₀.out, h.out, h.stale, h.slot_iff hc hserver, h.id_iff hc hserver]
  · intro e he
    rw [hs.lones, hs₀.lones, h.lones e he, h.pending_iff he]

/-- Two sweeps of one state on one clock count as one. -/
theorem Sim.congr {t : GroupState κ} (h : Sim hf S s s₀') (h1 : Swept horizon s₀ s₀')
    (h2 : Swept horizon s₀ t) : Sim hf S s t := by
  refine ⟨?_, ?_, ?_, ?_, ?_, ?_, ?_, ?_⟩
  · intro r
    rw [h2.builder, ← h1.builder]
    exact h.heap r
  · rw [h2.slots, ← h1.slots]
    exact h.slots
  · rw [h2.current, ← h1.current]
    exact h.current
  · rw [h2.ids, ← h1.ids]
    exact h.ids
  · rw [h2.closed, ← h1.closed]
    exact h.closed
  · rw [h2.pending, ← h1.pending]
    exact h.pending
  · intro r
    rw [h2.out, ← h1.out]
    exact h.out r
  · intro e he
    rw [h2.lones, ← h1.lones]
    exact h.lones e he

end SweptPart

/-! ## §2. The books of the lines still to come. -/

/-- The invariants of a state and of the lines it is about to read. -/
structure Booked (seen : Set (BuilderRef ι)) (s : GroupState ι) (xs : List (LogEntry × ι)) :
    Prop where
  wf : Wf seen s
  filled : s.Filled
  tags : (xs.map Prod.snd).Nodup
  fresh : ∀ p ∈ xs, BuilderRef.line p.2 ∉ seen
  ids : ((s.content + ((xs.map Prod.fst : List LogEntry) : Multiset LogEntry)).map (·.id)).Nodup

section Books

variable {seen : Set (BuilderRef ι)} {s : GroupState ι} {gap : Duration}

/-- No line is in the state twice. -/
theorem Booked.content_nodup {xs : List (LogEntry × ι)} (h : Booked seen s xs) :
    (s.content.map (·.id)).Nodup :=
  Multiset.nodup_of_le (Multiset.map_le_map (Multiset.le_add_right _ _)) h.ids

theorem Booked.pending_nodup {e : LogEntry} {i : ι} {xs : List (LogEntry × ι)}
    (h : Booked seen s ((e, i) :: xs)) : ((s.swept gap e).pendingReqs.map (·.id)).Nodup := by
  refine pending_ids_nodup ?_
  rw [content_swept]
  exact h.content_nodup

theorem Booked.step {e : LogEntry} {i : ι} {xs : List (LogEntry × ι)}
    (h : Booked seen s ((e, i) :: xs)) :
    Booked (insert (.line i) seen) (s.step gap i e) xs := by
  obtain ⟨htag, htags⟩ := List.nodup_cons.mp h.tags
  have hi : BuilderRef.line i ∉ seen := h.fresh (e, i) List.mem_cons_self
  obtain ⟨lost, hbook, -⟩ := ledger_step h.wf h.filled hi gap e h.content_nodup
  refine ⟨wf_step h.wf hi gap e, filled_step h.filled gap e, htags, ?_, ?_⟩
  · intro p hp hmem
    rcases hmem with he | hs
    · have hpi : p.2 = i := by simpa using he
      exact htag (List.mem_map.mpr ⟨p, hp, hpi⟩)
    · exact h.fresh p (List.mem_cons_of_mem _ hp) hs
  · refine Multiset.nodup_of_le (Multiset.map_le_map ?_) h.ids
    have hsplit : (((e, i) :: xs).map Prod.fst : List LogEntry)
        = ([e] : List LogEntry) ++ xs.map Prod.fst := rfl
    rw [hsplit, ← Multiset.coe_add, ← add_assoc, ← hbook]
    exact add_le_add_left (Multiset.le_add_right _ _) _

variable (gap) in
theorem Booked.run {xs : List (LogEntry × ι)} (h : Booked seen s xs) :
    ∃ seen', Booked seen' (s.run gap xs) [] := by
  induction xs generalizing seen s with
  | nil => exact ⟨seen, h⟩
  | cons x xs ih => exact ih h.step

end Books

/-! ## §3. The second run lags behind on the clock. -/

section Lag

variable {serverOf : ι → String} {f : κ → ι} {hf : Function.Injective f} {S : String}
  {s : GroupState ι} {s₀ : GroupState κ} {gap : Duration}

/-- The part of `S` is the second state, or the second state swept at a horizon no line still to
    come is behind. -/
def Lags (hf : Function.Injective f) (S : String) (gap : Duration) (xs : List (LogEntry × ι))
    (s : GroupState ι) (s₀ : GroupState κ) : Prop :=
  ∃ s₁, (s₁ = s₀ ∨ ∃ horizon, Swept horizon s₀ s₁
      ∧ ∀ p ∈ xs, ∀ now, p.1.timestamp = some now → horizon ≤ now - gap)
    ∧ Sim hf S s s₁

/-- Sweeping the part on a later clock is sweeping the second state on it. -/
theorem Lags.swept {e : LogEntry} {i : ι} {xs : List (LogEntry × ι)} {now : Instant}
    (h : Lags hf S gap ((e, i) :: xs) s s₀) (hc : Confined serverOf s)
    (hserver : ∀ j, serverOf (f j) = S) (ht : e.timestamp = some now) :
    ∃ s₁, Swept (now - gap) s₀ s₁ ∧ Sim hf S (s.swept gap e) s₁ := by
  obtain ⟨s₁, hlag, hsim⟩ := h
  have hs : Swept (now - gap) s (s.swept gap e) := by
    unfold GroupState.swept
    rw [ht]
    exact swept_evictStale gap s now
  have hs₁ := swept_evictStale gap s₁ now
  refine ⟨s₁.evictStale gap now, ?_, sim_swept hsim hc hserver hs hs₁⟩
  rcases hlag with rfl | ⟨horizon, hsw, hle⟩
  · exact hs₁
  · exact hsw.trans (hle (e, i) List.mem_cons_self now ht) hs₁

/-- A time-ordered run: every line has a time, none is earlier than the one before. -/
def TimeOrdered (es : List LogEntry) : Prop :=
  (∀ e ∈ es, e.timestamp ≠ none) ∧ es.Pairwise (fun a b => timeLe a b = true)

omit [DecidableEq ι] in
/-- The lines after one that was read at `now` come no earlier. -/
theorem TimeOrdered.later {e : LogEntry} {i : ι} {xs : List (LogEntry × ι)} {now : Instant}
    (h : TimeOrdered (((e, i) :: xs).map Prod.fst)) (ht : e.timestamp = some now) :
    ∀ p ∈ xs, ∀ later, p.1.timestamp = some later → now - gap ≤ later - gap := by
  intro p hp later hlater
  have hle := (List.pairwise_cons.mp h.2).1 p.1 (List.mem_map_of_mem hp)
  unfold timeLe at hle
  rw [ht, hlater] at hle
  have hle' : now ≤ later := by simpa using hle
  exact Int.sub_le_sub_right hle' gap

variable {seen : Set (BuilderRef ι)} {e : LogEntry} {i : ι} {xs : List (LogEntry × ι)}

variable (gap) in
/-- One line, of whatever server, keeps the servers apart. -/
theorem confined_step (hb : Booked seen s ((e, i) :: xs)) (hc : Confined serverOf s)
    (hi : serverOf i = entryServer e) :
    Confined serverOf (s.step gap i e)
      ∧ LocalTo serverOf (entryServer e) (s.swept gap e) (s.step gap i e) := by
  have hcs : Confined serverOf (s.swept gap e) := by
    unfold GroupState.swept
    cases e.timestamp with
    | none => exact hc
    | some now => exact (swept_evictStale gap s now).confined hc
  have hstep := serverStep_route hcs hi hb.pending_nodup
  exact ⟨hstep.confined, hstep.loc⟩

/-- **One line of another server**: the second run stands still. -/
theorem lags_step_other (h : Lags hf S gap ((e, i) :: xs) s s₀) (hb : Booked seen s ((e, i) :: xs))
    (hc : Confined serverOf s) (hserver : ∀ j, serverOf (f j) = S) (hi : serverOf i = entryServer e)
    (htime : TimeOrdered (((e, i) :: xs).map Prod.fst)) (hother : entryServer e ≠ S) :
    Lags hf S gap xs (s.step gap i e) s₀ := by
  obtain ⟨now, ht⟩ := Option.ne_none_iff_exists'.mp (htime.1 e List.mem_cons_self)
  obtain ⟨s₁, hsw, hsim⟩ := h.swept hc hserver ht
  have hlocal := (confined_step gap hb hc hi).2
  exact ⟨s₁, Or.inr ⟨now - gap, hsw, htime.later ht⟩, sim_of_local hsim hlocal hother hserver⟩

/-- **One line of the server**: both runs sweep on its clock and take the same branch, or raise. -/
theorem lags_step_own {j : κ} (h : Lags hf S gap ((e, f j) :: xs) s s₀)
    (hb : Booked seen s ((e, f j) :: xs)) (hc : Confined serverOf s)
    (hserver : ∀ j, serverOf (f j) = S) (htime : TimeOrdered (((e, f j) :: xs).map Prod.fst))
    (hown : entryServer e = S) :
    Lags hf S gap xs (s.step gap (f j) e) (s₀.step gap j e)
      ∧ (s.swept gap e).raises e = (s₀.swept gap e).raises e := by
  obtain ⟨now, ht⟩ := Option.ne_none_iff_exists'.mp (htime.1 e List.mem_cons_self)
  obtain ⟨s₁, hsw, hsim⟩ := h.swept hc hserver ht
  have hs₀ : Swept (now - gap) s₀ (s₀.swept gap e) := by
    unfold GroupState.swept
    rw [ht]
    exact swept_evictStale gap s₀ now
  have hcs : Confined serverOf (s.swept gap e) := by
    unfold GroupState.swept
    rw [ht]
    exact (swept_evictStale gap s now).confined hc
  have hboth := hsim.congr hsw hs₀
  exact ⟨⟨_, Or.inl rfl, sim_route hboth hcs hown hb.pending_nodup⟩, sim_raises hboth hown⟩

/-- A turn of the loop raises at a line of the server `S`. -/
def runRaisesOf (S : String) (gap : Duration) (s : GroupState ι) : List (LogEntry × ι) → Bool
  | [] => false
  | (e, i) :: rest =>
      (decide (entryServer e = S) && (s.swept gap e).raises e) || (s.step gap i e).runRaisesOf S gap rest

/-- A run raises when it does at a line of some server. -/
theorem runRaises_iff (xs : List (LogEntry × ι)) : s.runRaises gap xs = true
    ↔ ∃ T ∈ xs.map (fun p => entryServer p.1), s.runRaisesOf T gap xs = true := by
  induction xs generalizing s with
  | nil => simp [runRaises]
  | cons x xs ih =>
      obtain ⟨e, i⟩ := x
      simp only [runRaises, runRaisesOf, Bool.or_eq_true, Bool.and_eq_true, decide_eq_true_eq, ih,
        List.map_cons, List.mem_cons]
      constructor
      · rintro (h | ⟨T, hT, h⟩)
        · exact ⟨entryServer e, Or.inl rfl, Or.inl ⟨rfl, h⟩⟩
        · exact ⟨T, Or.inr hT, Or.inr h⟩
      · rintro ⟨T, hT, ⟨-, h⟩ | h⟩
        · exact Or.inl h
        · -- a server without lines in the rest raises at none of them
          refine Or.inr ⟨T, ?_, h⟩
          by_contra hno
          have hquiet : ∀ (ys : List (LogEntry × ι)) (t : GroupState ι),
              T ∉ ys.map (fun p => entryServer p.1) → t.runRaisesOf T gap ys = false := by
            intro ys
            induction ys with
            | nil => exact fun _ _ => rfl
            | cons y ys ih =>
                intro t hy
                rw [List.map_cons, List.mem_cons, not_or] at hy
                unfold runRaisesOf
                rw [decide_eq_false (fun h => hy.1 h.symm), ih _ hy.2]
                rfl
          rw [hquiet _ _ hno] at h
          cases h

variable (gap) in
/-- **A whole run** keeps the lag, and raises at the lines of the server where the second run does. -/
theorem lags_run (xs : List (LogEntry × ι)) (ys : List (LogEntry × κ))
    (hys : xs.filter (fun p => decide (entryServer p.1 = S)) = ys.map (Prod.map id f))
    (h : Lags hf S gap xs s s₀) (hb : Booked seen s xs) (hc : Confined serverOf s)
    (hserver : ∀ j, serverOf (f j) = S) (hxs : ∀ p ∈ xs, serverOf p.2 = entryServer p.1)
    (htime : TimeOrdered (xs.map Prod.fst)) :
    Lags hf S gap [] (s.run gap xs) (s₀.run gap ys) ∧ Confined serverOf (s.run gap xs)
      ∧ s.runRaisesOf S gap xs = s₀.runRaises gap ys := by
  induction xs generalizing seen s s₀ ys with
  | nil =>
      have hnil : ys = [] := List.map_eq_nil_iff.mp hys.symm
      rw [hnil]
      exact ⟨h, hc, rfl⟩
  | cons x xs ih =>
      obtain ⟨e, i⟩ := x
      have hi : serverOf i = entryServer e := hxs (e, i) List.mem_cons_self
      have hxs' : ∀ p ∈ xs, serverOf p.2 = entryServer p.1 :=
        fun p hp => hxs p (List.mem_cons_of_mem _ hp)
      have htime' : TimeOrdered (xs.map Prod.fst) :=
        ⟨fun a ha => htime.1 a (List.mem_cons_of_mem _ ha), (List.pairwise_cons.mp htime.2).2⟩
      have hc' := (confined_step gap hb hc hi).1
      -- a line of the server is a step of both runs, another server's of the joint run alone
      by_cases hown : entryServer e = S
      · rw [List.filter_cons_of_pos (by simpa using hown)] at hys
        cases ys with
        | nil => cases hys
        | cons y ys =>
            obtain ⟨e', j⟩ := y
            obtain ⟨hhead, htail⟩ := List.cons.inj hys
            obtain ⟨he, hij⟩ := Prod.mk.inj hhead
            have he' : e = e' := he
            have hij' : i = f j := hij
            subst he'
            subst hij'
            obtain ⟨hlag, hraises⟩ := lags_step_own h hb hc hserver htime hown
            obtain ⟨h1, h2, h3⟩ := ih ys htail hlag hb.step hc' hxs' htime'
            refine ⟨h1, h2, ?_⟩
            unfold runRaisesOf runRaises
            rw [h3, hraises, decide_eq_true hown, Bool.true_and]
      · rw [List.filter_cons_of_neg (by simpa using hown)] at hys
        obtain ⟨h1, h2, h3⟩ := ih ys hys (lags_step_other h hb hc hserver hi htime hown) hb.step hc' hxs' htime'
        refine ⟨h1, h2, ?_⟩
        unfold runRaisesOf
        rw [h3, decide_eq_false hown, Bool.false_and, Bool.false_or]

end Lag

/-! ## §4. What the flush hands back. -/

section Flush

variable {seen : Set (BuilderRef ι)} {s : GroupState ι}

/-- Every conversation of a state: the builders something refers to, and the lone requests. -/
def held (s : GroupState ι) : Set (List LogEntry) :=
  {g | (∃ r ∈ s.reachable, g = (s.builder r).entries)
    ∨ ∃ e, (e ∈ s.pendingReqs ∨ e ∈ s.lones) ∧ g = [e]}

/-- The conversations the flush passes over: open, not returned before, and met after another open
    one with the same stamped id. -/
def passedOver (s : GroupState ι) : Set (List LogEntry) :=
  {g | ∃ r ∈ s.flushOrder, r ∉ s.outRefs ∧ g = (s.builder r).entries
    ∧ ∃ rid, (s.builder r).reqid = some rid
      ∧ s.flushOrder.find? (fun q => decide ((s.builder q).reqid = some rid)) ≠ some r}

/-- The conversations that are handed back. -/
def handedBack (s : GroupState ι) : Set (List LogEntry) :=
  {g | ∃ x ∈ s.finish, g = (s.resolve x).entries}

theorem mem_handedBack {g : List LogEntry} :
    g ∈ s.handedBack ↔ (∃ r ∈ s.returnedRefs, g = (s.builder r).entries)
      ∨ ∃ e, (e ∈ s.pendingReqs ∨ e ∈ s.lones) ∧ g = [e] := by
  have hout : ∀ r, r ∈ s.outRefs ↔ Returned.shared r ∈ s.builders := by
    intro r
    unfold outRefs
    rw [List.mem_filterMap]
    constructor
    · rintro ⟨x, hx, he⟩
      cases x with
      | shared r' => cases he; exact hx
      | lone e => cases he
    · exact fun h => ⟨_, h, rfl⟩
  have hlone : ∀ e, e ∈ s.lones ↔ Returned.lone e ∈ s.builders := by
    intro e
    unfold lones
    rw [List.mem_filterMap]
    constructor
    · rintro ⟨x, hx, he⟩
      cases x with
      | shared r => cases he
      | lone e' => cases he; exact hx
    · exact fun h => ⟨_, h, rfl⟩
  -- what is open at the end is handed back behind what was closed on the way
  unfold handedBack finish returnedRefs
  simp only [Set.mem_ofPred_eq, List.mem_append, List.mem_map]
  constructor
  · rintro ⟨x, (hx | ⟨r, hr, rfl⟩) | ⟨e, he, rfl⟩, rfl⟩
    · cases x with
      | shared r => exact Or.inl ⟨r, Or.inl ((hout r).mpr hx), rfl⟩
      | lone e => exact Or.inr ⟨e, Or.inr ((hlone e).mpr hx), rfl⟩
    · exact Or.inl ⟨r, Or.inr hr, rfl⟩
    · exact Or.inr ⟨e, Or.inl he, rfl⟩
  · rintro (⟨r, hr | hr, rfl⟩ | ⟨e, he | he, rfl⟩)
    · exact ⟨.shared r, Or.inl (Or.inl ((hout r).mp hr)), rfl⟩
    · exact ⟨.shared r, Or.inl (Or.inr ⟨r, hr, rfl⟩), rfl⟩
    · exact ⟨.lone e, Or.inr ⟨e, he, rfl⟩, rfl⟩
    · exact ⟨.lone e, Or.inl (Or.inl ((hlone e).mp he)), rfl⟩

/-- Two builders of one state share no line. -/
theorem entries_disjoint (hids : (s.content.map (·.id)).Nodup) {r r' : BuilderRef ι}
    (hr : r ∈ s.reachable) (hr' : r' ∈ s.reachable) {e : LogEntry}
    (he : e ∈ (s.builder r).entries) (he' : e ∈ (s.builder r').entries) : r = r' := by
  by_contra hne
  have hsub : ({r, r'} : Finset (BuilderRef ι)) ⊆ s.reachable := by
    intro x hx
    rcases Finset.mem_insert.mp hx with h | h
    · exact h ▸ hr
    · exact (Finset.mem_singleton.mp h) ▸ hr'
  have hle : ((s.builder r).entries : Multiset LogEntry) + ((s.builder r').entries : Multiset LogEntry)
      ≤ s.content := by
    unfold content
    rw [add_assoc, ← Finset.sum_pair hne
      (f := fun x => ((s.builder x).entries : Multiset LogEntry))]
    exact le_trans (Finset.sum_le_sum_of_subset hsub) (Multiset.le_add_right _ _)
  have hnd := Multiset.nodup_of_le (Multiset.map_le_map hle) hids
  rw [Multiset.map_add, Multiset.nodup_add] at hnd
  exact Multiset.disjoint_left.mp hnd.2.2 (Multiset.mem_map_of_mem _ he)
    (Multiset.mem_map_of_mem _ he')

/-- A lone request is in no builder. -/
theorem entries_not_lone (hids : (s.content.map (·.id)).Nodup) {r : BuilderRef ι}
    (hr : r ∈ s.reachable) {e : LogEntry} (he : e ∈ (s.builder r).entries) :
    ¬ (e ∈ s.pendingReqs ∨ e ∈ s.lones) := by
  intro hlone
  have hle : ((s.builder r).entries : Multiset LogEntry)
      + ((s.pendingReqs : Multiset LogEntry) + (s.lones : Multiset LogEntry)) ≤ s.content := by
    unfold content
    rw [add_assoc]
    refine add_le_add_left ?_ _
    exact Finset.single_le_sum
      (f := fun x => ((s.builder x).entries : Multiset LogEntry)) (fun _ _ => Multiset.zero_le _) hr
  have hnd := Multiset.nodup_of_le (Multiset.map_le_map hle) hids
  rw [Multiset.map_add, Multiset.nodup_add] at hnd
  have hmem : e ∈ (s.pendingReqs : Multiset LogEntry) + (s.lones : Multiset LogEntry) :=
    Multiset.mem_add.mpr hlone
  exact Multiset.disjoint_left.mp hnd.2.2 (Multiset.mem_map_of_mem _ he)
    (Multiset.mem_map_of_mem _ hmem)

theorem passedOver_subset_held : s.passedOver ⊆ s.held := by
  rintro g ⟨r, hr, -, rfl, -⟩
  exact Or.inl ⟨r, mem_reachable_iff_flush.mpr (Or.inl hr), rfl⟩

/-- A builder that is reachable is handed back or passed over. -/
theorem returned_or_passed {r : BuilderRef ι} (hr : r ∈ s.reachable) :
    r ∈ s.returnedRefs ∨ (r ∈ s.flushOrder ∧ r ∉ s.outRefs
      ∧ ∃ rid, (s.builder r).reqid = some rid
        ∧ s.flushOrder.find? (fun q => decide ((s.builder q).reqid = some rid)) ≠ some r) := by
  unfold returnedRefs
  rw [List.mem_append, mem_emitted]
  by_cases ho : r ∈ s.outRefs
  · exact Or.inl (Or.inl ho)
  · have hfl := (mem_reachable_iff_flush.mp hr).resolve_right ho
    by_cases hfirst : ∀ rid, (s.builder r).reqid = some rid → rid ∉ ([] : List String)
        ∧ s.flushOrder.find? (fun q => decide ((s.builder q).reqid = some rid)) = some r
    · exact Or.inl (Or.inr ⟨hfl, hfirst⟩)
    · push Not at hfirst
      obtain ⟨rid, hrid, hne⟩ := hfirst
      exact Or.inr ⟨hfl, ho, rid, hrid, hne List.not_mem_nil⟩

theorem returnedRefs_reachable {r : BuilderRef ι} (hr : r ∈ s.returnedRefs) : r ∈ s.reachable := by
  rw [mem_reachable_iff_flush]
  rcases List.mem_append.mp hr with ho | hm
  · exact Or.inr ho
  · exact Or.inl ((mem_emitted _ _).mp hm).1

/-- A returned builder is not passed over. -/
theorem returned_not_passed {r : BuilderRef ι} (hr : r ∈ s.returnedRefs) (ho : r ∉ s.outRefs)
    {rid : String} (hrid : (s.builder r).reqid = some rid) :
    s.flushOrder.find? (fun q => decide ((s.builder q).reqid = some rid)) = some r := by
  have hm := (List.mem_append.mp hr).resolve_left ho
  exact (((mem_emitted _ _).mp hm).2 rid hrid).2

/-- **The flush hands back every conversation it does not pass over.** -/
theorem handedBack_eq (hb : Booked seen s []) : s.handedBack = s.held \ s.passedOver := by
  have hids := hb.content_nodup
  ext g
  rw [mem_handedBack, Set.mem_sdiff]
  constructor
  · rintro (⟨r, hr, rfl⟩ | ⟨e, he, rfl⟩)
    · have hreach := returnedRefs_reachable hr
      refine ⟨Or.inl ⟨r, hreach, rfl⟩, ?_⟩
      rintro ⟨r', hr', ho', heq, rid, hrid, hne⟩
      obtain ⟨e, he⟩ := List.exists_mem_of_ne_nil _ (hb.filled r (hb.wf.inHeap r hreach))
      have hrr : r = r' := entries_disjoint hids hreach
        (mem_reachable_iff_flush.mpr (Or.inl hr')) he (heq ▸ he)
      subst hrr
      exact hne (returned_not_passed hr ho' hrid)
    · refine ⟨Or.inr ⟨e, he, rfl⟩, ?_⟩
      rintro ⟨r, hr, -, heq, -⟩
      refine entries_not_lone hids (mem_reachable_iff_flush.mpr (Or.inl hr)) (e := e) ?_ he
      rw [← heq]
      exact List.mem_singleton_self e
  · rintro ⟨⟨r, hr, rfl⟩ | ⟨e, he, rfl⟩, hnot⟩
    · rcases returned_or_passed hr with h | ⟨hfl, ho, hrid⟩
      · exact Or.inl ⟨r, h, rfl⟩
      · exact absurd ⟨r, hfl, ho, rfl, hrid⟩ hnot
    · exact Or.inr ⟨e, he, rfl⟩

/-- A conversation of a booked state is not empty, and its lines are in the books. -/
theorem held_lines {xs : List (LogEntry × ι)} (hb : Booked seen s xs) {g : List LogEntry}
    (hg : g ∈ s.held) : g ≠ [] ∧ ∀ e ∈ g, e ∈ s.content := by
  have hle : (s.pendingReqs : Multiset LogEntry) + (s.lones : Multiset LogEntry) ≤ s.content := by
    unfold content
    rw [add_assoc]
    exact Multiset.le_add_left _ _
  rcases hg with ⟨r, hr, rfl⟩ | ⟨e, he, rfl⟩
  · refine ⟨hb.filled r (hb.wf.inHeap r hr), fun e he => ?_⟩
    unfold content
    rw [add_assoc]
    refine Multiset.mem_add.mpr (Or.inl ?_)
    exact Multiset.mem_of_le (Finset.single_le_sum
      (f := fun x => ((s.builder x).entries : Multiset LogEntry))
      (fun _ _ => Multiset.zero_le _) hr) he
  · refine ⟨List.cons_ne_nil _ _, fun x hx => ?_⟩
    rw [List.mem_singleton.mp hx]
    exact Multiset.mem_of_le hle (Multiset.mem_add.mpr he)

end Flush

/-! ## §5. The conversations of one server. -/

section Part

variable {serverOf : ι → String} {f : κ → ι} {hf : Function.Injective f} {S : String}
  {s : GroupState ι} {s₀ s₁ : GroupState κ}

/-- The conversations with a line of server `S`. -/
def ofServer (S : String) (gs : Set (List LogEntry)) : Set (List LogEntry) :=
  {g ∈ gs | ∃ e ∈ g, entryServer e = S}

theorem mem_ofServer {gs : Set (List LogEntry)} {g : List LogEntry} :
    g ∈ ofServer S gs ↔ g ∈ gs ∧ ∃ e ∈ g, entryServer e = S := Iff.rfl

theorem ofServer_sdiff (gs hs : Set (List LogEntry)) :
    ofServer S (gs \ hs) = ofServer S gs \ ofServer S hs := by
  ext g
  rw [mem_ofServer, Set.mem_sdiff, Set.mem_sdiff, mem_ofServer, mem_ofServer]
  constructor
  · rintro ⟨⟨hg, hnot⟩, hs⟩
    exact ⟨⟨hg, hs⟩, fun h => hnot h.1⟩
  · rintro ⟨⟨hg, hs⟩, hnot⟩
    exact ⟨⟨hg, fun h => hnot ⟨h, hs⟩⟩, hs⟩

/-- A conversation of a confined state is of one server. -/
theorem held_one_server (hc : Confined serverOf s) {g : List LogEntry} (hg : g ∈ s.held)
    {e e' : LogEntry} (he : e ∈ g) (he' : e' ∈ g) : entryServer e = entryServer e' := by
  rcases hg with ⟨r, -, rfl⟩ | ⟨x, -, rfl⟩
  · exact Option.some.inj ((hc.lines r e he).symm.trans (hc.lines r e' he'))
  · rw [List.mem_singleton.mp he, List.mem_singleton.mp he']

/-- A sweep moves conversations into the result, no more. -/
theorem Swept.held {horizon : Instant} {s s' : GroupState ι} (h : Swept horizon s s') :
    s'.held = s.held := by
  -- what leaves a slot or an id is in the result instead, so the same builders can be reached
  have hreach : ∀ r, r ∈ s'.reachable ↔ r ∈ s.reachable := by
    intro r
    rw [mem_reachable, mem_reachable, h.slots, h.ids, h.out]
    constructor
    · rintro (⟨k, hk⟩ | ⟨k, hk⟩ | ho | ⟨-, hin⟩)
      · exact Or.inl ⟨k, (List.mem_filter.mp hk).1⟩
      · exact Or.inr (Or.inl ⟨k, (List.mem_filter.mp hk).1⟩)
      · exact Or.inr (Or.inr ho)
      · exact hin.imp id Or.inl
    · cases hst : s.stale horizon r with
      | true =>
          rintro (hk | hk | ho)
          · exact Or.inr (Or.inr (Or.inr ⟨rfl, Or.inl hk⟩))
          · exact Or.inr (Or.inr (Or.inr ⟨rfl, Or.inr hk⟩))
          · exact Or.inr (Or.inr (Or.inl ho))
      | false =>
          rintro (⟨k, hk⟩ | ⟨k, hk⟩ | ho)
          · exact Or.inl ⟨k, List.mem_filter.mpr ⟨hk, by simp [hst]⟩⟩
          · exact Or.inr (Or.inl ⟨k, List.mem_filter.mpr ⟨hk, by simp [hst]⟩⟩)
          · exact Or.inr (Or.inr (Or.inl ho))
  have hlone : ∀ e, (e ∈ s'.pendingReqs ∨ e ∈ s'.lones) ↔ (e ∈ s.pendingReqs ∨ e ∈ s.lones) := by
    intro e
    rw [h.pending, h.lones, List.mem_filter]
    cases olderThan horizon e.timestamp with
    | true => simp [or_comm]
    | false => simp
  unfold GroupState.held
  ext g
  simp only [Set.mem_ofPred_eq, hreach, hlone, h.builder]

/-- **The conversations of the server** are those of the second state. -/
theorem Sim.held (h : Sim hf S s s₁) (hc : Confined serverOf s)
    (hserver : ∀ j, serverOf (f j) = S) (hall : ∀ i, serverOf i = S → ∃ j, f j = i) :
    ofServer S s.held = ofServer S s₁.held := by
  have hreach : ∀ r, BuilderRef.map f r ∈ s.reachable ↔ r ∈ s₁.reachable := by
    intro r
    rw [mem_reachable, mem_reachable, h.slot_iff hc hserver, h.id_iff hc hserver, h.out]
  ext g
  rw [mem_ofServer, mem_ofServer]
  refine and_congr_left ?_
  rintro ⟨e, he, hes⟩
  constructor
  · rintro (⟨r, hr, rfl⟩ | ⟨x, hx, rfl⟩)
    · have href := hc.lines r e he
      cases r with
      | seed n => cases href
      | line i =>
          obtain ⟨j, rfl⟩ := hall i ((Option.some.inj href).trans hes)
          exact Or.inl ⟨.line j, (hreach (.line j)).mp hr, congrArg _ (h.heap (.line j))⟩
    · have hxs : entryServer x = S := List.mem_singleton.mp he ▸ hes
      exact Or.inr ⟨x, hx.imp (h.pending_iff hxs).mp (h.lones x hxs).mp, rfl⟩
  · rintro (⟨r, hr, rfl⟩ | ⟨x, hx, rfl⟩)
    · exact Or.inl ⟨BuilderRef.map f r, (hreach r).mpr hr, congrArg _ (h.heap r).symm⟩
    · have hxs : entryServer x = S := List.mem_singleton.mp he ▸ hes
      exact Or.inr ⟨x, hx.imp (h.pending_iff hxs).mpr (h.lones x hxs).mpr, rfl⟩

theorem Lags.held {gap : Duration} {xs : List (LogEntry × ι)} (h : Lags hf S gap xs s s₀)
    (hc : Confined serverOf s) (hserver : ∀ j, serverOf (f j) = S)
    (hall : ∀ i, serverOf i = S → ∃ j, f j = i) : ofServer S s.held = ofServer S s₀.held := by
  obtain ⟨s₁, hlag, hsim⟩ := h
  rw [hsim.held hc hserver hall]
  rcases hlag with rfl | ⟨horizon, hsw, -⟩
  · rfl
  · rw [hsw.held]

end Part

end GroupState

open GroupState

/-! ## §6. The indexes of one server's lines. -/

/-- The server of the line with an index; an index past the end counts as one of `S`. -/
def lineServer (entries : List LogEntry) (S : String) (i : Nat) : String :=
  (entries[i]?.map entryServer).getD S

/-- The lines of server `S`. -/
def linesOf (S : String) (entries : List LogEntry) : List LogEntry :=
  entries.filter (fun e => decide (entryServer e = S))

/-- There are indexes of `S` without end. -/
theorem infinite_lineServer (entries : List LogEntry) (S : String) :
    (Set.ofPred (fun i => lineServer entries S i = S)).Infinite := by
  refine Set.infinite_of_injective_forall_mem (f := fun n => entries.length + n) ?_ ?_
  · intro a b h
    have h' : entries.length + a = entries.length + b := h
    omega
  · intro n
    show (entries[entries.length + n]?.map entryServer).getD S = S
    rw [List.getElem?_eq_none (by omega)]
    rfl

/-- The lines of one server, with their indexes among all lines: the `n`-th of them has the `n`-th
    index of the server. -/
theorem zipIdx_linesOf (S : String) (p : Nat → Prop) [DecidablePred p] (l : List LogEntry) (k : Nat)
    (hp : ∀ j e, l[j]? = some e → (p (k + j) ↔ entryServer e = S)) :
    (l.zipIdx k).filter (fun q => decide (entryServer q.1 = S))
      = ((linesOf S l).zipIdx (Nat.count p k)).map (Prod.map id (Nat.nth p)) := by
  induction l generalizing k with
  | nil => rfl
  | cons e l ih =>
      have hhead : p k ↔ entryServer e = S := hp 0 e rfl
      have htail := ih (k + 1) (fun j e' hj => by
        have hj' := hp (j + 1) e' hj
        rwa [Nat.add_comm j 1, ← Nat.add_assoc] at hj')
      unfold linesOf at htail ⊢
      rw [List.zipIdx_cons]
      by_cases he : entryServer e = S
      · rw [List.filter_cons_of_pos (by simpa using he), List.filter_cons_of_pos (by simpa using he),
          List.zipIdx_cons, List.map_cons, htail, Nat.count_succ_eq_succ_count (hhead.mpr he)]
        show _ = (e, Nat.nth p (Nat.count p k)) :: _
        rw [Nat.nth_count (hhead.mpr he)]
      · rw [List.filter_cons_of_neg (by simpa using he), List.filter_cons_of_neg (by simpa using he),
          htail, Nat.count_succ_eq_count (fun h => he (hhead.mp h))]

/-! ## §7. The theorem. -/

/-- The conversations a call without a seed returns, as a set; `none` when it raises. -/
def conversations (gap : Duration) (entries : List LogEntry) : Option (Set (List LogEntry)) :=
  (groupCall gap {} entries).map fun builders => {g | ∃ b ∈ builders, g = b.entries}

/-- **Server isolation**: a conversation is of one server, and those of each server are the ones it has alone. -/
def ServersIsolated (gap : Duration) (entries : List LogEntry) : Prop :=
  (∀ cs ∈ conversations gap entries, ∀ g ∈ cs, ∀ e ∈ g, ∀ e' ∈ g, entryServer e = entryServer e')
    ∧ ∀ S ∈ entries.map entryServer,
      (conversations gap entries).map (ofServer S) = conversations gap (linesOf S entries)

/-- A call without a seed raises. -/
def CallRaises (gap : Duration) (entries : List LogEntry) : Prop :=
  (seedState (ι := Nat) {}).runRaises gap (({} : Seed).unseen entries) = true

/-- A run without a seed reads every line, under its place in the list. -/
theorem unseen_empty (entries : List LogEntry) : ({} : Seed).unseen entries = entries.zipIdx := by
  unfold Seed.unseen Seed.ids
  exact List.filter_eq_self.mpr (fun _ _ => rfl)

theorem conversations_of_raises {gap : Duration} {entries : List LogEntry} (h : CallRaises gap entries) :
    conversations gap entries = none := by
  unfold CallRaises at h
  unfold conversations groupCall
  rw [if_pos h]
  rfl

theorem conversations_eq {gap : Duration} {entries : List LogEntry} (h : ¬CallRaises gap entries) :
    conversations gap entries = some (groupFinal gap {} entries).handedBack := by
  unfold CallRaises at h
  unfold conversations groupCall
  rw [if_neg h]
  refine congrArg some ?_
  unfold group groupReturned handedBack
  ext g
  simp only [Set.mem_ofPred_eq, List.mem_map]
  constructor
  · rintro ⟨b, ⟨x, hx, rfl⟩, hg⟩
    exact ⟨x, hx, hg⟩
  · rintro ⟨x, hx, hg⟩
    exact ⟨_, ⟨x, hx, rfl⟩, hg⟩

/-- The empty state, before any line. -/
theorem booked_start {entries : List LogEntry} (hids : (entries.map (·.id)).Nodup) :
    Booked (seedRefs 0) ({} : GroupState Nat) entries.zipIdx := by
  obtain ⟨hplanted, hcontent⟩ := planted_empty (ι := Nat)
  refine ⟨hplanted.wf, hplanted.filled, ?_, ?_, ?_⟩
  · rw [List.zipIdx_map_snd]
    exact List.nodup_range'
  · rintro p - ⟨m, -, he⟩
    cases he
  · rw [hcontent, zero_add, Multiset.map_coe, Multiset.coe_nodup, List.zipIdx_map_fst]
    exact hids

theorem confined_start (serverOf : Nat → String) : Confined serverOf ({} : GroupState Nat) := by
  refine ⟨?_, ?_, ?_, ?_, ?_⟩
  · exact fun p hp => by cases hp
  · exact fun p hp => by cases hp
  · exact fun p hp => by cases hp
  · exact fun p hp => by cases hp
  · exact fun r e he => by cases he

theorem sim_start {f : Nat → Nat} (hf : Function.Injective f) (S : String) :
    Sim hf S ({} : GroupState Nat) ({} : GroupState Nat) := by
  refine ⟨fun _ => rfl, rfl, rfl, rfl, rfl, rfl, ?_, fun _ _ => Iff.rfl⟩
  intro r
  exact iff_of_false List.not_mem_nil List.not_mem_nil

/-- What a run leaves: the invariants, one server to a conversation, and only lines it read; and at the lines of
    a server it raises where the pass over them alone does. -/
theorem run_part (gap : Duration) {entries : List LogEntry} (S : String)
    (htime : TimeOrdered entries) (hids : (entries.map (·.id)).Nodup) :
    (∃ seen, Booked seen (groupFinal gap {} entries) [])
      ∧ Confined (lineServer entries S) (groupFinal gap {} entries)
      ∧ ofServer S (groupFinal gap {} entries).held
          = ofServer S (groupFinal gap {} (linesOf S entries)).held
      ∧ (({} : GroupState Nat).runRaisesOf S gap entries.zipIdx = true ↔ CallRaises gap (linesOf S entries)) := by
  -- the lines of the server, in the numbering of the whole run
  have hb := booked_start hids
  have hinf := infinite_lineServer entries S
  have hf := Nat.nth_injective hinf
  have hserver : ∀ j, lineServer entries S (Nat.nth (fun i => lineServer entries S i = S) j) = S :=
    Nat.nth_mem_of_infinite hinf
  have hall : ∀ i, lineServer entries S i = S →
      ∃ j, Nat.nth (fun i => lineServer entries S i = S) j = i := by
    intro i hi
    have hmem : i ∈ Set.range (Nat.nth (fun i => lineServer entries S i = S)) := by
      rw [Nat.range_nth_of_infinite hinf]
      exact hi
    exact hmem
  have hxs : ∀ p ∈ entries.zipIdx, lineServer entries S p.2 = entryServer p.1 := by
    rintro ⟨e, i⟩ hp
    unfold lineServer
    rw [List.mk_mem_zipIdx_iff_getElem?.mp hp]
    rfl
  have hfilter := zipIdx_linesOf S (fun i => lineServer entries S i = S) entries 0
    (fun j e hj => by
      rw [Nat.zero_add]
      unfold lineServer
      rw [hj]
      rfl)
  rw [Nat.count_zero] at hfilter
  have hrun := lags_run gap entries.zipIdx (linesOf S entries).zipIdx hfilter
    ⟨_, Or.inl rfl, sim_start hf S⟩ hb (confined_start _) hserver hxs
    (by rw [List.zipIdx_map_fst]; exact htime)
  have hfinal : ∀ es : List LogEntry,
      groupFinal gap {} es = ({} : GroupState Nat).run gap es.zipIdx := by
    intro es
    unfold groupFinal
    rw [unseen_empty]
    rfl
  rw [hfinal, hfinal]
  obtain ⟨hlag, hc, hraises⟩ := hrun
  refine ⟨hb.run gap, hc, hlag.held hc hserver hall, ?_⟩
  unfold CallRaises
  rw [unseen_empty, hraises]
  rfl

/-- **The shared pass raises exactly when that of some server does.** -/
theorem callRaises_iff (gap : Duration) {entries : List LogEntry} (htime : TimeOrdered entries)
    (hids : (entries.map (·.id)).Nodup) :
    CallRaises gap entries ↔ ∃ S ∈ entries.map entryServer, CallRaises gap (linesOf S entries) := by
  have hlines : entries.zipIdx.map (fun p => entryServer p.1) = entries.map entryServer := by
    have hcomp : (fun p : LogEntry × ℕ => entryServer p.1) = entryServer ∘ Prod.fst := rfl
    rw [hcomp, ← List.map_map, List.zipIdx_map_fst]
  have hstart : CallRaises gap entries ↔ ({} : GroupState Nat).runRaises gap entries.zipIdx = true := by
    unfold CallRaises
    rw [unseen_empty]
    exact Iff.rfl
  rw [hstart, runRaises_iff, hlines]
  exact exists_congr fun S => and_congr_right fun _ => (run_part gap S htime hids).2.2.2

/-- Every conversation of the run over `S` alone is one of `S`. -/
theorem ofServer_linesOf {gap : Duration} {entries : List LogEntry} (S : String)
    (hids : (entries.map (·.id)).Nodup) :
    ofServer S (groupFinal gap {} (linesOf S entries)).held
      = (groupFinal gap {} (linesOf S entries)).held := by
  have hids' : ((linesOf S entries).map (·.id)).Nodup :=
    hids.sublist (List.filter_sublist.map _)
  have hb := booked_start hids'
  obtain ⟨hplanted, hcontent⟩ := planted_empty (ι := Nat)
  obtain ⟨⟨lost, hbook, -⟩, -, -⟩ := ledger_run gap (linesOf S entries).zipIdx hb.wf hb.filled
    hb.tags hb.fresh hb.ids
  obtain ⟨seen', hb'⟩ := hb.run gap
  have hfinal : groupFinal gap {} (linesOf S entries)
      = ({} : GroupState Nat).run gap (linesOf S entries).zipIdx := by
    unfold groupFinal
    rw [unseen_empty]
    rfl
  rw [hfinal]
  refine Set.Subset.antisymm (fun g hg => hg.1) (fun g hg => ⟨hg, ?_⟩)
  obtain ⟨hne, hlines⟩ := held_lines hb' hg
  obtain ⟨e, he⟩ := List.exists_mem_of_ne_nil g hne
  refine ⟨e, he, ?_⟩
  have hmem : e ∈ (({} : GroupState Nat).content
      + (((linesOf S entries).zipIdx.map Prod.fst : List LogEntry) : Multiset LogEntry)) := by
    rw [← hbook]
    exact Multiset.mem_add.mpr (Or.inl (hlines e he))
  rw [hcontent, zero_add, List.zipIdx_map_fst, Multiset.mem_coe] at hmem
  simpa using (List.mem_filter.mp hmem).2

/-- Two differences from one set agree when what is taken away does. -/
theorem sdiff_eq_sdiff_iff_of_subset {α : Type} {H A B : Set α} (hA : A ⊆ H) (hB : B ⊆ H) :
    H \ A = H \ B ↔ A = B := by
  constructor
  · intro h
    have hinter := congrArg (fun X => H \ X) h
    simp only [sdiff_sdiff_right_self] at hinter
    rwa [inf_eq_right.mpr hA, inf_eq_right.mpr hB] at hinter
  · intro h
    rw [h]

/-- Every pass over the lines of one server raises; or none does, and the flush of the shared pass passes over the
    conversations of each server that its own pass passes over. -/
def SameFlush (gap : Duration) (entries : List LogEntry) : Prop :=
  (∀ S ∈ entries.map entryServer, CallRaises gap (linesOf S entries))
    ∨ ∀ S ∈ entries.map entryServer, ¬CallRaises gap (linesOf S entries)
        ∧ ofServer S (groupFinal gap {} entries).passedOver
          = (groupFinal gap {} (linesOf S entries)).passedOver

/-- **Server isolation, exactly**: on the states before the flush. -/
theorem isolated_iff_sameFlush (gap : Duration) (entries : List LogEntry)
    (htime : TimeOrdered entries) (hids : (entries.map (·.id)).Nodup) :
    ServersIsolated gap entries ↔ SameFlush gap entries := by
  unfold ServersIsolated SameFlush
  by_cases hraises : CallRaises gap entries
  · -- nothing is returned, so every server has to return nothing
    obtain ⟨S, hS, hown⟩ := (callRaises_iff gap htime hids).mp hraises
    rw [conversations_of_raises hraises]
    constructor
    · rintro ⟨-, hsame⟩
      refine Or.inl fun T hT => ?_
      by_contra hT'
      have hnone := hsame T hT
      rw [conversations_eq hT'] at hnone
      cases hnone
    · rintro (hall | hnone)
      · exact ⟨fun cs hcs => absurd hcs (Option.not_mem_none cs),
          fun T hT => (conversations_of_raises (hall T hT)).symm⟩
      · exact absurd hown (hnone S hS).1
  · have hquiet : ∀ S ∈ entries.map entryServer, ¬CallRaises gap (linesOf S entries) :=
      fun S hS h => hraises ((callRaises_iff gap htime hids).mpr ⟨S, hS, h⟩)
    rw [conversations_eq hraises]
    -- a conversation of one server holds without any condition; only the flush may tell the runs apart
    have hone : ∀ cs ∈ some (groupFinal gap {} entries).handedBack, ∀ g ∈ cs, ∀ e ∈ g, ∀ e' ∈ g,
        entryServer e = entryServer e' := by
      intro cs hcs g hg e he e' he'
      obtain ⟨⟨seen, hb⟩, hc, -⟩ := run_part gap "" htime hids
      rw [← Option.mem_some_iff.mp hcs, handedBack_eq hb] at hg
      exact held_one_server hc hg.1 he he'
    have hpart : ∀ S ∈ entries.map entryServer,
        (Option.map (ofServer S) (some (groupFinal gap {} entries).handedBack)
            = conversations gap (linesOf S entries)
          ↔ ofServer S (groupFinal gap {} entries).passedOver
            = (groupFinal gap {} (linesOf S entries)).passedOver) := by
      intro S hS
      obtain ⟨⟨seen, hb⟩, -, hheld, -⟩ := run_part gap S htime hids
      have htimeS : TimeOrdered (linesOf S entries) :=
        ⟨fun e he => htime.1 e (List.mem_filter.mp he).1, htime.2.sublist List.filter_sublist⟩
      obtain ⟨⟨seen', hb'⟩, -, -⟩ := run_part gap S htimeS
        (hids.sublist (List.filter_sublist.map _))
      rw [ofServer_linesOf S hids] at hheld
      rw [conversations_eq (hquiet S hS), Option.map_some, Option.some_inj, handedBack_eq hb, handedBack_eq hb',
        ofServer_sdiff, hheld]
      -- both runs hold the same conversations, so what is handed back is equal where what is passed over is
      refine sdiff_eq_sdiff_iff_of_subset ?_ passedOver_subset_held
      rw [← hheld]
      exact fun g hg => ⟨passedOver_subset_held hg.1, hg.2⟩
    rw [and_iff_right hone, forall₂_congr hpart]
    constructor
    · exact fun h => Or.inr fun S hS => ⟨hquiet S hS, h S hS⟩
    · rintro (hall | hsame)
      · exact fun S hS => absurd (hall S hS) (hquiet S hS)
      · exact fun S hS => (hsame S hS).2

/-! ## §8. Two servers that stamp the same id. -/

/-- A request of a server, stamped `R1`. -/
private def requestOf (server : String) (id : UUID) : LogEntry :=
  { id := id
    sourceFile := server ++ "/eSmartServerLog.txt"
    timestamp := some 0
    entryType := .request
    fields := [("reqid", .str "R1")] }

/-- Two servers have a conversation `R1` open at the end of the window. -/
def sameIdOnTwoServers : List LogEntry := [requestOf "A" 1, requestOf "B" 2]

end RagPipeline.Stage2
