/-
  RagPipeline.Stage2.Conservation — which lines the grouper hands back, and how often.

  The source says what it means to do: "emit each open builder exactly once", "a builder it displaces
  from the slot stays open, reachable by its own id".  Three places do not do it:

    * the sweep and the POST body close a SLOT, and a stamped conversation may hold several of them
      (`close_id_builder`, the sibling path, releases every slot);
    * a stamped line takes its slot from whatever is there, and an old-style builder with a request of
      its own is reachable by no id;
    * the flush remembers the request ids it has emitted WITHOUT the server they belong to.

  And a POST body whose `User` is a list or an object raises, so that the whole call returns nothing.  What is
  lost stays lost and what was returned twice stays returned twice, so the conditions under which a run conserves
  its lines are exact: `conserves_iff_clean`.
-/
import Mathlib.Algebra.Order.BigOperators.Group.Finset
import Mathlib.Data.Multiset.OrderedMonoid
import RagPipeline.Stage2.GrouperBooks

namespace RagPipeline.Stage2

open RagPipeline.Lib

namespace GroupState

variable {ι : Type} [DecidableEq ι]

/-! ## §1. When one line returns no builder twice and loses none. -/

/-- The builders whose slots the sweep closes, one entry for each slot. -/
def sweptSlots (s : GroupState ι) (horizon : Instant) : List (BuilderRef ι) :=
  (s.openByKey.items.filter (fun p => s.stale horizon p.2)).map Prod.snd

/-- The idle builders hold one slot each, and none of them has been returned before. -/
def SweepsOnce (gap : Duration) (s : GroupState ι) (e : LogEntry) : Prop :=
  ∀ now, e.timestamp = some now →
    (s.sweptSlots (now - gap)).Nodup ∧ ∀ r ∈ s.sweptSlots (now - gap), r ∉ s.outRefs

/-- The builder whose slot a POST body closes has not been returned before. -/
def ClosesOnce (s : GroupState ι) (e : LogEntry) : Prop :=
  ∀ p, s.openByKey.get? ⟨entryServer e, e.thread, reqUser e, none⟩ = some p → p ∉ s.outRefs

/-- The routing of a line is clean: a stamped line does not lose what it displaces, an unstamped POST
    body does not return a builder again. -/
def CleanRoute (s : GroupState ι) (e : LogEntry) : Prop :=
  match s.routedId e with
  | some _ => e.entryType = .response ∨ s.KeepsDisplaced e
  | none => e.entryType = .requestBody → s.ClosesOnce e

/-- One turn of the loop is clean. -/
def CleanStep (gap : Duration) (s : GroupState ι) (e : LogEntry) : Prop :=
  s.SweepsOnce gap e ∧ (s.swept gap e).CleanRoute e

/-- Every turn of the loop is clean. -/
def CleanRun (gap : Duration) (s : GroupState ι) : List (LogEntry × ι) → Prop
  | [] => True
  | (e, i) :: rest => s.CleanStep gap e ∧ (s.step gap i e).CleanRun gap rest

/-- Of the open builders that share a stamped id, the one the flush meets first is the only one that
    has not been returned before. -/
def CleanFlush (s : GroupState ι) : Prop :=
  ∀ r ∈ s.flushOrder, ∀ rid, (s.builder r).reqid = some rid →
    (r ∉ s.outRefs ↔
      s.flushOrder.find? (fun q => decide ((s.builder q).reqid = some rid)) = some r)

/-! ## §2. The result after one line. -/

section Out

variable {seen : Set (BuilderRef ι)} {s : GroupState ι} {i : ι}

theorem outRefs_foldl_closeInto (ks : List (StreamKey ι)) (hks : ks.Nodup) (s : GroupState ι) :
    (ks.foldl closeInto s).outRefs
      = s.outRefs ++ ks.flatMap (fun k => (s.openByKey.get? k).toList) := by
  induction ks generalizing s with
  | nil => simp
  | cons k ks ih =>
      obtain ⟨hk, hks⟩ := List.nodup_cons.mp hks
      rw [List.foldl_cons, ih hks, closeInto_outRefs, List.flatMap_cons, List.append_assoc]
      congr 2
      refine List.flatMap_congr (fun k' hk' => ?_)
      have hne : k' ≠ k := fun he => hk (he ▸ hk')
      rw [closeInto_openByKey, OrderedDict.get?_erase_ne _ hne]

/-- The first sweep returns the idle slots' builders, in order. -/
theorem outRefs_evictSlots (s : GroupState ι) (horizon : Instant) :
    (s.evictSlots horizon).outRefs = s.outRefs ++ s.sweptSlots horizon := by
  have hnd : ((s.openByKey.items.filter (fun p => s.stale horizon p.2)).map Prod.fst).Nodup :=
    s.openByKey.nodup.sublist (List.filter_sublist.map _)
  unfold evictSlots
  rw [outRefs_foldl_closeInto _ hnd]
  congr 1
  unfold sweptSlots
  rw [List.flatMap_map, ← List.flatMap_singleton' ((List.filter _ _).map Prod.snd),
    List.flatMap_map]
  refine List.flatMap_congr (fun p hp => ?_)
  have hm : (p.1, p.2) ∈ s.openByKey.items := (List.mem_filter.mp hp).1
  rw [OrderedDict.get?_eq_some.mpr hm]
  rfl

/-- The second sweep returns nothing that was returned before. -/
theorem outNodup_foldl_popIdInto (ks : List (String × String)) (hw : Wf seen s) :
    (ks.foldl popIdInto s).outRefs.Nodup ↔ s.outRefs.Nodup := by
  induction ks generalizing s with
  | nil => exact Iff.rfl
  | cons k ks ih =>
      rw [List.foldl_cons, ih ((frame_popIdInto hw k).wf hw), popIdInto_outRefs]
      cases hk : s.openByReqid.get? k with
      | none => simp
      | some r =>
          have hnew := hw.idsOpen _ (OrderedDict.get?_eq_some.mp hk)
          rw [List.nodup_append]
          simp only [Option.toList_some, List.mem_singleton]
          constructor
          · rintro ⟨h, -, -⟩
            exact h
          · intro h
            refine ⟨h, List.nodup_singleton _, ?_⟩
            rintro a ha b rfl rfl
            exact hnew ha

theorem outNodup_swept (hw : Wf seen s) (gap : Duration) (e : LogEntry) :
    (s.swept gap e).outRefs.Nodup ↔ s.outRefs.Nodup ∧ s.SweepsOnce gap e := by
  unfold swept SweepsOnce
  cases e.timestamp with
  | none => simp
  | some now =>
      have hpop : (s.evictStale gap now).outRefs.Nodup
          ↔ (s.evictSlots (now - gap)).outRefs.Nodup := by
        unfold evictStale
        rw [outRefs_evictPending]
        exact outNodup_foldl_popIdInto _ (wf_evictSlots hw _)
      simp only [Option.some.injEq, forall_eq']
      rw [hpop, outRefs_evictSlots, List.nodup_append]
      constructor
      · rintro ⟨h1, h2, h3⟩
        exact ⟨h1, h2, fun r hr ho => h3 r ho r hr rfl⟩
      · rintro ⟨h1, h2, h3⟩
        exact ⟨h1, h2, fun a ha b hb hab => h3 b hb (hab ▸ ha)⟩

omit [DecidableEq ι] in
/-- A builder that had not been returned is appended. -/
theorem nodup_append_new {l : List (BuilderRef ι)} {r : BuilderRef ι} (h : r ∉ l) :
    (l ++ [r]).Nodup ↔ l.Nodup := by
  rw [List.nodup_append]
  constructor
  · rintro ⟨h1, -, -⟩
    exact h1
  · intro h1
    refine ⟨h1, List.nodup_singleton _, ?_⟩
    intro a ha b hb hab
    have hb' : b = r := by simpa using hb
    exact h (hb' ▸ hab ▸ ha)

omit [DecidableEq ι] in
@[simp] theorem rememberClosed_outRefs (k : ClosedKey) (r : BuilderRef ι) (e : LogEntry) :
    (s.rememberClosed k r e).outRefs = s.outRefs := by
  unfold rememberClosed
  split <;> rfl

@[simp] theorem bind_outRefs (r : BuilderRef ι) (taken : Taken) :
    (s.bind r taken).outRefs = s.outRefs := by
  unfold bind
  split <;> rfl

theorem work_outRefs (e : LogEntry) : (s.work i e).outRefs = s.outRefs := by
  have hroute := workRoute s i e
  unfold work
  generalize s.workTarget i e = w at hroute
  have htarget : w.2.outRefs = s.outRefs := by
    cases hroute with
    | own u r hu hk => rfl
    | fresh u rc hu hk hrc => rfl
    | late u r t hu hrc => rfl
    | inherited k r hu hc hk => rfl
    | anonymous hu => exact bind_outRefs _ _
  rcases w with ⟨_ | r, s'⟩
  · exact htarget
  · simp only
    split
    · rw [bind_outRefs]
      exact htarget
    · exact htarget

theorem outNodup_response (hw : Wf seen s) (hi : BuilderRef.line i ∉ seen) (e : LogEntry) :
    (s.response i e).outRefs.Nodup ↔ s.outRefs.Nodup := by
  have hline : BuilderRef.line i ∉ s.outRefs := fun h => hi (hw.known _ (reachable_of_out h))
  have hroute := responseRoute s i e
  generalize s.response i e = s' at hroute
  cases hroute with
  | builder k r hk =>
      obtain ⟨hm, -, hns⟩ := candidates_slot hk
      have hg := OrderedDict.get?_eq_some.mpr hm
      rw [answerBuilder_eq e hg, rememberClosed_outRefs]
      show (s.closeInto k).outRefs.Nodup ↔ _
      rw [closeInto_outRefs, hg]
      exact nodup_append_new (hw.slotOpen k r hm hns)
  | request req hreq =>
      unfold answerRequest
      simp only [outRefs_giveBack, rememberClosed_outRefs]
      exact nodup_append_new hline
  | orphan =>
      unfold orphan
      rw [outRefs_giveBack]
      exact nodup_append_new hline

theorem outNodup_closeStamped (hw : Wf seen s) (hi : BuilderRef.line i ∉ seen) (e : LogEntry)
    (rid : String) : (s.closeStamped i e rid).outRefs.Nodup ↔ s.outRefs.Nodup := by
  cases h : s.openByReqid.get? (entryServer e, rid) with
  | some r =>
      obtain ⟨s', hs', -, hb, -⟩ := closeIdBuilder_some h
      obtain ⟨head, -, heq⟩ := closeStamped_some i hs'
      have hout : s'.outRefs = s.outRefs := by unfold outRefs; rw [hb]
      rw [heq, rememberClosed_outRefs]
      show (s'.giveBack r).outRefs.Nodup ↔ _
      rw [outRefs_giveBack, hout]
      exact nodup_append_new (hw.idsOpen _ (OrderedDict.get?_eq_some.mp h))
  | none =>
      have hline : BuilderRef.line i ∉ s.outRefs := fun h => hi (hw.known _ (reachable_of_out h))
      rw [closeStamped_none i h, rememberClosed_outRefs, outRefs_giveBack]
      exact nodup_append_new hline

theorem joinStamped_outRefs (e : LogEntry) (rid : String) :
    (s.joinStamped i e rid).outRefs = s.outRefs := by
  have h1 : (s.stampedBuilder i (entryServer e) rid e).2.outRefs = s.outRefs := by
    unfold stampedBuilder
    split <;> rfl
  have h2 : ((s.stampedBuilder i (entryServer e) rid e).2.absorb
      (s.stampedBuilder i (entryServer e) rid e).1 (stampedKey (entryServer e) e)).outRefs
      = s.outRefs := by
    rw [← h1]
    unfold absorb
    split
    · split <;> rfl
    · rfl
  exact h2

theorem outNodup_requestBody (e : LogEntry) :
    (s.requestBody i e).outRefs.Nodup ↔ s.outRefs.Nodup ∧ s.ClosesOnce e := by
  show (s.closeInto ⟨entryServer e, e.thread, reqUser e, none⟩).outRefs.Nodup ↔ _
  rw [closeInto_outRefs]
  unfold ClosesOnce
  cases hk : s.openByKey.get? ⟨entryServer e, e.thread, reqUser e, none⟩ with
  | none => simp
  | some p =>
      simp only [Option.toList_some, Option.some.injEq, forall_eq']
      constructor
      · intro h
        obtain ⟨h1, -, h3⟩ := List.nodup_append.mp h
        exact ⟨h1, fun ho => h3 p ho p (List.mem_singleton_self p) rfl⟩
      · rintro ⟨h1, h2⟩
        exact (nodup_append_new h2).mpr h1

end Out

/-! ## §3. The ledger of one line, and of a run. -/

section Ledger

variable {seen : Set (BuilderRef ι)} {s : GroupState ι} {i : ι}

/-- The requests that wait are part of the books. -/
theorem pending_ids_nodup (h : (s.content.map (·.id)).Nodup) :
    (s.pendingReqs.map (·.id)).Nodup := by
  have hle : (s.pendingReqs : Multiset LogEntry) ≤ s.content := by
    unfold content
    rw [add_right_comm]
    exact Multiset.le_add_left _ _
  have hmap := Multiset.nodup_of_le (Multiset.map_le_map hle) h
  rw [Multiset.map_coe, Multiset.coe_nodup] at hmap
  exact hmap

/-- **The ledger of one line**: it is booked, less what is lost; and the turn is clean exactly when
    nothing is lost and nothing is returned again. -/
theorem ledger_step (hw : Wf seen s) (hf : s.Filled) (hi : BuilderRef.line i ∉ seen)
    (gap : Duration) (e : LogEntry) (hids : (s.content.map (·.id)).Nodup) :
    ∃ lost : Multiset LogEntry,
      (s.step gap i e).content + lost = s.content + ([e] : List LogEntry)
        ∧ (s.outRefs.Nodup ∧ s.CleanStep gap e
            ↔ lost = 0 ∧ (s.step gap i e).outRefs.Nodup) := by
  have hw' := wf_swept hw gap e
  have hf' : (s.swept gap e).Filled := filled_of_heap hf (swept_heap s gap e)
  have hout := outNodup_swept hw gap e
  -- the sweep changes neither the books nor what is returned twice, so the turn is its route
  rw [← content_swept s gap e] at hids ⊢
  have hpend := pending_ids_nodup hids
  unfold CleanStep
  rw [← and_assoc, ← hout]
  unfold step
  generalize s.swept gap e = s1 at *
  unfold route CleanRoute
  cases s1.routedId e with
  | some rid =>
      simp only
      by_cases hr : e.entryType = .response
      · rw [if_pos hr]
        refine ⟨0, ?_, ?_⟩
        · rw [add_zero, content_closeStamped hw' hi]
        · rw [outNodup_closeStamped hw' hi]
          simp [hr]
      · rw [if_neg hr]
        -- only a line that joins a conversation may displace work
        obtain ⟨lost, h1, h2⟩ := content_joinStamped hw' hf' hi e rid
        refine ⟨lost, h1, ?_⟩
        rw [joinStamped_outRefs, ← h2]
        simp only [hr, false_or]
        exact and_comm
  | none =>
      simp only
      cases ht : e.entryType with
      | request =>
          refine ⟨0, ?_, ?_⟩
          · rw [add_zero]
            exact content_request e
          · show s1.outRefs.Nodup ∧ _ ↔ _ ∧ s1.outRefs.Nodup
            simp
      | requestBody =>
          refine ⟨0, ?_, ?_⟩
          · rw [add_zero, content_requestBody hw' hi]
          · rw [outNodup_requestBody]
            simp
      | response =>
          refine ⟨0, ?_, ?_⟩
          · rw [add_zero, content_response hw' hi e hpend]
          · rw [outNodup_response hw' hi]
            simp
      | miCall | miResult | sql | info | error =>
          refine ⟨0, ?_, ?_⟩
          · rw [add_zero, content_work hw' hi]
          · rw [work_outRefs]
            simp

/-- **The ledger of a run.** -/
theorem ledger_run (gap : Duration) (xs : List (LogEntry × ι)) (hw : Wf seen s) (hf : s.Filled)
    (htags : (xs.map Prod.snd).Nodup) (hfresh : ∀ p ∈ xs, BuilderRef.line p.2 ∉ seen)
    (hids : ((s.content + ((xs.map Prod.fst : List LogEntry) : Multiset LogEntry)).map
      (·.id)).Nodup) :
    (∃ lost : Multiset LogEntry,
      (s.run gap xs).content + lost
          = s.content + ((xs.map Prod.fst : List LogEntry) : Multiset LogEntry)
        ∧ (s.outRefs.Nodup ∧ s.CleanRun gap xs ↔ lost = 0 ∧ (s.run gap xs).outRefs.Nodup))
      ∧ (∃ seen', Wf seen' (s.run gap xs)) ∧ (s.run gap xs).Filled := by
  induction xs generalizing seen s with
  | nil =>
      refine ⟨⟨0, rfl, ?_⟩, ⟨seen, hw⟩, hf⟩
      simp [CleanRun, run]
  | cons x xs ih =>
      obtain ⟨e, i⟩ := x
      obtain ⟨htag, htags⟩ := List.nodup_cons.mp htags
      have hi : BuilderRef.line i ∉ seen := hfresh (e, i) List.mem_cons_self
      have hsplit : (((e, i) :: xs).map Prod.fst : List LogEntry)
          = ([e] : List LogEntry) ++ xs.map Prod.fst := rfl
      rw [hsplit, ← Multiset.coe_add, ← add_assoc] at hids
      obtain ⟨lost1, hbook1, hclean1⟩ := ledger_step hw hf hi gap e
        (Multiset.nodup_of_le (Multiset.map_le_map (by
          rw [add_assoc]
          exact Multiset.le_add_right _ _)) hids)
      -- the tags are distinct, so the next lines are still new
      have hfresh' : ∀ p ∈ xs, BuilderRef.line p.2 ∉ insert (BuilderRef.line i) seen := by
        intro p hp hmem
        rcases hmem with h | h
        · have he : p.2 = i := by simpa using h
          exact htag (List.mem_map.mpr ⟨p, hp, he⟩)
        · exact hfresh p (List.mem_cons_of_mem _ hp) h
      -- nothing is booked that was not there, so the ids stay distinct
      have hids' : (((s.step gap i e).content
          + ((xs.map Prod.fst : List LogEntry) : Multiset LogEntry)).map (·.id)).Nodup := by
        refine Multiset.nodup_of_le (Multiset.map_le_map ?_) hids
        rw [← hbook1]
        exact add_le_add_left (Multiset.le_add_right _ _) _
      obtain ⟨⟨lost2, hbook2, hclean2⟩, hwf, hfill⟩ :=
        ih (wf_step hw hi gap e) (filled_step hf gap e) htags hfresh' hids'
      refine ⟨⟨lost1 + lost2, ?_, ?_⟩, hwf, hfill⟩
      · show ((s.step gap i e).run gap xs).content + (lost1 + lost2) = _
        rw [hsplit, ← Multiset.coe_add, ← add_assoc s.content, ← hbook1, add_right_comm _ lost1,
          ← hbook2]
        abel
      · show s.outRefs.Nodup ∧ s.CleanStep gap e ∧ (s.step gap i e).CleanRun gap xs ↔ _
        rw [← and_assoc, hclean1, and_assoc, hclean2, ← and_assoc]
        -- the run loses nothing when neither its first turn nor the rest does
        show (lost1 = 0 ∧ lost2 = 0) ∧ _ ↔ lost1 + lost2 = 0 ∧ _
        rw [add_eq_zero]
        rfl

end Ledger

/-! ## §4. The flush. -/

section Flush

variable {seen : Set (BuilderRef ι)} {s : GroupState ι}

/-- What the flush emits: every unstamped builder, and the first one met of each id. -/
theorem mem_emitted {r : BuilderRef ι} (l : List (BuilderRef ι)) (ids : List String) :
    r ∈ s.emitted ids l ↔ r ∈ l ∧ ∀ rid, (s.builder r).reqid = some rid →
      rid ∉ ids ∧ l.find? (fun q => decide ((s.builder q).reqid = some rid)) = some r := by
  induction l generalizing ids with
  | nil => simp [emitted]
  | cons q l ih =>
      -- the ids met so far grow along the list, so the induction is for any of them
      unfold emitted
      cases hq : (s.builder q).reqid with
      | none =>
          simp only [List.mem_cons, ih]
          by_cases hrq : r = q
          · subst hrq
            simp [hq]
          · simp [hrq, hq]
      | some rid =>
          simp only
          split
          · -- the id was met, so this builder is passed over
            rename_i hin
            rw [ih, List.mem_cons]
            by_cases hrq : r = q
            · subst hrq
              simp only [hq, Option.some.injEq, forall_eq', true_or, true_and]
              constructor
              · rintro ⟨-, hnot, -⟩
                exact absurd hin hnot
              · rintro ⟨hnot, -⟩
                exact absurd hin hnot
            · simp only [hrq, false_or, List.find?_cons, hq]
              refine and_congr_right (fun _ => forall₂_congr (fun rid' hr => ?_))
              by_cases he : rid = rid'
              · subst he
                simp [hin]
              · simp [he]
          · -- the first builder of its id
            rename_i hnot
            rw [List.mem_cons, ih, List.mem_cons]
            by_cases hrq : r = q
            · subst hrq
              simp [hq, hnot]
            · simp only [hrq, false_or, List.find?_cons, hq]
              refine and_congr_right (fun _ => forall₂_congr (fun rid' hr => ?_))
              by_cases he : rid = rid'
              · subst he
                simp [Ne.symm hrq]
              · simp [he, Ne.symm he]

/-- The flush emits nothing twice, when it does not meet an unstamped builder twice. -/
theorem emitted_nodup (l : List (BuilderRef ι)) (ids : List String)
    (h : l.Pairwise (fun a b => a = b → s.Stamped a)) : (s.emitted ids l).Nodup := by
  induction l generalizing ids with
  | nil => simp [emitted]
  | cons q l ih =>
      obtain ⟨h1, h2⟩ := List.pairwise_cons.mp h
      unfold emitted
      cases hq : (s.builder q).reqid with
      | none =>
          refine List.nodup_cons.mpr ⟨fun hm => ?_, ih ids h2⟩
          have hst := h1 q ((mem_emitted l ids).mp hm).1 rfl
          simp [Stamped, isIdBuilder, hq] at hst
      | some rid =>
          simp only
          split
          · exact ih ids h2
          · refine List.nodup_cons.mpr ⟨fun hm => ?_, ih _ h2⟩
            exact (((mem_emitted l _).mp hm).2 rid hq).1 List.mem_cons_self

/-- The flush meets an unstamped builder once. -/
theorem flushOrder_pairwise (hw : Wf seen s) :
    s.flushOrder.Pairwise (fun a b => a = b → s.Stamped a) := by
  have hids : ∀ r ∈ s.openByReqid.values, s.Stamped r := by
    intro r hr
    obtain ⟨k, hk⟩ := OrderedDict.mem_values.mp hr
    exact hw.idsStamped _ hk
  unfold flushOrder
  rw [List.pairwise_append]
  refine ⟨?_, ?_, ?_⟩
  · unfold OrderedDict.values
    rw [List.pairwise_map]
    have hk : s.openByKey.items.Pairwise (fun p q => p.1 ≠ q.1) :=
      List.pairwise_map.mp s.openByKey.nodup
    refine List.Pairwise.imp_of_mem ?_ hk
    intro p q hp hq hne he
    by_contra hns
    have hq' : (q.1, p.2) ∈ s.openByKey.items := by rw [he]; exact hq
    exact hne (hw.oneSlot p.1 q.1 p.2 hp hq' hns)
  · exact List.Pairwise.imp_of_mem (fun ha _ _ _ => hids _ ha)
      (List.pairwise_iff_forall_sublist.mpr (fun _ => trivial) :
        s.openByReqid.values.Pairwise (fun _ _ => True))
  · intro a _ b hb he
    exact he ▸ hids b hb

/-- The builders behind the result, in the order they are handed back. -/
def returnedRefs (s : GroupState ι) : List (BuilderRef ι) :=
  s.outRefs ++ s.emitted [] s.flushOrder

omit [DecidableEq ι] in
theorem mem_flushOrder {r : BuilderRef ι} :
    r ∈ s.flushOrder ↔ (∃ k, (k, r) ∈ s.openByKey.items) ∨ (∃ k, (k, r) ∈ s.openByReqid.items) := by
  unfold flushOrder
  rw [List.mem_append, OrderedDict.mem_values, OrderedDict.mem_values]

theorem mem_reachable_iff_flush {r : BuilderRef ι} :
    r ∈ s.reachable ↔ r ∈ s.flushOrder ∨ r ∈ s.outRefs := by
  rw [mem_reachable, mem_flushOrder, or_assoc]

/-- **When the flush is clean**: nothing is handed back twice, and nothing is left behind. -/
theorem cleanFlush_iff (hw : Wf seen s) (hn : s.outRefs.Nodup) :
    s.CleanFlush ↔ s.returnedRefs.Nodup ∧ ∀ r ∈ s.reachable, r ∈ s.returnedRefs := by
  have hemit := emitted_nodup s.flushOrder [] (flushOrder_pairwise hw)
  -- an unstamped builder that is open was never returned
  have hunst : ∀ r ∈ s.flushOrder, (s.builder r).reqid = none → r ∉ s.outRefs := by
    intro r hr hnone
    have hns : ¬ s.Stamped r := by simp [Stamped, isIdBuilder, hnone]
    rcases mem_flushOrder.mp hr with ⟨k, hk⟩ | ⟨k, hk⟩
    · exact hw.slotOpen k r hk hns
    · exact absurd (hw.idsStamped _ hk) hns
  unfold CleanFlush returnedRefs
  rw [List.nodup_append]
  constructor
  · intro h
    refine ⟨⟨hn, hemit, ?_⟩, ?_⟩
    · intro a ha b hb hab
      obtain ⟨hm, hfirst⟩ := (mem_emitted _ _).mp hb
      subst hab
      cases hq : (s.builder a).reqid with
      | none => exact hunst a hm hq ha
      | some rid => exact (h a hm rid hq).mpr (hfirst rid hq).2 ha
    · intro r hr
      rw [List.mem_append]
      rcases mem_reachable_iff_flush.mp hr with hf | ho
      · by_cases ho : r ∈ s.outRefs
        · exact Or.inl ho
        · refine Or.inr ((mem_emitted _ _).mpr ⟨hf, fun rid hq => ⟨by simp, ?_⟩⟩)
          exact (h r hf rid hq).mp ho
      · exact Or.inl ho
  · rintro ⟨⟨-, -, hdis⟩, hall⟩ r hr rid hq
    constructor
    · intro ho
      rcases List.mem_append.mp (hall r (mem_reachable_iff_flush.mpr (Or.inl hr))) with h | h
      · exact absurd h ho
      · exact (((mem_emitted _ _).mp h).2 rid hq).2
    · intro hfirst ho
      have hm : r ∈ s.emitted [] s.flushOrder := by
        refine (mem_emitted _ _).mpr ⟨hr, fun rid' hq' => ⟨by simp, ?_⟩⟩
        rw [hq] at hq'
        cases hq'
        exact hfirst
      exact hdis r ho r hm rfl

/-- The lines of the result, as the source returns it. -/
def returnedLines (s : GroupState ι) : List LogEntry :=
  s.finish.flatMap (fun x => (s.resolve x).entries)

theorem returnedLines_eq (s : GroupState ι) :
    (s.returnedLines : Multiset LogEntry)
      = ((s.returnedRefs.flatMap (fun r => (s.builder r).entries) : List LogEntry) :
          Multiset LogEntry) + (s.pendingReqs : Multiset LogEntry)
        + (s.lones : Multiset LogEntry) := by
  -- a result is a builder or a line of its own
  have hbuilders : ∀ bs : List (Returned ι),
      ((bs.flatMap (fun x => (s.resolve x).entries) : List LogEntry) : Multiset LogEntry)
        = (((bs.filterMap Returned.ref?).flatMap (fun r => (s.builder r).entries) :
            List LogEntry) : Multiset LogEntry)
          + ((bs.filterMap Returned.line? : List LogEntry) : Multiset LogEntry) := by
    intro bs
    induction bs with
    | nil => rfl
    | cons b bs ih =>
        rw [List.flatMap_cons, ← Multiset.coe_add, ih]
        cases b with
        | shared r =>
            have h1 : (Returned.shared r :: bs).filterMap Returned.ref?
                = r :: bs.filterMap Returned.ref? := rfl
            have h2 : (Returned.shared r :: bs).filterMap Returned.line?
                = bs.filterMap Returned.line? := rfl
            rw [h1, h2, List.flatMap_cons, ← Multiset.coe_add, add_assoc]
            rfl
        | lone e =>
            have h1 : (Returned.lone e :: bs).filterMap Returned.ref?
                = bs.filterMap Returned.ref? := rfl
            have h2 : (Returned.lone e :: bs).filterMap Returned.line?
                = [e] ++ bs.filterMap Returned.line? := rfl
            rw [h1, h2, ← Multiset.coe_add, add_left_comm]
            rfl
  unfold returnedLines finish
  rw [hbuilders, List.filterMap_append, List.filterMap_append, List.filterMap_append,
    List.filterMap_append, List.filterMap_map, List.filterMap_map, List.filterMap_map,
    List.filterMap_map]
  have h1 : Returned.ref? ∘ (Returned.shared : BuilderRef ι → _) = some := rfl
  have h2 : (Returned.ref? : Returned ι → _) ∘ Returned.lone = fun _ => none := rfl
  have h3 : (Returned.line? : Returned ι → _) ∘ Returned.shared = fun _ => none := rfl
  have h4 : (Returned.line? : Returned ι → _) ∘ Returned.lone = some := rfl
  rw [h1, h2, h3, h4, List.filterMap_some, List.filterMap_some]
  have hnil : ∀ {α β : Type} (l : List α), l.filterMap (fun _ => (none : Option β)) = [] := by
    intro α β l
    simp
  rw [hnil, hnil, List.append_nil, List.append_nil]
  unfold returnedRefs lones outRefs
  rw [← Multiset.coe_add (List.filterMap Returned.line? _)]
  abel

/-- What the flush leaves behind makes up the difference between the books and the result. -/
theorem content_eq_returned (hn : s.returnedRefs.Nodup) :
    s.content = (s.returnedLines : Multiset LogEntry)
      + ∑ r ∈ s.reachable \ s.returnedRefs.toFinset,
          ((s.builder r).entries : Multiset LogEntry) := by
  have hsub : s.returnedRefs.toFinset ⊆ s.reachable := by
    intro r hr
    rw [List.mem_toFinset] at hr
    rw [mem_reachable_iff_flush]
    rcases List.mem_append.mp hr with h | h
    · exact Or.inr h
    · exact Or.inl ((mem_emitted _ _).mp h).1
  have hsum : ((s.returnedRefs.flatMap (fun r => (s.builder r).entries) : List LogEntry) :
      Multiset LogEntry)
      = ∑ r ∈ s.returnedRefs.toFinset, ((s.builder r).entries : Multiset LogEntry) := by
    rw [List.sum_toFinset _ hn]
    generalize s.returnedRefs = l
    induction l with
    | nil => rfl
    | cons r l ih =>
        rw [List.flatMap_cons, ← Multiset.coe_add, ih, List.map_cons, List.sum_cons]
  rw [returnedLines_eq, hsum]
  unfold content
  rw [← Finset.sum_sdiff hsub]
  abel

/-- **The ledger of the flush.** -/
theorem ledger_finish (hw : Wf seen s) (hf : s.Filled) {lost inputs : Multiset LogEntry}
    (hbook : s.content + lost = inputs) :
    (s.returnedLines : Multiset LogEntry) = inputs ∧ s.returnedRefs.Nodup
      ↔ lost = 0 ∧ s.outRefs.Nodup ∧ s.CleanFlush := by
  constructor
  · rintro ⟨hl, hn⟩
    have hn' : s.outRefs.Nodup := (List.nodup_append.mp hn).1
    -- nothing is left behind, since the result has everything
    have hzero : ∑ r ∈ s.reachable \ s.returnedRefs.toFinset,
        ((s.builder r).entries : Multiset LogEntry) + lost = 0 := by
      rw [content_eq_returned hn, hl, add_assoc] at hbook
      exact add_eq_left.mp hbook
    obtain ⟨hsum, hlost⟩ := add_eq_zero.mp hzero
    refine ⟨hlost, hn', (cleanFlush_iff hw hn').mpr ⟨hn, ?_⟩⟩
    intro r hr
    by_contra hnot
    have hmem : r ∈ s.reachable \ s.returnedRefs.toFinset := by
      rw [Finset.mem_sdiff, List.mem_toFinset]
      exact ⟨hr, hnot⟩
    have hempty := (Finset.sum_eq_zero_iff.mp hsum) r hmem
    exact hf r (hw.inHeap r hr) (by simpa using hempty)
  · rintro ⟨hlost, hn', hflush⟩
    obtain ⟨hn, hall⟩ := (cleanFlush_iff hw hn').mp hflush
    refine ⟨?_, hn⟩
    have hnone : s.reachable \ s.returnedRefs.toFinset = ∅ := by
      rw [Finset.sdiff_eq_empty_iff_subset]
      intro r hr
      rw [List.mem_toFinset]
      exact hall r hr
    rw [← hbook, content_eq_returned hn, hnone, hlost, Finset.sum_empty, add_zero, add_zero]

end Flush

/-! ## §5. The seeded state. -/

section Seeded

/-- The references of the first `n` seeded streams. -/
def seedRefs (n : Nat) : Set (BuilderRef ι) := {r | ∃ m, m < n ∧ r = .seed m}

omit [DecidableEq ι] in
theorem seedRefs_succ (n : Nat) :
    insert (BuilderRef.seed n) (seedRefs (ι := ι) n) ⊆ seedRefs (n + 1) := by
  rintro r (h | ⟨m, hm, h⟩)
  · exact ⟨n, Nat.lt_succ_self n, h⟩
  · exact ⟨m, Nat.lt_succ_of_lt hm, h⟩

/-- A state that seeded streams make: every builder is in a slot, and nothing has been returned. -/
structure Planted (n : Nat) (s : GroupState ι) : Prop where
  wf : Wf (seedRefs n) s
  filled : s.Filled
  slots : ∀ r ∈ s.reachable, ∃ k, (k, r) ∈ s.openByKey.items
  noOut : s.outRefs = []

theorem planted_empty : Planted 0 ({} : GroupState ι) ∧ ({} : GroupState ι).content = 0 := by
  have hnone : ∀ r, r ∉ ({} : GroupState ι).reachable := by
    intro r h
    rcases mem_reachable.mp h with ⟨k, hk⟩ | ⟨k, hk⟩ | ho
    · cases hk
    · cases hk
    · cases ho
  refine ⟨⟨⟨?_, ?_, ?_, ?_, ?_, ?_, ?_, ?_, ?_⟩, ?_, ?_, rfl⟩, ?_⟩
  · exact fun r hr => absurd hr (hnone r)
  · exact fun r hr => absurd hr (hnone r)
  · exact fun p hp => by cases hp
  · exact fun k k' r hk => by cases hk
  · exact fun p hp => by cases hp
  · exact fun p hp => by cases hp
  · exact fun k k' r hk => by cases hk
  · exact fun k r hk => by cases hk
  · exact fun p hp => by cases hp
  · exact fun r hr => by cases hr
  · exact fun r hr => absurd hr (hnone r)
  · unfold content
    rw [Finset.eq_empty_of_forall_notMem hnone]
    rfl

/-- A seeded stream with lines is put back. -/
theorem plant_eq (n : Nat) (s : GroupState ι) {st : SeedStream} (hne : st.entries ≠ []) :
    s.plant n st = { s with
      heap := s.heap.set (.seed n)
        { entries := st.entries, openPos := st.openPos, reqid := stampedReqidOf st.entries }
      openByKey := s.openByKey.set st.key (.seed n)
      currentByThread :=
        if st.isCurrent then s.currentByThread.set (st.server, st.thread) st.key
        else s.currentByThread
      openByReqid := match stampedReqidOf st.entries with
        | some rid => s.openByReqid.set (st.server, rid) (.seed n)
        | none => s.openByReqid } := by
  unfold plant
  exact if_neg (by simpa using hne)

omit [DecidableEq ι] in
/-- The next reference is new. -/
theorem seed_not_mem_seedRefs (n : Nat) : BuilderRef.seed n ∉ seedRefs (ι := ι) n := by
  rintro ⟨m, hm, he⟩
  have he' : n = m := by simpa using he
  omega

/-- One seeded stream keeps the invariant, whatever the others are. -/
theorem wf_plant {n : Nat} {s : GroupState ι} (hw : Wf (seedRefs n) s) (st : SeedStream) :
    Wf (seedRefs (n + 1)) (s.plant n st) := by
  suffices hins : Wf (insert (.seed n) (seedRefs n)) (s.plant n st) from
    hins.mono (seedRefs_succ n)
  by_cases hne : st.entries = []
  · have hskip : s.plant n st = s := by
      unfold plant
      exact if_pos (by simpa using hne)
    rw [hskip]
    exact hw.mono (Set.subset_insert _ _)
  obtain ⟨hw1, hh, hr1⟩ := wf_alloc hw (seed_not_mem_seedRefs n)
    { entries := st.entries, openPos := st.openPos, reqid := stampedReqidOf st.entries }
  rw [plant_eq n s hne]
  -- a stamped stream is put back under its id first, and then on its slot
  cases hrid : stampedReqidOf st.entries with
  | none =>
      rw [hrid] at hw1 hh hr1
      exact wf_setSlot hw1 st.key (Set.mem_insert _ _) hh (Or.inr hr1)
        (fun j hj => by cases hj) _
  | some rid =>
      rw [hrid] at hw1 hh hr1
      have hst : GroupState.Stamped { s with
          heap := s.heap.set (.seed n)
            { entries := st.entries, openPos := st.openPos, reqid := some rid } }
            (.seed n) := by
        unfold Stamped builder
        rw [OrderedDict.get?_set_self]
        rfl
      have hw2 := wf_register hw1 (st.server, rid) (Set.mem_insert _ _) hh hr1 hst
      exact wf_setSlot hw2 st.key (Set.mem_insert _ _) hh (Or.inl hst)
        (fun j hj => by cases hj) _

/-- **One seeded stream** is put back: its lines are booked. -/
theorem planted_plant {n : Nat} {s : GroupState ι} (h : Planted n s) {st : SeedStream}
    (hne : st.entries ≠ []) (hk : st.key ∉ s.openByKey.keys) :
    Planted (n + 1) (s.plant n st)
      ∧ (s.plant n st).content = s.content + (st.entries : Multiset LogEntry)
      ∧ (∀ k ∈ (s.plant n st).openByKey.keys, k = st.key ∨ k ∈ s.openByKey.keys)
      ∧ (s.plant n st).pendingReqs = s.pendingReqs := by
  have hseed := seed_not_mem_seedRefs (ι := ι) n
  have hnew : BuilderRef.seed n ∉ s.reachable := fun hr => hseed (h.wf.known _ hr)
  have hne' : ∀ x ∈ s.reachable, x ≠ .seed n := fun x hx he => hnew (he ▸ hx)
  have hplant := plant_eq n s hne
  have hitems : (s.plant n st).openByKey.items = s.openByKey.items ++ [(st.key, .seed n)] := by
    rw [hplant]
    exact OrderedDict.items_set_of_not_mem _ _ hk
  have hidItems : ∀ p ∈ (s.plant n st).openByReqid.items, p.2 = .seed n ∨ p ∈ s.openByReqid.items := by
    intro p hp
    rw [hplant] at hp
    revert hp
    cases stampedReqidOf st.entries with
    | none => exact fun hp => Or.inr hp
    | some rid =>
        intro hp
        rcases OrderedDict.mem_set.mp hp with ⟨-, hv⟩ | ⟨-, hm⟩
        · exact Or.inl hv
        · exact Or.inr hm
  have hout : (s.plant n st).outRefs = [] := by rw [hplant]; exact h.noOut
  -- every builder stands behind a slot: an id only adds a second way to it
  have hslots : ∀ r ∈ (s.plant n st).reachable,
      r = .seed n ∨ ∃ k, (k, r) ∈ s.openByKey.items := by
    intro r hr
    rcases mem_reachable.mp hr with ⟨k, hm⟩ | ⟨k, hm⟩ | ho
    · rw [hitems] at hm
      rcases List.mem_append.mp hm with hm | hm
      · exact Or.inr ⟨k, hm⟩
      · have he : (k, r) = (st.key, .seed n) := by simpa using hm
        exact Or.inl (Prod.mk.inj he).2
    · rcases hidItems _ hm with he | hm
      · exact Or.inl he
      · exact Or.inr (h.slots r (reachable_of_id hm))
    · rw [hout] at ho
      cases ho
  have hreach : (s.plant n st).reachable = insert (.seed n) s.reachable := by
    ext r
    rw [Finset.mem_insert]
    constructor
    · intro hr
      rcases hslots r hr with he | ⟨k, hm⟩
      · exact Or.inl he
      · exact Or.inr (reachable_of_slot hm)
    · rintro (he | hr)
      · refine reachable_of_slot (k := st.key) ?_
        rw [hitems, he]
        exact List.mem_append_right _ (List.mem_singleton_self _)
      · obtain ⟨k, hm⟩ := h.slots r hr
        refine reachable_of_slot (k := k) ?_
        rw [hitems]
        exact List.mem_append_left _ hm
  -- one builder is written, and it is the new one
  have hbuild : ∀ r, (s.plant n st).builder r = if r = .seed n then
      { entries := st.entries, openPos := st.openPos, reqid := stampedReqidOf st.entries }
      else s.builder r := by
    intro r
    rw [hplant]
    exact getD_set _ _ _ _
  refine ⟨⟨wf_plant h.wf st, ?_, ?_, hout⟩, ?_, ?_, ?_⟩
  · exact filled_write (s := s) (h.filled.but (.seed n)) (by rw [hplant]) (by exact hne)
  · intro r hr
    rcases hslots r hr with he | ⟨k, hm⟩
    · refine ⟨st.key, ?_⟩
      rw [hitems, he]
      exact List.mem_append_right _ (List.mem_singleton_self _)
    · refine ⟨k, ?_⟩
      rw [hitems]
      exact List.mem_append_left _ hm
  · have hbooks := content_insert hreach hnew (fun x hx => by rw [hbuild, if_neg (hne' x hx)])
      (by rw [hplant]; rfl)
    rw [hbuild, if_pos rfl] at hbooks
    refine add_right_cancel (hbooks.trans ?_)
    rw [hplant]
  · intro k hmem
    unfold OrderedDict.keys at hmem
    rw [hitems, List.map_append, List.mem_append] at hmem
    rcases hmem with hm | hm
    · exact Or.inr hm
    · exact Or.inl (by simpa using hm)
  · rw [hplant]

/-- All the streams of a seed. -/
theorem planted_foldl (sts : List SeedStream) (n : Nat) {s : GroupState ι} (h : Planted n s)
    (hne : ∀ st ∈ sts, st.entries ≠ []) (hkeys : (sts.map (SeedStream.key (ι := ι))).Nodup)
    (hfree : ∀ st ∈ sts, st.key ∉ s.openByKey.keys) :
    Planted (n + sts.length) ((sts.zipIdx n).foldl (fun s p => s.plant p.2 p.1) s)
      ∧ ((sts.zipIdx n).foldl (fun s p => s.plant p.2 p.1) s).content
          = s.content + ((sts.flatMap (·.entries) : List LogEntry) : Multiset LogEntry)
      ∧ ((sts.zipIdx n).foldl (fun s p => s.plant p.2 p.1) s).pendingReqs = s.pendingReqs := by
  induction sts generalizing n s with
  | nil => exact ⟨h, (add_zero _).symm, rfl⟩
  | cons st sts ih =>
      obtain ⟨hk, hkeys⟩ := List.nodup_cons.mp hkeys
      obtain ⟨h1, h2, h3, h4⟩ := planted_plant h (hne st List.mem_cons_self)
        (hfree st List.mem_cons_self)
      have hfree' : ∀ st' ∈ sts, st'.key ∉ (s.plant n st).openByKey.keys := by
        intro st' hst' hmem
        rcases h3 _ hmem with he | hm
        · exact hk (he ▸ List.mem_map_of_mem hst')
        · exact hfree st' (List.mem_cons_of_mem _ hst') hm
      obtain ⟨i1, i2, i3⟩ := ih (n + 1) h1 (fun st' h' => hne st' (List.mem_cons_of_mem _ h'))
        hkeys hfree'
      rw [List.zipIdx_cons, List.foldl_cons]
      refine ⟨?_, ?_, i3.trans h4⟩
      · have hlen : n + (st :: sts).length = n + 1 + sts.length := by
          rw [List.length_cons]
          omega
        rw [hlen]
        exact i1
      · rw [i2, h2, List.flatMap_cons, ← Multiset.coe_add, add_assoc]

/-- **The seeded state** books every line of the seed. -/
theorem seedState_books {seed : Seed} (hv : seed.Valid) :
    Wf (seedRefs seed.streams.length) (seedState (ι := ι) seed)
      ∧ (seedState (ι := ι) seed).Filled
      ∧ (seedState (ι := ι) seed).outRefs = []
      ∧ (seedState (ι := ι) seed).content = (seed.lines : Multiset LogEntry) := by
  have hkeys : (seed.streams.map (SeedStream.key (ι := ι))).Nodup := by
    -- the seeded streams have distinct keys, so no slot is planted twice
    have hinj : seed.streams.map (SeedStream.key (ι := ι))
        = (seed.streams.map fun st => (st.server, st.thread, st.userCtx)).map
            (fun t => ⟨t.1, t.2.1, t.2.2.map User.text, none⟩) := by
      rw [List.map_map]
      rfl
    rw [hinj]
    refine hv.keys.map ?_
    rintro ⟨a, b, c⟩ ⟨a', b', c'⟩ he
    simp only [StreamKey.mk.injEq, and_true] at he
    obtain ⟨h1, h2, h3⟩ := he
    have htext : Function.Injective (Option.map User.text) :=
      Option.map_injective fun _ _ heq => User.text.inj heq
    rw [h1, h2, htext h3]
  obtain ⟨h0, hc0⟩ := planted_empty (ι := ι)
  obtain ⟨h1, h2, h3⟩ := planted_foldl seed.streams 0 h0 hv.filled hkeys
    (fun st _ hm => by cases hm)
  rw [Nat.zero_add] at h1
  refine ⟨wf_pending h1.wf _, filled_of_heap h1.filled rfl, h1.noOut, ?_⟩
  have hpend : ∀ s : GroupState ι, s.pendingReqs = [] →
      ({ s with pendingReqs := seed.pending } : GroupState ι).content
        = s.content + (seed.pending : Multiset LogEntry) := by
    intro s hs
    show (∑ r ∈ s.reachable, ((s.builder r).entries : Multiset LogEntry))
      + (seed.pending : Multiset LogEntry) + (s.lones : Multiset LogEntry) = _
    unfold content
    rw [hs]
    show _ = _ + (0 : Multiset LogEntry) + _ + _
    abel
  show ({ (seed.streams.zipIdx.foldl (fun s p => s.plant p.2 p.1) ({} : GroupState ι)) with
    pendingReqs := seed.pending } : GroupState ι).content = _
  rw [hpend _ h3, h2, hc0, zero_add, Multiset.coe_add]
  rfl

end Seeded

end GroupState

/-! ## §6. The whole function. -/

open GroupState

/-- **Conservation**: builders are returned, they contain every seeded line and every input line exactly
    once, and no builder is returned twice. -/
def Conserves (gap : Duration) (seed : Seed) (entries : List LogEntry) : Prop :=
  ∃ builders, groupCall gap seed entries = some builders
    ∧ (builders.flatMap (·.entries)).Perm (seed.lines ++ (seed.unseen entries).map Prod.fst)
    ∧ ((groupReturned gap seed entries).filterMap Returned.ref?).Nodup

/-- The lines the loop handles are the input lines that no seeded stream carries. -/
theorem unseen_lines (seed : Seed) (entries : List LogEntry) :
    (seed.unseen entries).map Prod.fst = entries.filter (fun e => decide (e.id ∉ seed.ids)) := by
  unfold Seed.unseen
  have hmap : ∀ l : List (LogEntry × Nat),
      (l.filter (fun p => decide (p.1.id ∉ seed.ids))).map Prod.fst
        = (l.map Prod.fst).filter (fun e => decide (e.id ∉ seed.ids)) := by
    intro l
    rw [List.filter_map]
    rfl
  rw [hmap, List.zipIdx_map_fst]

/-- Each line that is not skipped has its own index. -/
theorem unseen_tags (seed : Seed) (entries : List LogEntry) :
    ((seed.unseen entries).map Prod.snd).Nodup := by
  refine List.Nodup.sublist (List.filter_sublist.map _) ?_
  rw [List.zipIdx_map_snd]
  exact List.nodup_range'

/-- No line is booked twice before the loop starts. -/
theorem all_ids_nodup {seed : Seed} {entries : List LogEntry} (hv : seed.Valid)
    (hids : (entries.map (·.id)).Nodup)
    (hpending : ∀ r ∈ seed.pending, ∀ e ∈ entries, r.id ≠ e.id) :
    ((seed.lines ++ (seed.unseen entries).map Prod.fst).map (·.id)).Nodup := by
  rw [unseen_lines, List.map_append, List.nodup_append]
  refine ⟨hv.ids, hids.sublist (List.filter_sublist.map _), ?_⟩
  intro a ha b hb hab
  obtain ⟨x, hx, rfl⟩ := List.mem_map.mp ha
  obtain ⟨y, hy, rfl⟩ := List.mem_map.mp hb
  obtain ⟨hy1, hy2⟩ := List.mem_filter.mp hy
  rcases List.mem_append.mp hx with h | h
  · have hin : y.id ∈ seed.ids := hab ▸ List.mem_map_of_mem h
    exact absurd hin (by simpa using hy2)
  · exact hpending x h y hy1 hab

/-- **The books of a grouping**: its builders are well formed, what they hold and what was lost are the lines
    that went in, and no line is booked twice. -/
theorem books_group (gap : Duration) {seed : Seed} {entries : List LogEntry} (hv : seed.Valid)
    (hids : (entries.map (·.id)).Nodup) (hpending : ∀ r ∈ seed.pending, ∀ e ∈ entries, r.id ≠ e.id) :
    (∃ lost : Multiset LogEntry,
      (groupFinal gap seed entries).content + lost =
          ((seed.lines ++ (seed.unseen entries).map Prod.fst : List LogEntry) : Multiset LogEntry)
        ∧ ((seedState seed).CleanRun gap (seed.unseen entries)
          ↔ lost = 0 ∧ (groupFinal gap seed entries).outRefs.Nodup))
      ∧ (∃ seen, Wf seen (groupFinal gap seed entries)) ∧ (groupFinal gap seed entries).Filled
      ∧ ((groupFinal gap seed entries).content.map (·.id)).Nodup := by
  obtain ⟨hw, hf, hout, hcontent⟩ := seedState_books (ι := Nat) hv
  have htags := unseen_tags seed entries
  have hfresh : ∀ p ∈ seed.unseen entries,
      BuilderRef.line p.2 ∉ seedRefs (ι := Nat) seed.streams.length := by
    intro p _ hm
    obtain ⟨m, -, heq⟩ := hm
    cases heq
  have hstart : (((seedState (ι := Nat) seed).content +
      (((seed.unseen entries).map Prod.fst : List LogEntry) : Multiset LogEntry)).map (·.id)).Nodup := by
    rw [hcontent, Multiset.coe_add, Multiset.map_coe, Multiset.coe_nodup]
    exact all_ids_nodup hv hids hpending
  -- the ledger of the loop, from the state after the seed: its books are the seeded lines, and nothing is returned yet
  obtain ⟨⟨lost, hbook, hclean⟩, hwf, hfilled⟩ :=
    ledger_run gap (seed.unseen entries) hw hf htags hfresh hstart
  rw [hout] at hclean
  simp only [List.nodup_nil, true_and] at hclean
  refine ⟨⟨lost, ?_, hclean⟩, hwf, hfilled, ?_⟩
  · rw [← Multiset.coe_add, ← hcontent]
    exact hbook
  · refine Multiset.nodup_of_le (Multiset.map_le_map ?_) hstart
    rw [← hbook]
    exact Multiset.le_add_right _ _

/-- A call returns when no turn of its loop raises. -/
theorem groupCall_eq_some {gap : Duration} {seed : Seed} {entries : List LogEntry} {builders : List TxnBuilder} :
    groupCall gap seed entries = some builders
      ↔ (seedState seed).runRaises gap (seed.unseen entries) = false ∧ group gap seed entries = builders := by
  unfold groupCall
  cases (seedState seed).runRaises gap (seed.unseen entries) with
  | true => simp
  | false => simp

/-- **Conservation, exactly.**  The grouper hands back every line once if and only if no turn of its loop
    raises, every turn is clean and so is the flush. -/
theorem conserves_iff_clean (gap : Duration) (seed : Seed) (entries : List LogEntry)
    (hv : seed.Valid) (hids : (entries.map (·.id)).Nodup)
    (hpending : ∀ r ∈ seed.pending, ∀ e ∈ entries, r.id ≠ e.id) :
    Conserves gap seed entries
      ↔ (seedState seed).runRaises gap (seed.unseen entries) = false
        ∧ (seedState seed).CleanRun gap (seed.unseen entries)
        ∧ (groupFinal gap seed entries).CleanFlush := by
  obtain ⟨⟨lost, hbook, hclean⟩, ⟨seen, hw⟩, hf, -⟩ := books_group gap hv hids hpending
  have hfinish := ledger_finish hw hf hbook
  -- what is returned, line by line and builder by builder
  have hlines : (groupFinal gap seed entries).returnedLines
      = (group gap seed entries).flatMap (·.entries) := by
    unfold group returnedLines
    rw [List.flatMap_map]
    rfl
  have hrefs : (groupFinal gap seed entries).returnedRefs
      = (groupReturned gap seed entries).filterMap Returned.ref? := by
    unfold groupReturned finish returnedRefs outRefs
    rw [List.filterMap_append, List.filterMap_append, List.filterMap_map, List.filterMap_map]
    have h1 : Returned.ref? ∘ (Returned.shared : BuilderRef Nat → _) = some := rfl
    have h2 : (Returned.ref? : Returned Nat → _) ∘ Returned.lone = fun _ => none := rfl
    rw [h1, h2, List.filterMap_some]
    simp
  have hcall : Conserves gap seed entries ↔ (seedState seed).runRaises gap (seed.unseen entries) = false
      ∧ ((group gap seed entries).flatMap (·.entries)).Perm (seed.lines ++ (seed.unseen entries).map Prod.fst)
      ∧ ((groupReturned gap seed entries).filterMap Returned.ref?).Nodup := by
    unfold Conserves
    constructor
    · intro h
      obtain ⟨builders, hsome, hperm, hnodup⟩ := h
      obtain ⟨hruns, rfl⟩ := groupCall_eq_some.mp hsome
      exact ⟨hruns, hperm, hnodup⟩
    · intro h
      exact ⟨_, groupCall_eq_some.mpr ⟨h.1, rfl⟩, h.2⟩
  rw [hcall]
  refine and_congr_right fun _ => ?_
  rw [← hlines, ← hrefs, ← Multiset.coe_eq_coe]
  refine Iff.trans hfinish ?_
  rw [← and_assoc, ← hclean]

/-- What the result has, the books have. -/
theorem mem_content_of_returned {ι : Type} [DecidableEq ι] {s : GroupState ι} {e : LogEntry}
    (h : e ∈ s.returnedLines) : e ∈ s.content := by
  have hmem : e ∈ (s.returnedLines : Multiset LogEntry) := h
  rw [returnedLines_eq, Multiset.mem_add, Multiset.mem_add] at hmem
  unfold content
  rw [Multiset.mem_add, Multiset.mem_add, Multiset.mem_sum]
  refine hmem.imp (Or.imp (fun hm => ?_) id) id
  obtain ⟨r, hr, he⟩ := List.mem_flatMap.mp (Multiset.mem_coe.mp hm)
  have hreach : r ∈ s.reachable := by
    rw [mem_reachable_iff_flush]
    rcases List.mem_append.mp hr with hout | hemitted
    · exact Or.inr hout
    · exact Or.inl ((mem_emitted _ _).mp hemitted).1
  exact ⟨r, hreach, he⟩

/-- A line of a returned builder is an input line. -/
theorem mem_of_mem_group {gap : Duration} {entries : List LogEntry}
    (hids : (entries.map (·.id)).Nodup) {b : TxnBuilder} (hb : b ∈ group gap {} entries)
    {e : LogEntry} (he : e ∈ b.entries) : e ∈ entries := by
  have hv : ({} : Seed).Valid := ⟨fun _ h => (List.not_mem_nil h).elim, List.nodup_nil, List.nodup_nil⟩
  obtain ⟨⟨lost, hbook, -⟩, -⟩ := books_group gap hv hids fun _ h => (List.not_mem_nil h).elim
  obtain ⟨x, hx, rfl⟩ := List.mem_map.mp hb
  have hreturned : e ∈ (groupFinal gap {} entries).returnedLines := List.mem_flatMap.mpr ⟨x, hx, he⟩
  have hin : e ∈ (groupFinal gap {} entries).content + lost :=
    Multiset.mem_add.mpr (Or.inl (mem_content_of_returned hreturned))
  rw [hbook, unseen_lines] at hin
  simp only [Seed.lines, List.flatMap_nil, List.append_nil, List.nil_append, Multiset.mem_coe,
    List.mem_filter] at hin
  exact hin.1

/-! ## §7. A run that does not conserve its lines. -/

/-- A line of server `A`: id, second, thread, kind, stamped request id. -/
private def stampedLine (id : UUID) (t : Int) (thread : String) (kind : EntryType)
    (rid : Option String) : LogEntry :=
  { id := id
    sourceFile := "A/eSmartServerLog.txt"
    timestamp := some (t * second)
    thread := some thread
    userCtx := some "CPRICE"
    entryType := kind
    fields := match rid with
      | some rid => [("reqid", .str rid)]
      | none => [] }

/-- A stamped conversation that has claimed a second thread, idle until a line 301 s later. -/
def idleOnTwoThreads : List LogEntry :=
  [stampedLine 1 0 "12" .request (some "R1"), stampedLine 2 0 "17" .miCall (some "R1"),
   stampedLine 3 301 "12" .request none]

theorem valid_empty : ({} : Seed).Valid :=
  ⟨fun _ h => (List.not_mem_nil h).elim, List.nodup_nil, List.nodup_nil⟩

/-- **The sweep returns a conversation once for each slot it holds**: its two lines come back
    twice. -/
theorem idleOnTwoThreads_not_conserved :
    ({} : Seed).Valid ∧ idleOnTwoThreads.Pairwise (fun a b => timeLe a b = true)
      ∧ (idleOnTwoThreads.map (·.id)).Nodup
      ∧ (group (300 * second) {} idleOnTwoThreads).map (fun b => b.entries.map (·.id))
          = [[1, 2], [1, 2], [3]]
      ∧ ¬ Conserves (300 * second) {} idleOnTwoThreads := by
  have hgroup : (group (300 * second) {} idleOnTwoThreads).map (fun b => b.entries.map (·.id))
      = [[1, 2], [1, 2], [3]] := by decide +kernel
  refine ⟨valid_empty, by decide, by decide, hgroup, ?_⟩
  rintro ⟨builders, hsome, hperm, -⟩
  obtain ⟨-, rfl⟩ := groupCall_eq_some.mp hsome
  have hids := hperm.map (·.id)
  have hleft : ((group (300 * second) {} idleOnTwoThreads).flatMap (·.entries)).map (·.id)
      = [1, 2, 1, 2, 3] := by
    rw [List.map_flatMap]
    have := congrArg List.flatten hgroup
    rw [← List.flatMap_def] at this
    exact this
  rw [hleft] at hids
  have hlen := hids.length_eq
  revert hlen
  decide

/-- The exact condition, for this run. -/
theorem conserves_iff_clean_idle :
    Conserves (300 * second) {} idleOnTwoThreads
      ↔ (seedState ({} : Seed)).runRaises (300 * second) (({} : Seed).unseen idleOnTwoThreads) = false
        ∧ (seedState ({} : Seed)).CleanRun (300 * second) (({} : Seed).unseen idleOnTwoThreads)
        ∧ (groupFinal (300 * second) {} idleOnTwoThreads).CleanFlush :=
  conserves_iff_clean (300 * second) {} idleOnTwoThreads valid_empty (by decide)
    (fun _ h => (List.not_mem_nil h).elim)

-- a stamped line takes the slot of an unanswered old-style request: lines 1 and 2 are lost
example : (group (300 * second) {}
    [stampedLine 1 0 "12" .request none, stampedLine 2 1 "12" .sql none,
     stampedLine 3 2 "12" .request (some "R1")]).map (fun b => b.entries.map (·.id))
      = [[3]] := by decide +kernel

-- a body whose user is a list makes the whole call raise
example : (groupCall (300 * second) {}
    [{ id := 1, sourceFile := "A/eSmartServerLog.txt", timestamp := some 0, entryType := .requestBody
       fields := [("User", .arr [.str "A"])] }]).isNone = true := by decide +kernel

end RagPipeline.Stage2
