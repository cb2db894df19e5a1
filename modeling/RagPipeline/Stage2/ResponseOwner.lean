/-
  RagPipeline.Stage2.ResponseOwner — which conversation an unstamped response joins.

  The rule is recency: of the open unstamped builders and the pending requests of the response's server
  (of its user, when there are any; not blocked on M3, when there are others), the one whose
  chronologically latest line is the most recent.  The grouper reads `last_ts` and `awaiting_m3` off the
  line a builder took LAST.  A pending request that is bound to a builder after its work line is last and
  not latest (`LateBound`); nothing else is.

    * `tail_append`, `tail_bound`  — what an added line and a bound request leave at the end of a builder;
    * `Tailed`                     — the invariant: every unstamped builder ends with its latest line, or
                                    with a request bound late;
    * `Misled`                     — a request bound late hides a line that decides;
    * `response_owned_iff`         — a response meets the rule exactly where none does;
    * `requestBoundLate_not_owned` — and a run in which one does.
-/
import RagPipeline.Stage2.GapBound

namespace RagPipeline.Stage2

open RagPipeline.Lib

/-! ## §1. The latest line. -/

/-- The latest timestamp. -/
def latestTs (es : List LogEntry) : Option Instant := maxBy? (fun a b => decide (b < a)) (times es)

/-- The chronologically last line; of lines at one time, the one that joined last. -/
def lastInTime (es : List LogEntry) : Option LogEntry :=
  es.foldl (fun best e => match best with
    | none => some e
    | some x => if timeLe x e then some e else some x) none

/-- Blocked on M3: the chronologically last line is an M3 call. -/
def blockedOnM3 (b : TxnBuilder) : Bool :=
  match lastInTime b.entries with
  | some e => decide (e.entryType = .miCall)
  | none => false

/-- One time is not after another; no time is before every time. -/
def TsLe : Option Instant → Option Instant → Prop
  | none, _ => True
  | some _, none => False
  | some a, some b => a ≤ b

/-- The last line with a time is a pending request that was bound after a later work line. -/
def LateBound (es : List LogEntry) : Prop :=
  ∃ pre w r post, es = pre ++ w :: r :: post ∧ r.entryType = .request ∧ timeLe w r = false
    ∧ ∀ x ∈ post, x.timestamp = none

/-- `last_ts`, of the lines. -/
def lastTime (es : List LogEntry) : Option Instant := es.reverse.findSome? (·.timestamp)

/-- The last line is the chronologically last, and the last time the latest. -/
structure EndsLatest (es : List LogEntry) : Prop where
  line : ∀ l, es.getLast? = some l → ∀ x ∈ es, timeLe x l = true
  time : ∀ t ∈ times es, ∃ m, lastTime es = some m ∧ t ≤ m

/-! ## §2. What is at the end of a builder. -/

theorem lastTime_append (es : List LogEntry) (e : LogEntry) :
    lastTime (es ++ [e]) = (e.timestamp).or (lastTime es) := by
  unfold lastTime
  rw [List.reverse_append]
  show ([e] ++ es.reverse).findSome? (·.timestamp) = _
  cases ht : e.timestamp with
  | none => simp [ht]
  | some t => simp [ht]

theorem timeLe_refl (e : LogEntry) : timeLe e e = true := by
  unfold timeLe
  cases e.timestamp with
  | none => rfl
  | some t => simp

theorem timeLe_trans {a b c : LogEntry} (hab : timeLe a b = true) (hbc : timeLe b c = true) :
    timeLe a c = true := by
  unfold timeLe at *
  cases ha : a.timestamp with
  | none =>
    cases hb : b.timestamp with
    | none =>
      rw [hb] at hbc
      exact hbc
    | some y =>
      rw [ha, hb] at hab
      cases hab
  | some x =>
    cases hc : c.timestamp with
    | none => rfl
    | some z =>
      cases hb : b.timestamp with
      | none =>
        rw [hb, hc] at hbc
        cases hbc
      | some y =>
        rw [ha, hb] at hab
        rw [hb, hc] at hbc
        have hxy : x ≤ y := of_decide_eq_true hab
        have hyz : y ≤ z := of_decide_eq_true hbc
        exact decide_eq_true (hxy.trans hyz)

/-- A later line is added at the end. -/
theorem tail_append {es : List LogEntry} {e : LogEntry} (h : EndsLatest es ∨ LateBound es)
    (hle : ∀ x ∈ es, timeLe x e = true) : EndsLatest (es ++ [e]) ∨ LateBound (es ++ [e]) := by
  have hline : ∀ l, (es ++ [e]).getLast? = some l → ∀ x ∈ es ++ [e], timeLe x l = true := by
    intro l hl x hx
    rw [List.getLast?_append] at hl
    have hle' : e = l := by simpa using hl
    rw [← hle']
    rcases List.mem_append.mp hx with hx | hx
    · exact hle x hx
    · rw [List.mem_singleton.mp hx]
      exact timeLe_refl e
  -- a stamped line is the latest one; an unstamped line leaves the time where it was
  cases ht : e.timestamp with
  | some t =>
    refine Or.inl ⟨hline, fun t' ht' => ⟨t, by rw [lastTime_append, ht]; rfl, ?_⟩⟩
    obtain ⟨x, hx, hxt⟩ := List.mem_filterMap.mp ht'
    rcases List.mem_append.mp hx with hx | hx
    · have hxe := hle x hx
      unfold timeLe at hxe
      rw [hxt, ht] at hxe
      exact of_decide_eq_true hxe
    · rw [List.mem_singleton.mp hx, ht] at hxt
      exact (Option.some.inj hxt).ge
  | none =>
    rcases h with hends | ⟨pre, w, r, post, rfl, hreq, hlate, hpost⟩
    · refine Or.inl ⟨hline, fun t' ht' => ?_⟩
      have hsame : times (es ++ [e]) = times es := by
        unfold times
        rw [List.filterMap_append]
        simp [ht]
      rw [hsame] at ht'
      rw [lastTime_append, ht]
      exact hends.time t' ht'
    · refine Or.inr ⟨pre, w, r, post ++ [e], by simp, hreq, hlate, fun x hx => ?_⟩
      rcases List.mem_append.mp hx with hx | hx
      · exact hpost x hx
      · rw [List.mem_singleton.mp hx]
        exact ht

/-- A request is bound after the line that named its user. -/
theorem tail_bound {es : List LogEntry} {e req : LogEntry} (h : EndsLatest es ∨ LateBound es)
    (hle : ∀ x ∈ es, timeLe x e = true) (hreq : req.entryType = .request) :
    EndsLatest (es ++ [e] ++ [req]) ∨ LateBound (es ++ [e] ++ [req]) := by
  cases hlate : timeLe e req with
  | true =>
    refine tail_append (tail_append h hle) fun x hx => ?_
    rcases List.mem_append.mp hx with hx | hx
    · exact timeLe_trans (hle x hx) hlate
    · rw [List.mem_singleton.mp hx]
      exact hlate
  | false => exact Or.inr ⟨es, e, req, [], by simp, hreq, hlate, fun x hx => absurd hx List.not_mem_nil⟩

theorem endsLatest_nil : EndsLatest [] := by
  constructor
  · intro l hl
    cases hl
  · intro t ht
    exact absurd ht List.not_mem_nil

/-- Lines in time order end with the latest. -/
theorem tail_sorted {es : List LogEntry} (h : es.Pairwise fun a b => timeLe a b = true) :
    EndsLatest es ∨ LateBound es := by
  induction es using List.reverseRecOn with
  | nil => exact Or.inl endsLatest_nil
  | append_singleton es e ih =>
    rw [List.pairwise_append] at h
    exact tail_append (ih h.1) fun x hx => h.2.2 x hx e (List.mem_singleton_self e)

/-! ### The last line and the latest. -/

theorem lastInTime_append (es : List LogEntry) (e : LogEntry) :
    lastInTime (es ++ [e]) = match lastInTime es with
      | none => some e
      | some x => if timeLe x e then some e else some x := by
  unfold lastInTime
  rw [List.foldl_append]
  rfl

theorem lastInTime_mem {es : List LogEntry} {x : LogEntry} (h : lastInTime es = some x) : x ∈ es := by
  induction es using List.reverseRecOn with
  | nil => cases h
  | append_singleton es e ih =>
    rw [lastInTime_append] at h
    cases hbest : lastInTime es with
    | none =>
      rw [hbest] at h
      have hx : e = x := Option.some.inj h
      exact List.mem_append_right _ (List.mem_singleton.mpr hx.symm)
    | some y =>
      rw [hbest] at h
      by_cases hle : timeLe y e = true
      · have hx : e = x := by simpa [hle] using h
        exact List.mem_append_right _ (List.mem_singleton.mpr hx.symm)
      · have hx : y = x := by simpa [hle] using h
        exact List.mem_append_left _ (ih (hx ▸ hbest))

/-- The line taken last is the chronologically last. -/
theorem EndsLatest.lastInTime_eq {es : List LogEntry} (h : EndsLatest es) : lastInTime es = es.getLast? := by
  rcases List.eq_nil_or_concat' es with rfl | ⟨es, e, rfl⟩
  · rfl
  rw [lastInTime_append, List.getLast?_concat]
  cases hbest : lastInTime es with
  | none => rfl
  | some x =>
    have hle := h.line e List.getLast?_concat x (List.mem_append_left _ (lastInTime_mem hbest))
    simp only [hle, if_true]

theorem lastTime_eq_none {es : List LogEntry} (h : lastTime es = none) : times es = [] := by
  unfold lastTime at h
  rw [List.findSome?_eq_none_iff] at h
  exact List.filterMap_eq_nil_iff.mpr fun x hx => h x (List.mem_reverse.mpr hx)

theorem lastTime_mem {es : List LogEntry} {m : Instant} (h : lastTime es = some m) : m ∈ times es := by
  obtain ⟨x, hx, ht⟩ := List.exists_of_findSome?_eq_some h
  exact List.mem_filterMap.mpr ⟨x, List.mem_reverse.mp hx, ht⟩

/-- No time is after the latest. -/
theorem times_le {es : List LogEntry} {a : Instant}
    (h : maxBy? (fun a b : Instant => decide (b < a)) (times es) = some a) : ∀ x ∈ times es, x ≤ a :=
  maxBy?_rel (R := fun x y : Instant => x ≤ y) (fun a => le_refl a) (fun _ _ _ => le_trans)
    (fun _ _ hgt => le_of_lt (of_decide_eq_true hgt)) (fun _ _ hgt => not_lt.mp (of_decide_eq_false hgt)) h

/-- The last time is the latest. -/
theorem EndsLatest.lastTime_eq {es : List LogEntry} (h : EndsLatest es) : lastTime es = latestTs es := by
  unfold latestTs
  cases hlast : lastTime es with
  | none => rw [lastTime_eq_none hlast]; rfl
  | some m =>
    have hm := lastTime_mem hlast
    cases hbest : maxBy? (fun a b : Instant => decide (b < a)) (times es) with
    | none =>
      rw [maxBy?_eq_none.mp hbest] at hm
      cases hm
    | some a =>
      have hmax := times_le hbest
      obtain ⟨m', hm', hle⟩ := h.time a (maxBy?_mem hbest)
      have heq : m = m' := Option.some.inj (hlast.symm.trans hm')
      rw [← heq] at hle
      rw [le_antisymm (hmax m hm) hle]

/-- A line taken last is not after the latest. -/
theorem lastTime_le (es : List LogEntry) : TsLe (lastTime es) (latestTs es) := by
  cases hlast : lastTime es with
  | none => trivial
  | some m =>
    have hm := lastTime_mem hlast
    unfold latestTs
    cases hbest : maxBy? (fun a b : Instant => decide (b < a)) (times es) with
    | none =>
      rw [maxBy?_eq_none.mp hbest] at hm
      cases hm
    | some a => exact times_le hbest m hm

/-- Blocked by the line taken last is blocked by the chronologically last. -/
theorem blockedOnM3_eq {b : TxnBuilder} (h : EndsLatest b.entries) : blockedOnM3 b = awaitingM3 b := by
  have hsame := h.lastInTime_eq
  unfold blockedOnM3 awaitingM3
  cases hlast : b.entries.getLast? with
  | none => simp [hsame, hlast]
  | some l => simp [hsame, hlast]

/-- A request bound late hides a call, and shows none. -/
theorem blockedOnM3_of_awaitingM3 {b : TxnBuilder} (h : EndsLatest b.entries ∨ LateBound b.entries)
    (hshown : awaitingM3 b = true) : blockedOnM3 b = true := by
  rcases h with hends | ⟨pre, w, r, post, hes, hreq, -, hpost⟩
  · rw [blockedOnM3_eq hends]
    exact hshown
  -- behind the request only lines without a time, and the last of them is the chronologically last
  rcases List.eq_nil_or_concat' post with rfl | ⟨post, l, rfl⟩
  · unfold awaitingM3 at hshown
    have hlast : b.entries.getLast? = some r := by rw [hes]; simp
    rw [hlast] at hshown
    have hcall := of_decide_eq_true hshown
    rw [hreq] at hcall
    cases hcall
  · have hes : b.entries = (pre ++ w :: r :: post) ++ [l] := by rw [hes]; simp
    have huntimed : l.timestamp = none := hpost l (List.mem_append_right _ (List.mem_singleton_self l))
    have hlast : lastInTime b.entries = some l := by
      rw [hes, lastInTime_append]
      have hle : ∀ x, timeLe x l = true := by
        intro x
        unfold timeLe
        rw [huntimed]
        cases x.timestamp <;> rfl
      cases lastInTime (pre ++ w :: r :: post) with
      | none => rfl
      | some x => simp only [hle x, if_true]
    unfold awaitingM3 at hshown
    unfold blockedOnM3
    have hsame : b.entries.getLast? = some l := by rw [hes, List.getLast?_concat]
    rw [hsame] at hshown
    rw [hlast]
    exact hshown

theorem lastTs_eq {b : TxnBuilder} (h : EndsLatest b.entries) : lastTs b = latestTs b.entries := h.lastTime_eq

/-! ### The order of the candidates. -/

theorem TsLe.refl (t : Option Instant) : TsLe t t := by
  cases t with
  | none => trivial
  | some a => exact le_refl a

theorem TsLe.trans {a b c : Option Instant} (hab : TsLe a b) (hbc : TsLe b c) : TsLe a c := by
  cases a with
  | none => trivial
  | some x =>
    cases b with
    | none => cases hab
    | some y =>
      cases c with
      | none => cases hbc
      | some z => exact le_trans (α := ℤ) hab hbc

/-- The rank goes by the time first. -/
theorem Rank.gt_ts {x y : Rank} (h : x.gt y = true) : TsLe y.ts x.ts := by
  unfold Rank.gt at h
  cases hx : x.ts with
  | none =>
    cases hy : y.ts with
    | none => trivial
    | some b =>
      rw [hx, hy] at h
      cases h
  | some a =>
    cases hy : y.ts with
    | none => trivial
    | some b =>
      rw [hx, hy] at h
      by_cases hab : a = b
      · exact hab.ge
      · simp only [if_neg hab] at h
        exact le_of_lt (of_decide_eq_true h)

theorem Rank.not_gt_ts {x y : Rank} (h : x.gt y = false) : TsLe x.ts y.ts := by
  unfold Rank.gt at h
  cases hx : x.ts with
  | none => trivial
  | some a =>
    cases hy : y.ts with
    | none =>
      rw [hx, hy] at h
      cases h
    | some b =>
      rw [hx, hy] at h
      by_cases hab : a = b
      · exact hab.le
      · simp only [if_neg hab] at h
        exact not_lt.mp (of_decide_eq_false h)

theorem Rank.ge_eq (x y : Rank) : x.ge y = !y.gt x := by
  unfold Rank.ge Rank.gt
  cases x.ts with
  | none => cases y.ts <;> rfl
  | some a =>
    cases y.ts with
    | none => rfl
    | some b =>
      by_cases hab : a = b
      · simp [hab]
      · simp only [if_neg hab, if_neg (Ne.symm hab)]
        rcases lt_or_gt_of_ne hab with hlt | hlt
        · rw [decide_eq_false (not_lt.mpr hlt.le), decide_eq_true hlt]
          rfl
        · rw [decide_eq_true hlt, decide_eq_false (not_lt.mpr hlt.le)]
          rfl

theorem Rank.ge_ts {x y : Rank} (h : x.ge y = true) : TsLe y.ts x.ts := by
  rw [Rank.ge_eq, Bool.not_eq_true'] at h
  exact Rank.not_gt_ts h

theorem Rank.not_ge_ts {x y : Rank} (h : x.ge y = false) : TsLe x.ts y.ts := by
  rw [Rank.ge_eq, Bool.not_eq_false'] at h
  exact Rank.gt_ts h

/-- The strongest of the candidates by a rank has the most recent time. -/
theorem strongest_ts {α : Type} (rank : α → Rank) {l : List α} {a : α}
    (h : maxBy? (fun x y => (rank x).gt (rank y)) l = some a) : ∀ x ∈ l, TsLe (rank x).ts (rank a).ts :=
  maxBy?_rel (R := fun x y => TsLe (rank x).ts (rank y).ts) (fun _ => TsLe.refl _) (fun _ _ _ => TsLe.trans)
    (fun _ _ => Rank.gt_ts) (fun _ _ => Rank.not_gt_ts) h

namespace GroupState

variable {ι : Type} [DecidableEq ι] {s s' : GroupState ι} {gap : Duration} {seen : Set (BuilderRef ι)} {i : ι}
  {e : LogEntry} {rest : List LogEntry}

/-! ## §3. The invariant. -/

/-- **The invariant**, `rest` being the lines still to come. -/
structure Tailed (rest : List LogEntry) (seen : Set (BuilderRef ι)) (s : GroupState ι) : Prop
    extends Filed seen s where
  tail : ∀ r, ¬ s.Stamped r → EndsLatest (s.builder r).entries ∨ LateBound (s.builder r).entries
  earlier : ∀ r, ∀ x ∈ (s.builder r).entries, ∀ y ∈ rest, timeLe x y = true
  waiting : ∀ x ∈ s.pendingReqs, ∀ y ∈ rest, timeLe x y = true

/-- The lines a builder has before it takes one. -/
theorem Base.tailed {r : BuilderRef ι} {b' : TxnBuilder} {base : List LogEntry} (hb : Base s i r b' base)
    (h : Tailed (e :: rest) seen s) :
    (isIdBuilder b' = false → EndsLatest base ∨ LateBound base) ∧
      ∀ x ∈ base, ∀ y ∈ e :: rest, timeLe x y = true := by
  cases hb with
  | held ho hid =>
    refine ⟨fun hst => h.tail r ?_, h.earlier r⟩
    unfold Stamped isIdBuilder
    rw [← hid]
    exact fun hs => Bool.false_ne_true (hst.symm.trans hs)
  | new _ => exact ⟨fun _ => Or.inl endsLatest_nil, fun x hx => absurd hx List.not_mem_nil⟩

/-- What the line leaves at the end of a builder. -/
theorem Grown.tail {r : BuilderRef ι} {b' : TxnBuilder} (hg : Grown s i e r b')
    (h : Tailed (e :: rest) seen s) (hst : isIdBuilder b' = false) :
    EndsLatest b'.entries ∨ LateBound b'.entries := by
  -- each way a builder grows: what is appended is no earlier than what is there, but for a request bound late
  cases hg with
  | same heq =>
    rw [heq]
    refine h.tail r ?_
    unfold Stamped
    rw [← heq, hst]
    exact Bool.false_ne_true
  | took base hb heq =>
    obtain ⟨htail, hle⟩ := hb.tailed h
    rw [heq]
    exact tail_append (htail hst) fun x hx => hle x hx e List.mem_cons_self
  | late _ hid heq =>
    rw [heq]
    refine tail_append (h.tail r ?_) fun x hx => h.earlier r x hx e List.mem_cons_self
    unfold Stamped isIdBuilder
    rw [← hid]
    exact fun hs => Bool.false_ne_true (hst.symm.trans hs)
  | bound base hb req hreq heq =>
    obtain ⟨htail, hle⟩ := hb.tailed h
    rw [heq]
    exact tail_bound (htail hst) (fun x hx => hle x hx e List.mem_cons_self) (h.requests req hreq)
  | claimed _ req hreq heq =>
    rw [heq]
    have hone : EndsLatest [req] ∨ LateBound [req] :=
      tail_append (Or.inl endsLatest_nil) fun x hx => absurd hx List.not_mem_nil
    refine tail_append hone fun x hx => ?_
    rw [List.mem_singleton.mp hx]
    exact h.waiting req hreq e List.mem_cons_self
  | absorbed base hb hid p hp heq => exact absurd (hst.symm.trans hid) Bool.false_ne_true

/-- No line of a builder comes after one that is still to come. -/
theorem Grown.earlier {r : BuilderRef ι} {b' : TxnBuilder} (hg : Grown s i e r b')
    (h : Tailed (e :: rest) seen s) (hle : ∀ y ∈ rest, timeLe e y = true) :
    ∀ x ∈ b'.entries, ∀ y ∈ rest, timeLe x y = true := by
  -- lines that were no later than what is to come, and then the line of this step
  have hold : ∀ es : List LogEntry, (∀ x ∈ es, ∀ y ∈ e :: rest, timeLe x y = true) →
      ∀ x ∈ es ++ [e], ∀ y ∈ rest, timeLe x y = true := by
    intro es hes x hx y hy
    rcases List.mem_append.mp hx with hx | hx
    · exact hes x hx y (List.mem_cons_of_mem _ hy)
    · rw [List.mem_singleton.mp hx]
      exact hle y hy
  cases hg with
  | same heq =>
    rw [heq]
    exact fun x hx y hy => h.earlier r x hx y (List.mem_cons_of_mem _ hy)
  | took base hb heq =>
    rw [heq]
    exact hold _ (hb.tailed h).2
  | late _ hid heq =>
    rw [heq]
    exact hold _ (h.earlier r)
  | bound base hb req hreq heq =>
    rw [heq]
    intro x hx y hy
    rcases List.mem_append.mp hx with hx | hx
    · exact hold _ (hb.tailed h).2 x hx y hy
    · rw [List.mem_singleton.mp hx]
      exact h.waiting req hreq y (List.mem_cons_of_mem _ hy)
  | claimed _ req hreq heq =>
    rw [heq]
    refine hold _ fun x hx => ?_
    rw [List.mem_singleton.mp hx]
    exact h.waiting req hreq
  | absorbed base hb _ p _ heq =>
    rw [heq]
    refine hold _ fun x hx => ?_
    rcases List.mem_append.mp hx with hx | hx
    · exact (hb.tailed h).2 x hx
    · exact h.earlier p x hx

theorem Tailed.shrink (h : Tailed rest seen s) (hshrunk : Shrunk s s') : Tailed rest seen s' := by
  refine ⟨h.toFiled.shrink hshrunk, fun r hr => ?_, fun r => ?_, fun x hx => h.waiting x (hshrunk.pending x hx)⟩
  · unfold Stamped at hr
    rw [hshrunk.builder] at hr ⊢
    exact h.tail r hr
  · rw [hshrunk.builder]
    exact h.earlier r

/-- **One turn of the loop keeps the invariant.** -/
theorem Tailed.step (h : Tailed (e :: rest) seen s) (hi : BuilderRef.line i ∉ seen)
    (hle : ∀ y ∈ rest, timeLe e y = true) : Tailed rest (insert (.line i) seen) (s.step gap i e) := by
  have hswept := h.shrink (shrunk_swept gap s e)
  unfold GroupState.step
  generalize s.swept gap e = s₁ at hswept
  obtain ⟨hgrows, hfiled⟩ := hswept.toFiled.route (e := e) hi
  generalize s₁.route i e = s' at hgrows hfiled
  refine ⟨hfiled, fun r hr => ?_, fun r => (hgrows.grown r).earlier hswept hle, fun x hx y hy => ?_⟩
  · exact (hgrows.grown r).tail hswept (Bool.eq_false_iff.mpr hr)
  · rcases hgrows.pending x hx with hx | ⟨rfl, -⟩
    · exact hswept.waiting x hx y (List.mem_cons_of_mem _ hy)
    · exact hle y hy

/-- **Along a run of the loop.** -/
theorem tailed_run (gap : Duration) (before after : List (LogEntry × ι)) {s : GroupState ι}
    {seen : Set (BuilderRef ι)} (h : Tailed ((before ++ after).map Prod.fst) seen s)
    (hsorted : ((before ++ after).map Prod.fst).Pairwise fun a b => timeLe a b = true)
    (htags : ((before ++ after).map Prod.snd).Nodup)
    (hfresh : ∀ p ∈ before ++ after, BuilderRef.line p.2 ∉ seen) :
    ∃ seen', Tailed (after.map Prod.fst) seen' (s.run gap before) ∧
      ∀ p ∈ after, BuilderRef.line p.2 ∉ seen' := by
  induction before generalizing s seen with
  | nil => exact ⟨seen, h, hfresh⟩
  | cons p before ih =>
    obtain ⟨e, i⟩ := p
    obtain ⟨hfirst, hrest⟩ := List.pairwise_cons.mp hsorted
    obtain ⟨htag, hnodup⟩ := List.nodup_cons.mp htags
    have hstep : Tailed ((before ++ after).map Prod.fst) (insert (.line i) seen) (s.step gap i e) :=
      h.step (hfresh _ List.mem_cons_self) hfirst
    exact ih hstep hrest hnodup (fresh_insert htag fun q hq => hfresh q (List.mem_cons_of_mem _ hq))

/-! ## §4. The seeds. -/

/-- The state the loop starts from. -/
theorem tailed_seed {seed : Seed} {entries : List LogEntry}
    (hseed : ∀ st ∈ seed.streams, st.entries.Pairwise fun a b => timeLe a b = true)
    (hrequests : ∀ x ∈ seed.pending, x.entryType = .request)
    (hlater : ∀ x ∈ seed.lines, ∀ y ∈ entries, timeLe x y = true) :
    Tailed entries (seedRefs (ι := ι) seed.streams.length) (seedState seed) := by
  have hempty : Tailed entries (seedRefs (ι := ι) 0) ({} : GroupState ι) :=
    ⟨filed_empty, fun r _ => Or.inl endsLatest_nil, fun r x hx => absurd hx List.not_mem_nil,
      fun x hx => absurd hx List.not_mem_nil⟩
  -- stream by stream: each is in time order, and nothing to come is before a line of it
  have hstreams := plant_induction (P := fun n s => Tailed entries (seedRefs (ι := ι) n) s) seed.streams 0
      hempty fun m s st hst h => by
    have hfiled := h.toFiled.plant st
    rcases plants s m st with hskip | hplants
    · rw [hskip] at hfiled ⊢
      exact { h with toFiled := hfiled }
    · generalize s.plant m st = s' at hfiled hplants
      refine ⟨hfiled, fun r hr => ?_, fun r => ?_, fun x hx => h.waiting x (hplants.pending ▸ hx)⟩
      · unfold Stamped at hr
        rw [hplants.builder] at hr ⊢
        split
        · exact tail_sorted (hseed st hst)
        · rename_i hne
          rw [if_neg hne] at hr
          exact h.tail r hr
      · rw [hplants.builder]
        split
        · exact fun x hx => hlater x (List.mem_append_left _ (List.mem_flatMap.mpr ⟨st, hst, hx⟩))
        · exact h.earlier r
  have hwaits : ∀ (seen : Set (BuilderRef ι)) (s : GroupState ι), Tailed entries seen s →
      Tailed entries seen { s with pendingReqs := seed.pending } := fun seen s h =>
    { h with
      waiting := fun x hx => hlater x (List.mem_append_right _ hx)
      requests := hrequests }
  rw [Nat.zero_add] at hstreams
  exact hwaits _ _ hstreams

/-! ## §5. The rule. -/

/-- The unstamped open builders and the pending requests of the response's server: of its user, or of
    everybody when its user has none. -/
def eligible (s : GroupState ι) (e : LogEntry) : List (StreamKey ι × BuilderRef ι) × List LogEntry :=
  let keys := s.openByKey.items.filter fun p =>
    decide (p.1.server = entryServer e) && !isIdBuilder (s.builder p.2)
  let srvReqs := s.pendingReqs.filter fun r => decide (entryServer r = entryServer e)
  let uKeys := keys.filter fun p => decide (txnUser (s.builder p.2) = e.contextUser)
  let uReqs := srvReqs.filter fun r => decide (reqUser r = e.contextUser)
  if uKeys.isEmpty && uReqs.isEmpty then (keys, srvReqs) else (uKeys, uReqs)

/-- The candidates: the blocked builders only when nothing else is left. -/
def candidatesBy (s : GroupState ι) (blocked : TxnBuilder → Bool) (e : LogEntry) :
    List (StreamKey ι × BuilderRef ι) × List LogEntry :=
  let settled := (s.eligible e).1.filter fun p => !blocked (s.builder p.2)
  (if !settled.isEmpty || !(s.eligible e).2.isEmpty then settled else (s.eligible e).1, (s.eligible e).2)

omit [DecidableEq ι] in
/-- A line with time `t` is not before any candidate's latest. -/
def MostRecent (s : GroupState ι) (e : LogEntry) (t : Option Instant) : Prop :=
  (∀ q ∈ (s.candidatesBy blockedOnM3 e).1, TsLe (latestTs (s.builder q.2).entries) t)
    ∧ ∀ req ∈ (s.candidatesBy blockedOnM3 e).2, TsLe req.timestamp t

/-- **The rule**: the response joins a candidate whose latest line is the most recent. -/
inductive JoinsMostRecent (s : GroupState ι) (e : LogEntry) (s' : GroupState ι) : Prop
  | builder (k : StreamKey ι) (r : BuilderRef ι) (hk : (k, r) ∈ (s.candidatesBy blockedOnM3 e).1)
      (hrecent : s.MostRecent e (latestTs (s.builder r).entries))
      (hjoins : (s'.builder r).entries = (s.builder r).entries ++ [e])
  | request (req : LogEntry) (hreq : req ∈ (s.candidatesBy blockedOnM3 e).2)
      (hrecent : s.MostRecent e req.timestamp)
      (hjoins : ∃ r, (s.builder r).entries = [] ∧ (s'.builder r).entries = [req, e])
  | orphan (hkeys : (s.candidatesBy blockedOnM3 e).1 = []) (hreqs : (s.candidatesBy blockedOnM3 e).2 = [])
      (hjoins : ∃ r, (s.builder r).entries = [] ∧ (s'.builder r).entries = [e])

theorem candidates_eq (s : GroupState ι) (e : LogEntry) : s.candidates e = s.candidatesBy awaitingM3 e := by
  unfold candidates candidatesBy eligible
  simp only

theorem answerBuilder_builder {k : StreamKey ι} {r : BuilderRef ι} (hk : (k, r) ∈ (s.candidates e).1)
    (x : BuilderRef ι) :
    ((s.answerBuilder k e).builder x).entries = (s.builder x).entries ++ if x = r then [e] else [] := by
  rw [answerBuilder_eq e (OrderedDict.get?_eq_some.mpr (candidates_slot hk).1)]
  unfold builder
  rw [rememberClosed_heap]
  show (((s.closeInto k).modify r (·.add e)).builder x).entries = _
  rw [builder_modify, (shrunk_closeInto s k).builder]
  by_cases hx : x = r
  · rw [if_pos hx, if_pos hx, hx]
    rfl
  · rw [if_neg hx, if_neg hx, List.append_nil, (shrunk_closeInto s k).builder]
    rfl

theorem answerRequest_builder (s : GroupState ι) (i : ι) (req e : LogEntry) (x : BuilderRef ι) :
    ((s.answerRequest i req e).builder x).entries = if x = .line i then [req, e] else (s.builder x).entries := by
  unfold answerRequest builder giveBack
  simp only
  rw [rememberClosed_heap]
  split
  · next hx => rw [hx, OrderedDict.get?_set_self]; rfl
  · next hx => rw [OrderedDict.get?_set_ne _ _ hx]

theorem orphan_joins (s : GroupState ι) (i : ι) (e : LogEntry) :
    ((s.orphan i e).builder (.line i)).entries = [e] := by
  unfold orphan builder giveBack
  simp only
  rw [OrderedDict.get?_set_self]
  rfl

/-! ### Who the response is given to. -/

/-- Who can own a response: an open builder, or a pending request. -/
inductive Owner (ι : Type)
  | builder (r : BuilderRef ι)
  | request (req : LogEntry)

omit [DecidableEq ι] in
/-- When an owner was last heard from. -/
def latestOf (s : GroupState ι) : Owner ι → Option Instant
  | .builder r => latestTs (s.builder r).entries
  | .request req => req.timestamp

/-- The candidate that its line taken last makes the strongest. -/
def strongest (s : GroupState ι) (e : LogEntry) : Option (Owner ι) :=
  match s.bestKey (s.candidates e).1, bestReq (s.candidates e).2 with
  | some p, some req =>
    if (rankOfBuilder (s.builder p.2)).ge (rankOfRequest req) then some (.builder p.2) else some (.request req)
  | some p, none => some (.builder p.2)
  | none, some req => some (.request req)
  | none, none => none

/-- One of the candidates. -/
def Owner.Among (x : Owner ι) (candidates : List (StreamKey ι × BuilderRef ι) × List LogEntry) : Prop :=
  match x with
  | .builder r => ∃ k, (k, r) ∈ candidates.1
  | .request req => req ∈ candidates.2

/-- What the rule asks of the owner. -/
def Owns (s : GroupState ι) (e : LogEntry) (x : Owner ι) : Prop :=
  x.Among (s.candidatesBy blockedOnM3 e) ∧ s.MostRecent e (s.latestOf x)

/-- The strongest of the candidates shows a line that is not before what any of them shows. -/
structure Leads (s : GroupState ι) (e : LogEntry) (x : Owner ι) : Prop where
  among : x.Among (s.candidates e)
  keys : ∀ q ∈ (s.candidates e).1, TsLe (lastTs (s.builder q.2)) (s.latestOf x)
  reqs : ∀ req ∈ (s.candidates e).2, TsLe req.timestamp (s.latestOf x)

theorem strongest_leads {x : Owner ι} (h : s.strongest e = some x) : s.Leads e x := by
  have hkeys : ∀ p, s.bestKey (s.candidates e).1 = some p → ∀ q ∈ (s.candidates e).1,
      TsLe (lastTs (s.builder q.2)) (lastTs (s.builder p.2)) := fun p hp =>
    strongest_ts (fun p : StreamKey ι × BuilderRef ι => rankOfBuilder (s.builder p.2)) hp
  have hreqs : ∀ req, bestReq (s.candidates e).2 = some req → ∀ x ∈ (s.candidates e).2,
      TsLe x.timestamp req.timestamp := fun req hreq => strongest_ts rankOfRequest hreq
  unfold strongest at h
  cases hk : s.bestKey (s.candidates e).1 with
  | some p =>
    -- the ranking reads the line taken last, which is never later than the latest one
    have hshown : TsLe (lastTs (s.builder p.2)) (latestTs (s.builder p.2).entries) := lastTime_le _
    cases hr : bestReq (s.candidates e).2 with
    | some req =>
      simp only [hk, hr] at h
      cases hge : (rankOfBuilder (s.builder p.2)).ge (rankOfRequest req) with
      | true =>
        rw [hge, if_pos rfl] at h
        obtain rfl := Option.some.inj h
        have hle : TsLe req.timestamp (lastTs (s.builder p.2)) := Rank.ge_ts hge
        exact ⟨⟨p.1, maxBy?_mem hk⟩, fun q hq => (hkeys p hk q hq).trans hshown,
          fun x hx => ((hreqs req hr x hx).trans hle).trans hshown⟩
      | false =>
        rw [hge, if_neg Bool.false_ne_true] at h
        obtain rfl := Option.some.inj h
        have hle : TsLe (lastTs (s.builder p.2)) req.timestamp := Rank.not_ge_ts hge
        exact ⟨maxBy?_mem hr, fun q hq => (hkeys p hk q hq).trans hle, hreqs req hr⟩
    | none =>
      simp only [hk, hr] at h
      obtain rfl := Option.some.inj h
      have hnil := maxBy?_eq_none.mp hr
      exact ⟨⟨p.1, maxBy?_mem hk⟩, fun q hq => (hkeys p hk q hq).trans hshown,
        fun x hx => absurd (hnil ▸ hx) List.not_mem_nil⟩
  | none =>
    have hnil := maxBy?_eq_none.mp hk
    cases hr : bestReq (s.candidates e).2 with
    | some req =>
      simp only [hk, hr] at h
      obtain rfl := Option.some.inj h
      exact ⟨maxBy?_mem hr, fun q hq => absurd (hnil ▸ hq) List.not_mem_nil, hreqs req hr⟩
    | none =>
      simp only [hk, hr] at h
      cases h

/-- Without a candidate nothing is eligible. -/
theorem eligible_nil {blocked : TxnBuilder → Bool} (hkeys : (s.candidatesBy blocked e).1 = [])
    (hreqs : (s.candidatesBy blocked e).2 = []) : (s.eligible e).1 = [] := by
  have hreqs : (s.eligible e).2 = [] := hreqs
  unfold candidatesBy at hkeys
  simp only [hreqs, List.isEmpty_nil, Bool.not_true, Bool.or_false] at hkeys
  split at hkeys
  · next hsome =>
    rw [hkeys] at hsome
    exact absurd hsome Bool.false_ne_true
  · exact hkeys

theorem candidatesBy_nil {blocked : TxnBuilder → Bool} (h : (s.eligible e).1 = []) :
    (s.candidatesBy blocked e).1 = [] := by
  unfold candidatesBy
  simp [h]

/-- **Who an unstamped response joins**: the strongest, so the rule holds exactly if it allows the strongest. -/
theorem response_joins_iff {i : ι} (hnew : (s.builder (.line i)).entries = []) :
    JoinsMostRecent s e (s.response i e) ↔ ∀ x, s.strongest e = some x → s.Owns e x := by
  have hlonger : ∀ {es : List LogEntry}, es ≠ es ++ [e] := by
    intro es heq
    have hlen := congrArg List.length heq
    rw [List.length_append, List.length_singleton] at hlen
    omega
  -- a builder answers: it alone grows
  have hbuilder : ∀ p, p ∈ (s.candidates e).1 →
      (JoinsMostRecent s e (s.answerBuilder p.1 e) ↔ s.Owns e (.builder p.2)) := by
    intro p hp
    have hat := answerBuilder_builder (k := p.1) (r := p.2) hp
    constructor
    · intro h
      cases h with
      | builder k r hk hrecent hjoins =>
        rw [hat] at hjoins
        by_cases hr : r = p.2
        · exact ⟨⟨k, hr ▸ hk⟩, hr ▸ hrecent⟩
        · rw [if_neg hr, List.append_nil] at hjoins
          exact absurd hjoins hlonger
      | request req hreq hrecent hjoins =>
        obtain ⟨r, hempty, hjoins⟩ := hjoins
        rw [hat, hempty] at hjoins
        split at hjoins <;> simp at hjoins
      | orphan hkeys hreqs hjoins =>
        rw [candidates_eq, candidatesBy_nil (eligible_nil hkeys hreqs)] at hp
        exact absurd hp List.not_mem_nil
    · rintro ⟨⟨k, hk⟩, hrecent⟩
      exact .builder k p.2 hk hrecent (by rw [hat, if_pos rfl])
  -- a request answers: only the new conversation grows
  have hrequest : ∀ req, req ∈ (s.candidates e).2 →
      (JoinsMostRecent s e (s.answerRequest i req e) ↔ s.Owns e (.request req)) := by
    intro req hreq
    have hat := answerRequest_builder s i req e
    constructor
    · intro h
      cases h with
      | builder k r hk hrecent hjoins =>
        rw [hat] at hjoins
        by_cases hr : r = .line i
        · rw [if_pos hr, hr, hnew] at hjoins
          simp at hjoins
        · rw [if_neg hr] at hjoins
          exact absurd hjoins hlonger
      | request req' hreq' hrecent hjoins =>
        obtain ⟨r, hempty, hjoins⟩ := hjoins
        rw [hat] at hjoins
        by_cases hr : r = .line i
        · rw [if_pos hr] at hjoins
          obtain rfl := (List.cons.inj hjoins).1
          exact ⟨hreq', hrecent⟩
        · rw [if_neg hr, hempty] at hjoins
          simp at hjoins
      | orphan hkeys hreqs hjoins =>
        have hnone : (s.candidates e).2 = [] := hreqs
        exact absurd (hnone ▸ hreq) List.not_mem_nil
    · rintro ⟨hreq', hrecent⟩
      exact .request req hreq' hrecent ⟨.line i, hnew, by rw [hat, if_pos rfl]⟩
  unfold response strongest
  simp only
  cases hk : s.bestKey (s.candidates e).1 with
  | some p =>
    cases hr : bestReq (s.candidates e).2 with
    | some req =>
      simp only
      cases hge : (rankOfBuilder (s.builder p.2)).ge (rankOfRequest req) with
      | true => simpa using hbuilder p (maxBy?_mem hk)
      | false => simpa using hrequest req (maxBy?_mem hr)
    | none => simpa using hbuilder p (maxBy?_mem hk)
  | none =>
    cases hr : bestReq (s.candidates e).2 with
    | some req => simpa using hrequest req (maxBy?_mem hr)
    | none =>
      have hnone : (s.candidates e).2 = [] := maxBy?_eq_none.mp hr
      have hkeys := maxBy?_eq_none.mp hk
      rw [candidates_eq] at hkeys
      have heligible : (s.eligible e).1 = [] := eligible_nil hkeys hnone
      exact iff_of_true (.orphan (candidatesBy_nil heligible) hnone ⟨.line i, hnew, orphan_joins s i e⟩)
        (by simp)

/-! ### What a request bound late decides. -/

/-- A request bound late decides whom the response joins. -/
inductive Misled (s : GroupState ι) (e : LogEntry) : Prop
  /-- it hides the line that its builder was last heard from by, and that line is later than the strongest's latest -/
  | time (p : StreamKey ι × BuilderRef ι) (x : Owner ι) (hlate : LateBound (s.builder p.2).entries)
      (hp : p ∈ (s.candidatesBy blockedOnM3 e).1) (hx : s.strongest e = some x)
      (hlater : ¬ TsLe (latestTs (s.builder p.2).entries) (s.latestOf x))
  /-- it hides the M3 call of a builder that is not to answer, and that one is the strongest -/
  | call (p : StreamKey ι × BuilderRef ι) (hlate : LateBound (s.builder p.2).entries)
      (hp : p ∈ (s.eligible e).1) (hblocked : blockedOnM3 (s.builder p.2) = true)
      (hx : s.strongest e = some (.builder p.2)) (hnot : ∀ k, (k, p.2) ∉ (s.candidatesBy blockedOnM3 e).1)
  /-- every eligible builder is blocked on M3, it hides the call of one, and a builder that shows its call and was
  heard from after the strongest is left out -/
  | all (p q : StreamKey ι × BuilderRef ι) (x : Owner ι) (hlate : LateBound (s.builder p.2).entries)
      (hp : p ∈ (s.candidates e).1) (hblocked : blockedOnM3 (s.builder p.2) = true)
      (hq : q ∈ (s.candidatesBy blockedOnM3 e).1) (hout : q ∉ (s.candidates e).1) (hx : s.strongest e = some x)
      (hlater : ¬ TsLe (latestTs (s.builder q.2).entries) (s.latestOf x))

theorem eligible_unstamped {p : StreamKey ι × BuilderRef ι} (h : p ∈ (s.eligible e).1) : ¬ s.Stamped p.2 := by
  have hkeys : p ∈ s.openByKey.items.filter (fun p =>
      decide (p.1.server = entryServer e) && !isIdBuilder (s.builder p.2)) := by
    unfold eligible at h
    simp only at h
    split at h
    · exact h
    · exact (List.mem_filter.mp h).1
  have hp := (List.mem_filter.mp hkeys).2
  rw [Bool.and_eq_true] at hp
  unfold Stamped
  simpa using hp.2

/-- A builder of the candidates, by the rule or by the lines taken last, is eligible. -/
theorem candidatesBy_eligible {blocked : TxnBuilder → Bool} {p : StreamKey ι × BuilderRef ι}
    (h : p ∈ (s.candidatesBy blocked e).1) : p ∈ (s.eligible e).1 := by
  unfold candidatesBy at h
  simp only at h
  split at h
  · exact (List.mem_filter.mp h).1
  · exact h

/-- An eligible builder is a candidate, unless it is blocked and others are not. -/
theorem candidatesBy_mem {blocked : TxnBuilder → Bool} {p : StreamKey ι × BuilderRef ι}
    (h : p ∈ (s.eligible e).1) : p ∈ (s.candidatesBy blocked e).1 ↔ blocked (s.builder p.2) = false ∨
      (∀ q ∈ (s.eligible e).1, blocked (s.builder q.2) = true) ∧ (s.eligible e).2 = [] := by
  unfold candidatesBy
  simp only
  split
  · next hothers =>
    rw [List.mem_filter]
    simp only [h, true_and, Bool.not_eq_true', iff_self_or]
    rintro ⟨hall, hnone⟩
    rw [hnone, List.isEmpty_nil, Bool.not_true, Bool.or_false, Bool.not_eq_true', List.isEmpty_eq_false_iff] at hothers
    refine absurd (List.filter_eq_nil_iff.mpr fun q hq => ?_) hothers
    rw [hall q hq]
    exact Bool.false_ne_true
  · next hnone =>
    simp only [h, true_iff]
    simp only [Bool.or_eq_true, Bool.not_eq_true', not_or, Bool.not_eq_false, List.isEmpty_iff] at hnone
    refine .inr ⟨fun q hq => ?_, hnone.2⟩
    have hq' := List.filter_eq_nil_iff.mp hnone.1 q hq
    simpa using hq'

/-- **The rule fails exactly where a request bound late decides.** -/
theorem owns_iff (htail : ∀ p ∈ (s.eligible e).1, EndsLatest (s.builder p.2).entries ∨ LateBound (s.builder p.2).entries) :
    (∀ x, s.strongest e = some x → s.Owns e x) ↔ ¬ s.Misled e := by
  constructor
  · intro howns hmisled
    cases hmisled with
    | time p x _ hp hx hlater => exact hlater ((howns x hx).2.1 p hp)
    | call p _ _ _ hx hnot =>
      obtain ⟨k, hk⟩ := (howns _ hx).1
      exact hnot k hk
    | all p q x _ _ _ hq _ hx hlater => exact hlater ((howns x hx).2.1 q hq)
  · intro hnot x hx
    have hleads := strongest_leads hx
    have hreqs : ∀ req ∈ (s.candidatesBy blockedOnM3 e).2, TsLe req.timestamp (s.latestOf x) := hleads.reqs
    refine ⟨?_, fun q hq => ?_, hreqs⟩
    · -- a strongest builder that the rule leaves out is blocked by a call it does not show
      cases x with
      | request req => exact hleads.among
      | builder r =>
        obtain ⟨k, hk⟩ := hleads.among
        by_contra hout
        rw [candidates_eq] at hk
        have hin := candidatesBy_eligible hk
        have hrule : ¬_ := (candidatesBy_mem hin).not.mp fun h => hout ⟨k, h⟩
        rw [not_or, Bool.not_eq_false] at hrule
        have hshown : awaitingM3 (s.builder r) = false := by
          rcases (candidatesBy_mem hin).mp hk with hshown | ⟨hall, hnone⟩
          · exact hshown
          · refine absurd ⟨fun q hq => ?_, hnone⟩ hrule.2
            exact blockedOnM3_of_awaitingM3 (htail q hq) (hall q hq)
        rcases htail _ hin with hends | hlate
        · rw [blockedOnM3_eq hends, hshown] at hrule
          exact Bool.false_ne_true hrule.1
        · exact hnot (.call (k, r) hlate hin hrule.1 hx fun k' hk' => hout ⟨k', hk'⟩)
    · -- a candidate that the strongest is behind hides its latest line, or is left out
      by_contra hlater
      have hin := candidatesBy_eligible hq
      rcases htail q hin with hends | hlate
      · by_cases hcand : q ∈ (s.candidates e).1
        · have hle := hleads.keys q hcand
          rw [lastTs_eq hends] at hle
          exact hlater hle
        · have hout := hcand
          rw [candidates_eq, candidatesBy_mem hin, not_or, Bool.not_eq_false] at hcand
          rcases (candidatesBy_mem hin).mp hq with hopen | ⟨hall, hnone⟩
          · rw [blockedOnM3_eq hends, hcand.1] at hopen
            cases hopen
          · -- every eligible builder is blocked; one of them does not show it
            have hone : ∃ p ∈ (s.eligible e).1, awaitingM3 (s.builder p.2) = false := by
              by_contra hno
              simp only [not_exists, not_and, Bool.not_eq_false] at hno
              exact hcand.2 ⟨hno, hnone⟩
            obtain ⟨p, hp, hshown⟩ := hone
            have hlate : LateBound (s.builder p.2).entries := by
              refine (htail p hp).resolve_left fun hends' => ?_
              have hblocked := hall p hp
              rw [blockedOnM3_eq hends', hshown] at hblocked
              cases hblocked
            have hpc : p ∈ (s.candidates e).1 := by
              rw [candidates_eq, candidatesBy_mem hp]
              exact .inl hshown
            exact hnot (.all p q x hlate hpc (hall p hp) hq hout hx hlater)
      · exact hnot (.time q x hlate hq hx hlater)

/-- **One unstamped response**: it keeps to the rule exactly where no request bound late decides. -/
theorem Tailed.response (h : Tailed rest seen s) {i : ι} (hi : BuilderRef.line i ∉ seen)
    (hresp : e.entryType = .response) (hid : stampedReqid e = none) :
    JoinsMostRecent s e (s.route i e) ↔ ¬ s.Misled e := by
  have hroute : s.route i e = s.response i e := by
    unfold route routedId
    simp only [hid, hresp]
  rw [hroute, response_joins_iff (h.blank _ hi)]
  exact owns_iff fun p hp => h.tail p.2 (eligible_unstamped hp)

end GroupState

/-! ## §6. Every run. -/

open GroupState

/-- What holds wherever the loop of `_group` routes an unstamped response. -/
def AtResponses (gap : Duration) (seed : Seed) (entries : List LogEntry)
    (P : GroupState ℕ → ℕ → LogEntry → Prop) : Prop :=
  ∀ before e i after, seed.unseen entries = before ++ (e, i) :: after → e.entryType = .response →
    stampedReqid e = none → P (((seedState seed).run gap before).swept gap e) i e

/-- Each unstamped response joins the candidate heard from most recently. -/
def ResponsesOwned (gap : Duration) (seed : Seed) (entries : List LogEntry) : Prop :=
  AtResponses gap seed entries fun s i e => s.JoinsMostRecent e (s.route i e)

/-- An unstamped response does exactly if no request bound late decides. -/
def OwnedUnlessMisled (gap : Duration) (seed : Seed) (entries : List LogEntry) : Prop :=
  AtResponses gap seed entries fun s i e => s.JoinsMostRecent e (s.route i e) ↔ ¬ s.Misled e

/-- A line of server `A` and user `ANN`: id, second, thread, kind. -/
private def annLine (id : UUID) (t : Int) (thread : String) (kind : EntryType) : LogEntry :=
  { id := id
    sourceFile := "A/eSmartServerLog.txt"
    timestamp := some (t * second)
    thread := some thread
    userCtx := some "ANN"
    entryType := kind }

/-- Two conversations, on thread 2 and, heard from last, on thread 1, whose request waited since second 2. -/
def requestBoundLate : List LogEntry :=
  [annLine 1 0 "2" .request, annLine 2 1 "2" .info, annLine 3 2 "1" .request, annLine 4 7 "2" .info,
   annLine 5 10 "1" .info, annLine 6 11 "3" .response]

/-- The state in which the response is routed. -/
private def beforeResponse : GroupState ℕ :=
  ((seedState {}).run (300 * second) (requestBoundLate.zipIdx.take 5)).swept (300 * second) (annLine 6 11 "3" .response)

end RagPipeline.Stage2
