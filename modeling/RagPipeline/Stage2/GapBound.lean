/-
  RagPipeline.Stage2.GapBound — no group of `_group` spans a quiet time longer than the gap.

  A line reaches a builder by its slot, its id, its user's pending request, or because the builder was
  closed a moment ago.  Staleness is judged by the line a builder took LAST, which need not be its latest;
  but that line is one of its own, so a builder that is not stale has some line near the clock, and two
  sets of lines that both reach near the clock have no wide gap together (`noGap_union`).

    * `Aged`              — the invariant: every builder without a wide gap, the open ones near the clock;
    * `Aged.route`        — one line keeps it; `Aged.step`, `aged_run` — so the loop does;
    * `group_gap_bounded` — the bound on every group returned.
-/
import Mathlib.Algebra.Order.Group.Int
import Mathlib.Data.Set.Finite.Lattice
import RagPipeline.Lib.Gaps
import RagPipeline.Stage2.Conservation
import RagPipeline.Stage2.Growth

namespace RagPipeline.Stage2

open RagPipeline.Lib

/-! ## §1. Times. -/

/-- The timestamps of a list of lines. -/
def times (es : List LogEntry) : List Instant := es.filterMap (·.timestamp)

/-- The timestamps, as a set. -/
def timeSet (es : List LogEntry) : Set Instant := {t | t ∈ times es}

/-- Two timestamps that follow one another in time order are at most `gap` apart. -/
def GapBounded (gap : Duration) (es : List LogEntry) : Prop :=
  ∀ a ∈ times es, ∀ b ∈ times es, a < b → (∀ c ∈ times es, c ≤ a ∨ b ≤ c) → b - a ≤ gap

/-- Every group that is returned is so bounded. -/
def GroupsBounded (gap : Duration) (seed : Seed) (entries : List LogEntry) : Prop :=
  ∀ b ∈ group gap seed entries, GapBounded gap b.entries

theorem gapBounded_iff (gap : Duration) (es : List LogEntry) : GapBounded gap es ↔ NoGap gap (timeSet es) :=
  (noGap_iff_consecutive (times es).finite_toSet).symm

theorem timeSet_append (es es' : List LogEntry) : timeSet (es ++ es') = timeSet es ∪ timeSet es' := by
  ext t
  simp [timeSet, times, List.filterMap_append]

theorem timeSet_nil : timeSet [] = ∅ := by
  ext t
  simp [timeSet, times]

theorem timeSet_one (e : LogEntry) : timeSet [e] = {t | e.timestamp = some t} := by
  ext t
  cases he : e.timestamp with
  | none => simp [timeSet, times, he]
  | some t' =>
    simp only [timeSet, times, List.filterMap_cons, he, List.filterMap_nil, List.mem_singleton,
      Option.some.injEq]
    exact eq_comm

theorem mem_timeSet {es : List LogEntry} {e : LogEntry} {t : Instant} (he : e ∈ es)
    (ht : e.timestamp = some t) : t ∈ timeSet es :=
  List.mem_filterMap.mpr ⟨e, he, ht⟩

/-- `last_ts` is a timestamp of the builder. -/
theorem lastTs_mem {b : TxnBuilder} {t : Instant} (h : lastTs b = some t) : t ∈ timeSet b.entries := by
  obtain ⟨e, he, ht⟩ := List.exists_of_findSome?_eq_some h
  exact mem_timeSet (List.mem_reverse.mp he) ht

/-- A builder with a timestamp has a last one. -/
theorem lastTs_isSome {b : TxnBuilder} {t : Instant} (h : t ∈ timeSet b.entries) : ∃ m, lastTs b = some m := by
  obtain ⟨e, he, ht⟩ := List.mem_filterMap.mp h
  cases hlast : lastTs b with
  | some m => exact ⟨m, rfl⟩
  | none =>
    have hnone := List.findSome?_eq_none_iff.mp hlast e (List.mem_reverse.mpr he)
    rw [ht] at hnone
    cases hnone

/-- A line that was heard from at most `gap` before the clock. -/
theorem near_line {gap : Duration} {clock : Instant} {e : LogEntry}
    (he : ∀ t, e.timestamp = some t → t ≤ clock ∧ clock - gap ≤ t) :
    NoGap gap (timeSet [e]) ∧ Near gap clock (timeSet [e]) := by
  rw [timeSet_one]
  cases ht : e.timestamp with
  | none =>
    have hempty : {t : Instant | none = some t} = ∅ := by
      ext t
      simp
    rw [hempty]
    exact ⟨noGap_empty, near_empty⟩
  | some t =>
    have hsingle : {t' : Instant | some t = some t'} = {t} := by
      ext t'
      simp [eq_comm]
    obtain ⟨hle, hnear⟩ := he t ht
    rw [hsingle]
    exact ⟨noGap_singleton t, near_singleton hle hnear⟩

/-- A line of its own is near the clock it sets. -/
theorem near_one {gap : Duration} (hgap : 0 ≤ gap) {clock : Instant} {e : LogEntry}
    (he : ∀ t, e.timestamp = some t → t = clock) :
    NoGap gap (timeSet [e]) ∧ Near gap clock (timeSet [e]) := by
  have hle : ∀ a b c : ℤ, 0 ≤ a → b = c → c - a ≤ b := by
    intro a b c h h'
    omega
  exact near_line fun t ht => ⟨(he t ht).le, hle gap t clock hgap (he t ht)⟩

namespace GroupState

variable {ι : Type} [DecidableEq ι] {s s' : GroupState ι} {gap : Duration} {clock : Instant}
  {seen : Set (BuilderRef ι)} {i : ι} {e : LogEntry}

/-! ## §2. The invariant. -/

/-- What holds at a clock that no line is ahead of. -/
structure Dated (gap : Duration) (clock : Instant) (seen : Set (BuilderRef ι)) (s : GroupState ι) : Prop
    extends Filed seen s where
  joined : ∀ r, NoGap gap (timeSet (s.builder r).entries)
  past : ∀ r, ∀ t ∈ timeSet (s.builder r).entries, t ≤ clock
  waitingPast : ∀ x ∈ s.pendingReqs, ∀ t, x.timestamp = some t → t ≤ clock
  closed : ∀ p ∈ s.recentlyClosed.items, p.2.2 ∈ timeSet (s.builder p.2.1).entries

/-- **The invariant**: besides, what is open or waits was heard from at most `gap` before the clock. -/
structure Aged (gap : Duration) (clock : Instant) (seen : Set (BuilderRef ι)) (s : GroupState ι) : Prop
    extends Dated gap clock seen s where
  near : ∀ r, s.Open r → Near gap clock (timeSet (s.builder r).entries)
  waiting : ∀ x ∈ s.pendingReqs, NoGap gap (timeSet [x]) ∧ Near gap clock (timeSet [x])

/-! ## §3. What a builder becomes. -/

/-- The lines a builder has before it takes one: no wide gap, and near the clock. -/
theorem Base.near {r : BuilderRef ι} {b' : TxnBuilder} {base : List LogEntry} (hb : Base s i r b' base)
    (h : Aged gap clock seen s) : NoGap gap (timeSet base) ∧ Near gap clock (timeSet base) := by
  cases hb with
  | held ho _ => exact ⟨h.joined r, h.near r ho⟩
  | new _ =>
    rw [timeSet_nil]
    exact ⟨noGap_empty, near_empty⟩

/-- Two lists of lines near the clock, one after the other. -/
theorem near_append {es es' : List LogEntry} (h : NoGap gap (timeSet es) ∧ Near gap clock (timeSet es))
    (h' : NoGap gap (timeSet es') ∧ Near gap clock (timeSet es')) :
    NoGap gap (timeSet (es ++ es')) ∧ Near gap clock (timeSet (es ++ es')) := by
  rw [timeSet_append]
  exact ⟨noGap_union h.1 h'.1 h.2 h'.2, h.2.union h'.2⟩

/-- **A builder that the line changed has no wide gap, and is near the clock.** -/
theorem Grown.near {r : BuilderRef ι} {b' : TxnBuilder} (hg : Grown s i e r b') (h : Aged gap clock seen s)
    (hgap : lateWorkWindow ≤ gap) (he : ∀ t, e.timestamp = some t → t = clock) :
    b' = s.builder r ∨ NoGap gap (timeSet b'.entries) ∧ Near gap clock (timeSet b'.entries) := by
  have hpos : (0 : ℤ) ≤ gap := le_trans (by decide) hgap
  have hone := near_one hpos he
  cases hg with
  | same h => exact Or.inl h
  | took base hb heq =>
    rw [heq]
    exact Or.inr (near_append (hb.near h) hone)
  | late hclosed _ heq =>
    obtain ⟨k, t, now, hm, ht, hin⟩ := hclosed
    -- the conversation has the line that closed it, and that is in the window
    have hlast : clock - gap ≤ t := by
      have hnow := he now ht
      have hle : ∀ a b c d : ℤ, a - b ≤ c → c ≤ d → a - d ≤ b := by
        intro a b c d h1 h2
        omega
      exact hle clock t lateWorkWindow gap (hnow ▸ hin) hgap
    have hnear : Near gap clock (timeSet (s.builder r).entries) :=
      ⟨h.past r, fun a _ => ⟨t, h.closed _ hm, hlast⟩⟩
    rw [heq]
    exact Or.inr (near_append ⟨h.joined r, hnear⟩ hone)
  | bound base hb req hreq heq =>
    rw [heq]
    exact Or.inr (near_append (near_append (hb.near h) hone) (h.waiting req hreq))
  | claimed _ req hreq heq =>
    rw [heq]
    exact Or.inr (near_append (h.waiting req hreq) hone)
  | absorbed base hb _ p hp heq =>
    rw [heq]
    exact Or.inr (near_append (near_append (hb.near h) ⟨h.joined p, h.near p hp⟩) hone)

/-! ## §4. One line. -/

/-- **The routing of a line keeps the invariant.** -/
theorem Aged.route (h : Aged gap clock seen s) (hi : BuilderRef.line i ∉ seen) (hgap : lateWorkWindow ≤ gap)
    (he : ∀ t, e.timestamp = some t → t = clock) :
    Aged gap clock (insert (.line i) seen) (s.route i e) := by
  obtain ⟨hgrows, hfiled⟩ := h.toFiled.route (e := e) hi
  generalize s.route i e = s' at hgrows hfiled
  have hpos : (0 : ℤ) ≤ gap := le_trans (by decide) hgap
  -- every builder is as it was, or took a line that is near
  have hcase : ∀ r, s'.builder r = s.builder r ∨
      NoGap gap (timeSet (s'.builder r).entries) ∧ Near gap clock (timeSet (s'.builder r).entries) :=
    fun r => (hgrows.grown r).near h hgap he
  refine ⟨⟨hfiled, ?_, ?_, ?_, ?_⟩, ?_, ?_⟩
  · intro r
    rcases hcase r with hsame | hnear
    · rw [hsame]
      exact h.joined r
    · exact hnear.1
  · intro r t ht
    rcases hcase r with hsame | hnear
    · rw [hsame] at ht
      exact h.past r t ht
    · exact hnear.2.1 t ht
  · intro x hx t ht
    rcases hgrows.pending x hx with hx | ⟨rfl, -⟩
    · exact h.waitingPast x hx t ht
    · exact (he t ht).le
  · intro p hp
    rcases hgrows.closed p hp with hp | ⟨ht, hmem, -⟩
    · have hseen := h.known p.2.1 (Or.inr ⟨p, hp, rfl⟩)
      obtain ⟨es, hes⟩ := ((hgrows.grown p.2.1).keeps (ne_line hi hseen)).2
      rw [← hes, timeSet_append]
      exact Or.inl (h.closed p hp)
    · exact mem_timeSet hmem ht
  · intro r hr
    rcases hcase r with hsame | hnear
    · rw [hsame]
      rcases hgrows.opened r hr with ho | rfl
      · exact h.near r ho
      · rw [h.blank _ hi, timeSet_nil]
        exact near_empty
    · exact hnear.2
  · intro x hx
    rcases hgrows.pending x hx with hx | ⟨rfl, -⟩
    · exact h.waiting x hx
    · exact near_one hpos he

/-- **The sweep brings everything near its clock.** -/
theorem Dated.sweep (h : Dated gap clock seen s) {now : Instant} (hle : clock ≤ now) :
    Aged gap now seen (s.evictStale gap now) := by
  obtain ⟨hshrunk, hfresh, hwaits⟩ := sweep_shrinks gap s now
  have hfiled := h.toFiled.shrink hshrunk
  generalize s.evictStale gap now = s' at hshrunk hfresh hwaits hfiled
  refine ⟨⟨hfiled, ?_, ?_, ?_, ?_⟩, ?_, ?_⟩
  · intro r
    rw [hshrunk.builder]
    exact h.joined r
  · intro r t ht
    rw [hshrunk.builder] at ht
    exact (h.past r t ht).trans hle
  · intro x hx t ht
    exact (h.waitingPast x (hshrunk.pending x hx) t ht).trans hle
  · intro p hp
    rw [hshrunk.builder]
    exact h.closed p (hshrunk.closed p hp)
  · intro r hr
    rw [hshrunk.builder]
    refine ⟨fun t ht => (h.past r t ht).trans hle, fun t ht => ?_⟩
    obtain ⟨m, hm⟩ := lastTs_isSome ht
    have hnot := hfresh r hr
    unfold stale at hnot
    rw [hm] at hnot
    exact ⟨m, lastTs_mem hm, not_lt.mp (of_decide_eq_false hnot)⟩
  · intro x hx
    have hnot := hwaits x hx
    refine near_line fun t ht => ⟨(h.waitingPast x (hshrunk.pending x hx) t ht).trans hle, ?_⟩
    rw [ht] at hnot
    exact not_lt.mp (of_decide_eq_false hnot)

/-! ## §5. The loop. -/

/-- The clock after a line. -/
def tick (clock : Instant) (e : LogEntry) : Instant := e.timestamp.getD clock

/-- **One turn of the loop keeps the invariant.** -/
theorem Aged.step (h : Aged gap clock seen s) (hi : BuilderRef.line i ∉ seen) (hgap : lateWorkWindow ≤ gap)
    (hle : ∀ t, e.timestamp = some t → clock ≤ t) :
    Aged gap (tick clock e) (insert (.line i) seen) (s.step gap i e) := by
  unfold GroupState.step swept tick
  cases ht : e.timestamp with
  | none => exact h.route hi hgap (fun t ht' => by rw [ht] at ht'; cases ht')
  | some now =>
    refine (h.toDated.sweep (hle now ht)).route hi hgap fun t ht' => ?_
    rw [ht] at ht'
    exact (Option.some.inj ht').symm

/-- The lines still to come are not before the clock. -/
theorem le_tick {y : LogEntry} (hey : timeLe e y = true) (hle : ∀ t, y.timestamp = some t → clock ≤ t) :
    ∀ t, y.timestamp = some t → tick clock e ≤ t := by
  intro t ht
  unfold tick
  cases he : e.timestamp with
  | none => exact hle t ht
  | some now =>
    unfold timeLe at hey
    rw [he, ht] at hey
    exact of_decide_eq_true hey

/-- **Along a run of the loop.** -/
theorem aged_run (hgap : lateWorkWindow ≤ gap) (xs : List (LogEntry × ι))
    (hsorted : (xs.map Prod.fst).Pairwise fun a b => timeLe a b = true) (htags : (xs.map Prod.snd).Nodup)
    {s : GroupState ι} {clock : Instant} {seen : Set (BuilderRef ι)} (h : Aged gap clock seen s)
    (hfresh : ∀ p ∈ xs, BuilderRef.line p.2 ∉ seen)
    (hle : ∀ p ∈ xs, ∀ t, p.1.timestamp = some t → clock ≤ t) :
    ∃ clock' seen', Aged gap clock' seen' (s.run gap xs) := by
  induction xs generalizing s clock seen with
  | nil => exact ⟨clock, seen, h⟩
  | cons p xs ih =>
    obtain ⟨e, i⟩ := p
    obtain ⟨hfirst, hrest⟩ := List.pairwise_cons.mp hsorted
    obtain ⟨htag, hnodup⟩ := List.nodup_cons.mp htags
    have hstep := h.step (hfresh _ List.mem_cons_self) hgap (hle (e, i) List.mem_cons_self)
    refine ih hrest hnodup hstep (fresh_insert htag fun q hq => hfresh q (List.mem_cons_of_mem _ hq)) ?_
    intro q hq
    exact le_tick (hfirst q.1 (List.mem_map_of_mem hq)) (hle q (List.mem_cons_of_mem _ hq))

/-! ## §6. The seeds. -/

/-- A seeded stream is planted. -/
theorem Dated.plant {n : ℕ} (h : Dated gap clock (seedRefs n) s) {st : SeedStream}
    (hbound : NoGap gap (timeSet st.entries)) (hpast : ∀ t ∈ timeSet st.entries, t ≤ clock) :
    Dated gap clock (seedRefs (n + 1)) (s.plant n st) := by
  have hfiled := h.toFiled.plant st
  rcases plants s n st with hskip | hplants
  · rw [hskip] at hfiled ⊢
    exact { h with toFiled := hfiled }
  · generalize s.plant n st = s' at hfiled hplants
    refine ⟨hfiled, ?_, ?_, fun x hx => h.waitingPast x (hplants.pending ▸ hx), ?_⟩
    · intro r
      rw [hplants.builder]
      split
      · exact hbound
      · exact h.joined r
    · intro r t ht
      rw [hplants.builder] at ht
      split at ht
      · exact hpast t ht
      · exact h.past r t ht
    · intro p hp
      rw [hplants.closed] at hp
      rw [hplants.other (h.known p.2.1 (Or.inr ⟨p, hp, rfl⟩))]
      exact h.closed p hp

/-- The state the loop starts from. -/
theorem dated_seed {seed : Seed} (hbound : ∀ st ∈ seed.streams, GapBounded gap st.entries)
    (hrequests : ∀ x ∈ seed.pending, x.entryType = .request)
    (hpast : ∀ t ∈ timeSet seed.lines, t ≤ clock) :
    Dated gap clock (seedRefs (ι := ι) seed.streams.length) (seedState seed) := by
  have hempty : Dated gap clock (seedRefs (ι := ι) 0) ({} : GroupState ι) := by
    refine ⟨filed_empty, fun r => ?_, fun r t ht => ?_, fun x hx => absurd hx List.not_mem_nil,
      fun p hp => absurd hp List.not_mem_nil⟩
    · show NoGap gap (timeSet [])
      rw [timeSet_nil]
      exact noGap_empty
    · have ht' : t ∈ timeSet [] := ht
      rw [timeSet_nil] at ht'
      exact absurd ht' (Set.notMem_empty t)
  have hlines : ∀ es : List LogEntry, (∀ x ∈ es, x ∈ seed.lines) → ∀ t ∈ timeSet es, t ≤ clock := by
    intro es hes t ht
    obtain ⟨x, hx, hxt⟩ := List.mem_filterMap.mp ht
    exact hpast t (mem_timeSet (hes x hx) hxt)
  have hstreams := plant_induction (P := fun n s => Dated gap clock (seedRefs (ι := ι) n) s) seed.streams 0
      hempty fun m s st hst h =>
    h.plant ((gapBounded_iff gap st.entries).mp (hbound st hst))
      (hlines st.entries fun x hx => List.mem_append_left _ (List.mem_flatMap.mpr ⟨st, hst, hx⟩))
  have hwaits : ∀ (seen : Set (BuilderRef ι)) (s : GroupState ι), Dated gap clock seen s →
      Dated gap clock seen { s with pendingReqs := seed.pending } := fun seen s h =>
    { h with
      waitingPast := fun x hx t ht => hpast t (mem_timeSet (List.mem_append_right _ hx) ht)
      requests := hrequests }
  rw [Nat.zero_add] at hstreams
  exact hwaits _ _ hstreams

end GroupState

/-! ## §7. The groups. -/

open GroupState

/-- With nothing seeded, no clock is too early for the first line. -/
theorem aged_unseeded {gap : Duration} {seed : Seed} (hnil : seed.lines = [])
    (hseed : ∀ st ∈ seed.streams, GapBounded gap st.entries)
    (hrequests : ∀ x ∈ seed.pending, x.entryType = .request) (clock : Instant) :
    Aged gap clock (seedRefs seed.streams.length) (seedState (ι := ℕ) seed) := by
  have hdated : ∀ clock, Dated gap clock (seedRefs seed.streams.length) (seedState (ι := ℕ) seed) := by
    intro clock
    refine dated_seed hseed hrequests fun t ht => ?_
    rw [hnil, timeSet_nil] at ht
    exact absurd ht (Set.notMem_empty t)
  have hpending : seed.pending = [] := (List.append_eq_nil_iff.mp hnil).2
  refine ⟨hdated clock, fun r _ => ?_, fun x hx => ?_⟩
  · -- a time in a builder would be no later than itself less one
    have hempty : timeSet ((seedState (ι := ℕ) seed).builder r).entries = ∅ := by
      refine Set.eq_empty_iff_forall_notMem.mpr fun t ht => ?_
      have hle := (hdated (t - 1)).past r t ht
      have hfalse : ∀ a : ℤ, ¬ a ≤ a - 1 := by
        intro a
        omega
      exact hfalse t hle
    rw [hempty]
    exact near_empty
  · have hx' : x ∈ seed.pending := hx
    rw [hpending] at hx'
    exact absurd hx' List.not_mem_nil

/-- The loop leaves every builder without a wide gap. -/
theorem joined_final {gap : Duration} (hgap : lateWorkWindow ≤ gap) {seed : Seed} {entries : List LogEntry}
    (hsorted : entries.Pairwise fun a b => timeLe a b = true)
    (hseed : ∀ st ∈ seed.streams, GapBounded gap st.entries)
    (hrequests : ∀ x ∈ seed.pending, x.entryType = .request)
    (hlater : seed.lines ≠ [] → ∀ e ∈ entries, ∃ now, e.timestamp = some now ∧
      ∀ a ∈ seed.lines, ∀ t, a.timestamp = some t → t ≤ now) (r : BuilderRef ℕ) :
    NoGap gap (timeSet ((groupFinal gap seed entries).builder r).entries) := by
  have hlines : ((seed.unseen entries).map Prod.fst).Pairwise fun a b => timeLe a b = true := by
    rw [unseen_lines]
    exact hsorted.sublist List.filter_sublist
  have hmem : ∀ p ∈ seed.unseen entries, p.1 ∈ entries := by
    intro p hp
    have hin : p.1 ∈ (seed.unseen entries).map Prod.fst := List.mem_map_of_mem hp
    rw [unseen_lines] at hin
    exact (List.mem_filter.mp hin).1
  have htags := unseen_tags seed entries
  have hfresh : ∀ (xs : List (LogEntry × ℕ)), ∀ p ∈ xs,
      BuilderRef.line p.2 ∉ seedRefs (ι := ℕ) seed.streams.length := by
    rintro xs p - ⟨m, -, h⟩
    cases h
  unfold groupFinal
  by_cases hnil : seed.lines = []
  · -- nothing is seeded, so any clock that no line is behind will do
    obtain ⟨clock, hclock⟩ := Set.Finite.bddBelow (times entries).finite_toSet
    have hage := aged_unseeded hnil hseed hrequests clock
    obtain ⟨_, _, hend⟩ := aged_run hgap _ hlines htags hage (hfresh _)
      fun p hp t ht => hclock (mem_timeSet (hmem p hp) ht)
    exact hend.joined r
  · cases hunseen : seed.unseen entries with
    | nil =>
      obtain ⟨bound, hbound⟩ := Set.Finite.bddAbove (times seed.lines).finite_toSet
      exact (dated_seed (ι := ℕ) hseed hrequests fun t ht => hbound ht).joined r
    | cons p xs =>
      -- the first line sweeps at its own time, which no seeded line is ahead of
      obtain ⟨e, i⟩ := p
      rw [hunseen] at hlines htags hmem
      obtain ⟨hfirst, hrest⟩ := List.pairwise_cons.mp hlines
      obtain ⟨htag, hnodup⟩ := List.nodup_cons.mp htags
      obtain ⟨now, hnow, hpast⟩ := hlater hnil e (hmem (e, i) List.mem_cons_self)
      have hdated : Dated gap now (seedRefs seed.streams.length) (seedState (ι := ℕ) seed) := by
        refine dated_seed hseed hrequests fun t ht => ?_
        obtain ⟨a, ha, hat⟩ := List.mem_filterMap.mp ht
        exact hpast a ha t hat
      have hstep : Aged gap now (insert (.line i) (seedRefs seed.streams.length))
          ((seedState (ι := ℕ) seed).step gap i e) := by
        unfold GroupState.step swept
        rw [hnow]
        refine (hdated.sweep le_rfl).route (hfresh [(e, i)] (e, i) List.mem_cons_self) hgap fun t ht => ?_
        exact Option.some.inj (ht.symm.trans hnow)
      obtain ⟨_, _, hend⟩ := aged_run hgap xs hrest hnodup hstep (fresh_insert htag (hfresh xs)) fun q hq t ht => by
        have hle := hfirst q.1 (List.mem_map_of_mem hq)
        unfold timeLe at hle
        rw [hnow, ht] at hle
        exact of_decide_eq_true hle
      exact hend.joined r

/-- **No group of `_group` spans a quiet time longer than the gap.** -/
theorem group_gap_bounded (gap : Duration) (hgap : lateWorkWindow ≤ gap) (seed : Seed)
    (entries : List LogEntry) (hsorted : entries.Pairwise fun a b => timeLe a b = true)
    (hseed : ∀ st ∈ seed.streams, GapBounded gap st.entries)
    (hrequests : ∀ x ∈ seed.pending, x.entryType = .request)
    (hlater : seed.lines ≠ [] → ∀ e ∈ entries, ∃ now, e.timestamp = some now ∧
      ∀ a ∈ seed.lines, ∀ t, a.timestamp = some t → t ≤ now) : GroupsBounded gap seed entries := by
  intro b hb
  obtain ⟨x, -, rfl⟩ := List.mem_map.mp hb
  rw [gapBounded_iff]
  cases x with
  | shared r => exact joined_final hgap hsorted hseed hrequests hlater r
  | lone e =>
    show NoGap gap (timeSet [e])
    intro a ha c hc hlt
    rw [timeSet_one] at ha hc
    have heq : a = c := Option.some.inj (ha.symm.trans hc)
    exact absurd hlt (heq ▸ lt_irrefl a)

/-- A stamped conversation on two threads, and a line that comes too late for it. -/
theorem group_gap_bounded_idle : GroupsBounded (300 * second) {} idleOnTwoThreads :=
  group_gap_bounded (300 * second) (by decide) {} idleOnTwoThreads (by decide)
    (fun _ h => absurd h List.not_mem_nil) (fun _ h => absurd h List.not_mem_nil) (fun h => absurd rfl h)

end RagPipeline.Stage2
