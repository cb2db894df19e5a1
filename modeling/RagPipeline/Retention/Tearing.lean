/-
  RagPipeline.Retention.Tearing — what a tick leaves of the conversations that cross midnight.

  The tables are dropped a day at a time, each on its own.  A conversation is torn when the day of one
  of its lines goes while its own row stays: the row's day is held and the line's is not.  Two things
  hold a day and not the next:

    * an open stitch window, which holds the days it TOUCHES while the rebuild it stands for also reads
      a pad on both sides;
    * the row's day having no partition at all (its row is in DEFAULT).

  Everything else that holds the earlier day holds the later one (`blocked_of_le`), and the later one
  expires later.  `tearsNothing_iff` is the exact condition for one tick.
-/
import RagPipeline.Retention.Worker

namespace RagPipeline.Retention

open RagPipeline.Stage2

/-! ## §1. Conversations and partitions. -/

/-- A stored row of `log_transactions` and the timestamps of the lines it owns: it starts at the
    earliest. -/
structure Conversation where
  startedAt : Option Instant
  lines : List (Option Instant)
  starts : ∀ t, some t ∈ lines → ∃ s, startedAt = some s ∧ s ≤ t

/-- What Stage 2 derives from a transaction's lines. -/
def Conversation.ofLines (es : List LogEntry) : Conversation where
  startedAt := Stage2.startedAt es
  lines := es.map (·.timestamp)
  starts := by
    intro t ht
    obtain ⟨e, he, het⟩ := List.mem_map.mp ht
    have hstamp : t ∈ stamps es := List.mem_filterMap.mpr ⟨e, he, het⟩
    cases hm : (stamps es).min? with
    | none =>
        rw [List.min?_eq_none_iff.mp hm] at hstamp
        exact absurd hstamp (by simp)
    | some s => exact ⟨s, hm, (List.min?_eq_some_iff.mp hm).2 t hstamp⟩

/-- The conversation owns a line of the day. -/
def Conversation.ownsDay (x : Conversation) (d : Day) : Bool :=
  x.lines.any fun t => decide (t.map dayOf = some d)

/-- The partitions of the three log tables, and the conversations that are stored. -/
structure LogTables where
  entryDays : List Day
  assignmentDays : List Day
  transactionDays : List Day
  conversations : List Conversation

/-- The partition of a conversation's row; `none` is DEFAULT, which is never dropped. -/
def LogTables.partition (s : LogTables) (x : Conversation) : Option Day :=
  (x.startedAt.map dayOf).filter fun d => decide (d ∈ s.transactionDays)

/-- The rebuild of a stitch window reads a pad on both sides of it. -/
def StitchWindow.readsDay (pad : Duration) (w : StitchWindow) (d : Day) : Bool :=
  decide (w.rangeStart - pad < dayStart (d + 1) ∧ dayStart d ≤ w.rangeEnd + pad)

/-! ## §2. Ticks. -/

/-- The days whose lines, or whose assignments, the tick drops. -/
def lostDays (c : RetentionSettings) (i : TickInput) (s : LogTables) : List Day :=
  droppedDays c i .logEntries s.entryDays ++ droppedDays c i .logEntryAssignment s.assignmentDays

/-- A tick that succeeds. -/
def LogTables.tick (c : RetentionSettings) (i : TickInput) (s : LogTables) : LogTables :=
  let gone := droppedDays c i .logTransactions s.transactionDays
  { entryDays := s.entryDays.filter fun d => decide (d ∉ droppedDays c i .logEntries s.entryDays)
    assignmentDays :=
      s.assignmentDays.filter fun d => decide (d ∉ droppedDays c i .logEntryAssignment s.assignmentDays)
    transactionDays := s.transactionDays.filter fun d => decide (d ∉ gone)
    conversations :=
      s.conversations.filter fun x => !(s.partition x).any fun d => decide (d ∈ gone) }

/-- No day is lost that a conversation still stored owns a line of, or that the rebuild of an open
    stitch window reads. -/
def TearsNothing (c : RetentionSettings) (pad : Duration) (i : TickInput) (s : LogTables) : Prop :=
  ∀ d ∈ lostDays c i s,
    (∀ x ∈ (s.tick c i).conversations, x.ownsDay d = false) ∧
      ∀ w ∈ i.pending, w.readsDay pad d = false

/-- For each day of lines that is past retention and held by nothing: every conversation that owns a line of it
    has its row in a partition that no open stitch window touches; and an open window, which does not touch the
    day itself or it would hold it, ends more than a pad before the day or starts a pad after it. -/
def HeldTogether (c : RetentionSettings) (pad : Duration) (i : TickInput) (s : LogTables) : Prop :=
  ∀ d ∈ lostDays c i s,
    (∀ x ∈ s.conversations, x.ownsDay d = true →
      ∃ m, s.partition x = some m ∧ ∀ w ∈ i.pending, w.overlaps m = false) ∧
      ∀ w ∈ i.pending, w.rangeEnd + pad < dayStart d ∨ dayStart (d + 1) + pad ≤ w.rangeStart

/-- What happens to the tables: a tick that succeeds, one that fails and is rolled back, and whatever
    the rest of the system makes of them in between. -/
inductive Event where
  | tick (i : TickInput)
  | failed (i : TickInput)
  | world (s : LogTables)

/-- One event. -/
def LogTables.step (c : RetentionSettings) (s : LogTables) : Event → LogTables
  | .tick i => s.tick c i
  | .failed _ => s
  | .world s' => s'

/-- Every tick of a run satisfies `P`. -/
def EveryTick (c : RetentionSettings) (P : TickInput → LogTables → Prop) :
    LogTables → List Event → Prop
  | _, [] => True
  | s, .tick i :: evs => P i s ∧ EveryTick c P (s.step c (.tick i)) evs
  | s, ev :: evs => EveryTick c P (s.step c ev) evs

/-! ## §3. One tick. -/

/-- A day that is lost is past its retention, which is one day longer than the rows', and is held by
    nothing. -/
theorem mem_lostDays {c : RetentionSettings} {i : TickInput} {s : LogTables} {d : Day}
    (h : d ∈ lostDays c i s) :
    d < i.today - (c.logPartitionRetentionDays + 1) ∧ blocked c i d = false := by
  rcases List.mem_append.mp h with h | h
  · exact (mem_droppedDays rfl).mp h |>.2
  · exact (mem_droppedDays rfl).mp h |>.2

theorem partition_eq_some {s : LogTables} {x : Conversation} {m : Day} :
    s.partition x = some m ↔ ∃ t, x.startedAt = some t ∧ dayOf t = m ∧ m ∈ s.transactionDays := by
  unfold LogTables.partition
  rw [Option.filter_eq_some_iff, Option.map_eq_some_iff]
  constructor
  · rintro ⟨⟨t, ht, hd⟩, hm⟩
    exact ⟨t, ht, hd, by simpa using hm⟩
  · rintro ⟨t, ht, hd, hm⟩
    exact ⟨⟨t, ht, hd⟩, by simpa using hm⟩

/-- A conversation does not start after a line it owns. -/
theorem partition_le {s : LogTables} {x : Conversation} {d m : Day} (ho : x.ownsDay d = true)
    (hm : s.partition x = some m) : m ≤ d := by
  obtain ⟨t, ht, hday⟩ := List.any_eq_true.mp ho
  obtain ⟨u, rfl, hu⟩ := Option.map_eq_some_iff.mp (of_decide_eq_true hday)
  obtain ⟨v, hv, hle⟩ := x.starts u ht
  obtain ⟨v', hv', hm', -⟩ := partition_eq_some.mp hm
  rw [hv] at hv'
  obtain rfl := Option.some.inj hv'
  rw [← hm', ← hu]
  exact dayOf_le hle

/-- **When the row of a conversation goes with the day of its line**: it has a partition, and no open
    stitch window touches that. -/
theorem row_dropped_iff {c : RetentionSettings} {i : TickInput} {s : LogTables} {x : Conversation}
    {d : Day} (hd : d ∈ lostDays c i s) (ho : x.ownsDay d = true) :
    ((s.partition x).any fun m => decide (m ∈ droppedDays c i .logTransactions s.transactionDays)) =
        true ↔
      ∃ m, s.partition x = some m ∧ ∀ w ∈ i.pending, w.overlaps m = false := by
  obtain ⟨hpast, hfree⟩ := mem_lostDays hd
  cases hp : s.partition x with
  | none => simp
  | some m =>
      have hle : m ≤ d := partition_le ho hp
      obtain ⟨-, -, -, hcov⟩ := partition_eq_some.mp hp
      have hexp : m < i.today - (c.logPartitionRetentionDays + 0) := by
        have hlt : ∀ a b e r : Int, a ≤ b → b < e - (r + 1) → a < e - (r + 0) := by
          intro a b e r h h'
          omega
        exact hlt m d i.today c.logPartitionRetentionDays hle hpast
      have hdrop : m ∈ droppedDays c i .logTransactions s.transactionDays ↔ blocked c i m = false := by
        rw [mem_droppedDays rfl]
        exact ⟨fun h => h.2.2, fun h => ⟨hcov, hexp, h⟩⟩
      simp only [Option.any_some, decide_eq_true_eq, hdrop, blocked_of_le hle hfree,
        List.any_eq_false, Option.some.injEq, exists_eq_left', Bool.not_eq_true]

/-- The pad of a window reaches a day unless there is more than a pad between them. -/
theorem readsDay_eq_false {pad : Duration} {w : StitchWindow} {d : Day} :
    w.readsDay pad d = false ↔ w.rangeEnd + pad < dayStart d ∨ dayStart (d + 1) + pad ≤ w.rangeStart := by
  have harith : ∀ a b x y q : Int, ¬(a - q < y ∧ x ≤ b + q) ↔ b + q < x ∨ y + q ≤ a := by
    intro a b x y q
    omega
  exact decide_eq_false_iff_not.trans (harith w.rangeStart w.rangeEnd (dayStart d) (dayStart (d + 1)) pad)

/-- **A tick tears nothing exactly when what is held is held together.** -/
theorem tearsNothing_iff (c : RetentionSettings) (pad : Duration) (i : TickInput) (s : LogTables) :
    TearsNothing c pad i s ↔ HeldTogether c pad i s := by
  unfold TearsNothing HeldTogether
  refine forall_congr' fun d => forall_congr' fun hd => ?_
  have hrows : (∀ x ∈ (s.tick c i).conversations, x.ownsDay d = false) ↔
      ∀ x ∈ s.conversations, x.ownsDay d = true →
        ∃ m, s.partition x = some m ∧ ∀ w ∈ i.pending, w.overlaps m = false := by
    constructor
    · intro h x hx ho
      rw [← row_dropped_iff hd ho]
      by_contra hkept
      have hin : x ∈ (s.tick c i).conversations := List.mem_filter.mpr ⟨hx, by simpa using hkept⟩
      rw [h x hin] at ho
      exact absurd ho (by simp)
    · intro h x hx
      obtain ⟨hmem, hkept⟩ := List.mem_filter.mp hx
      cases ho : x.ownsDay d with
      | false => rfl
      | true =>
          have hgone := (row_dropped_iff hd ho).mpr (h x hmem ho)
          rw [hgone] at hkept
          exact absurd hkept (by simp)
  rw [hrows]
  exact and_congr_right fun _ => forall₂_congr fun w _ => readsDay_eq_false

/-! ## §4. Every run. -/

/-- **Whatever happens between the ticks, and whichever of them fail**: no tick of a run tears anything
    exactly when at each of them what is held is held together. -/
theorem everyTick_tearsNothing_iff (c : RetentionSettings) (pad : Duration) (s : LogTables)
    (evs : List Event) :
    EveryTick c (TearsNothing c pad) s evs ↔ EveryTick c (HeldTogether c pad) s evs := by
  induction evs generalizing s with
  | nil => exact Iff.rfl
  | cons ev evs ih =>
      cases ev with
      | tick i =>
          show TearsNothing c pad i s ∧ _ ↔ HeldTogether c pad i s ∧ _
          rw [tearsNothing_iff, ih]
      | failed i => exact ih _
      | world s' => exact ih _

/-! ## §5. A conversation over midnight. -/

/-- It starts a minute before the second day, and owns a line a minute into it. -/
def overMidnight : Conversation where
  startedAt := some (dayStart 1 - 60 * second)
  lines := [some (dayStart 1 - 60 * second), some (dayStart 1 + 60 * second)]
  starts := by
    intro t ht
    refine ⟨_, rfl, ?_⟩
    rcases List.mem_cons.mp ht with h | h
    · rw [Option.some.inj h]
    · rw [Option.some.inj (List.mem_singleton.mp h)]
      decide

/-- Both days have their partitions. -/
def twoDays : LogTables := ⟨[0, 1], [0, 1], [0, 1], [overMidnight]⟩

/-- Day 100; one stitch window of the first day's morning is still open. -/
def morningOpen : TickInput :=
  ⟨100, dayStart 100, [⟨dayStart 0 + 6 * 3600 * second, dayStart 0 + 7 * 3600 * second⟩], [], some []⟩

/-- The window holds the row's day, and the second day's lines go. -/
theorem morningOpen_tears :
    ¬EveryTick {} (TearsNothing {} (900 * second)) twoDays [.tick morningOpen] := by
  rintro ⟨h, -⟩
  have hlost : (1 : Day) ∈ lostDays {} morningOpen twoDays := by decide +kernel
  have hkept : ∃ x ∈ (twoDays.tick {} morningOpen).conversations, x.ownsDay 1 = true := by
    refine ⟨overMidnight, List.mem_filter.mpr ⟨List.mem_singleton_self _, ?_⟩, ?_⟩
    · decide +kernel
    · decide +kernel
  obtain ⟨x, hx, ho⟩ := hkept
  rw [(h 1 hlost).1 x hx] at ho
  exact absurd ho (by simp)

end RagPipeline.Retention
