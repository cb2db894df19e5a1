/-
  RagPipeline.Notifications.Rollup — the burst cap of a rule, and the summaries of what it suppressed.

  `enqueue` writes an event with one delivery for each channel, all of them suppressed once the rule has
  spent its cap; `run_once` publishes, for the window before the present one, a summary for each rule
  with a suppressed delivery in it.

    * `inv_step`        — a summary is published in the one window where a tick can publish it, and its
                          total counts DELIVERIES of the events of its own window;
    * `conserved_iff`   — suppressed events are summarised once, and the totals add up, exactly when each
                          window is ticked right after it and each event has one channel;
    * `twoChannels_not_conserved` — an event on two channels is announced as two.
-/
import Mathlib.Algebra.Order.BigOperators.Group.List
import Mathlib.Algebra.Order.Group.Nat
import Mathlib.Data.List.Dedup
import RagPipeline.Lib.Groups
import RagPipeline.Notifications.Alerts

namespace RagPipeline.Notifications

open RagPipeline.Stage2 RagPipeline.Lib

/-! ## §1. Windows and rows. -/

/-- `notification_rollup_window_seconds`, `notification_rule_burst_cap`. -/
structure RollupSettings where
  windowSeconds : Int := 300
  ruleBurstCap : Int := 5
  pos : 0 < windowSeconds := by decide

/-- `DeliveryStatus`, as a delivery is created; the drain never touches one that is suppressed. -/
inductive DeliveryStatus where
  | pending | suppressed
  deriving DecidableEq, Repr

/-- A `dedup_key`: the one of a summary is made of its rule and its window. -/
inductive DedupKey where
  | event (text : String)
  | rollup (rule : RuleId) (window : Int)
  deriving DecidableEq, Repr

/-- A row of `notification_events` with its deliveries; `suppressedTotal` is the figure a summary
    announces. -/
structure EventRow where
  key : DedupKey
  ruleId : Option RuleId
  title : String
  createdAt : Instant
  deliveries : List DeliveryStatus
  suppressedTotal : Option ℕ := none
  deriving DecidableEq, Repr

/-- `NotificationRule`: its name, and `match["burst_cap"]` where that is a number. -/
structure NotificationRule where
  customerCode : String
  name : String
  burstCap : Option Int := none

/-- `burst_cap`. -/
def burstCap (c : RollupSettings) (rule : Option NotificationRule) : Int :=
  match rule.bind NotificationRule.burstCap with
  | none => c.ruleBurstCap
  | some value => if 0 ≤ value then value else c.ruleBurstCap

/-- `window_index`. -/
def windowIndex (c : RollupSettings) (t : Instant) : Int := t.tdiv second / c.windowSeconds

/-- Where a window begins. -/
def windowStart (c : RollupSettings) (index : Int) : Instant := index * c.windowSeconds * second

/-- The deliveries of a row that are suppressed. -/
def EventRow.suppressedCount (e : EventRow) : ℕ := e.deliveries.countP fun d => decide (d = .suppressed)

/-- An event suppressed in favour of a summary. -/
def EventRow.isSuppressed (e : EventRow) : Bool := decide (e.suppressedCount ≠ 0)

/-- `should_suppress`. -/
def shouldSuppress (alreadySent : ℕ) (cap : Int) : Bool := decide (cap ≤ alreadySent)

/-- `count_delivered_this_window`: everything that is not suppressed. -/
def countDelivered (rows : List EventRow) (rule : RuleId) (since : Instant) : ℕ :=
  ((rows.filter fun e => decide (e.ruleId = some rule ∧ since ≤ e.createdAt)).map fun e =>
    e.deliveries.countP fun d => decide (d ≠ .suppressed)).sum

/-- `_delivery_status_for`: without a rule, and for a summary, always `pending`. -/
def deliveryStatusFor (c : RollupSettings) (rows : List EventRow) (now : Instant) (key : DedupKey)
    (ruleId : Option RuleId) (rule : Option NotificationRule) : DeliveryStatus :=
  match key, ruleId with
  | .event _, some r =>
      if shouldSuppress (countDelivered rows r (now - c.windowSeconds * second)) (burstCap c rule) then
        .suppressed
      else .pending
  | _, _ => .pending

/-- `enqueue`, as far as the database goes; `channels` is how many channels the event is for. -/
def enqueueRow (c : RollupSettings) (rows : List EventRow) (now : Instant) (key : DedupKey)
    (ruleId : Option RuleId) (title : String) (total : Option ℕ) (rule : Option NotificationRule)
    (channels : ℕ) : List EventRow :=
  if key ∈ rows.map EventRow.key then rows
  else rows ++ [{
    key := key
    ruleId := ruleId
    title := title
    createdAt := now
    deliveries := List.replicate channels (deliveryStatusFor c rows now key ruleId rule)
    suppressedTotal := total }]

/-! ## §2. A tick. -/

/-- `_windows_to_summarise`: the rule and the title of each suppressed DELIVERY of the window. -/
def windowsToSummarise (c : RollupSettings) (rows : List EventRow) (index : Int) :
    List (RuleId × String) :=
  rows.flatMap fun e =>
    if windowStart c index ≤ e.createdAt ∧
        e.createdAt < windowStart c index + c.windowSeconds * second then
      match e.ruleId with
      | none => []
      | some r => (e.deliveries.filter fun d => decide (d = .suppressed)).map fun _ => (r, e.title)
    else []

/-- The title of `build_summary`. -/
def summaryTitle (c : RollupSettings) (rule : NotificationRule) (total : ℕ) : String :=
  "[" ++ rule.customerCode ++ "] " ++ toString total ++ " more alerts from “" ++ rule.name ++
    "” in the last " ++ toString (max 1 (c.windowSeconds / 60)) ++ " min"

/-- `_summarise_rule`; `fails` where the outbox cannot be written, which the bus only logs. -/
def summariseRule (c : RollupSettings) (now : Instant) (index : Int)
    (rules : RuleId → Option NotificationRule) (channels : RuleId → ℕ) (fails : RuleId → Bool)
    (titles : List (RuleId × String)) (rows : List EventRow) (r : RuleId) : List EventRow :=
  match rules r with
  | none => rows
  | some rule =>
    let total := (titles.filter fun p => decide (p.1 = r)).length
    if fails r then rows
    else enqueueRow c rows now (.rollup r index) (some r) (summaryTitle c rule total) (some total)
      (some rule) (channels r)

/-- **`run_once`**: the window before the present one. -/
def runOnce (c : RollupSettings) (now : Instant) (rules : RuleId → Option NotificationRule)
    (channels : RuleId → ℕ) (fails : RuleId → Bool) (rows : List EventRow) : List EventRow :=
  let index := windowIndex c now - 1
  let titles := windowsToSummarise c rows index
  (titles.map Prod.fst).dedup.foldl (summariseRule c now index rules channels fails titles) rows

/-- The outbox, and the time of the last move. -/
structure Notices where
  rows : List EventRow := []
  time : Instant := 0
  deriving DecidableEq, Repr

/-- What can happen: an event is published, or the worker ticks. -/
inductive RollupMove where
  | publish (now : Instant) (key : String) (ruleId : Option RuleId) (title : String)
      (rule : Option NotificationRule) (channels : ℕ)
  | tick (now : Instant) (rules : RuleId → Option NotificationRule) (channels : RuleId → ℕ)
      (fails : RuleId → Bool)

/-- When it happens. -/
def RollupMove.now : RollupMove → Instant
  | .publish now _ _ _ _ _ => now
  | .tick now _ _ _ => now

/-- The rows after a move. -/
def RollupMove.rows (c : RollupSettings) (rows : List EventRow) : RollupMove → List EventRow
  | .publish now key ruleId title rule channels =>
      enqueueRow c rows now (.event key) ruleId title none rule channels
  | .tick now rules channels fails => runOnce c now rules channels fails rows

/-- **One move**; the clock does not go back. -/
def Notices.move (c : RollupSettings) (s : Notices) (m : RollupMove) : Option Notices :=
  if s.time ≤ m.now then some ⟨m.rows c s.rows, m.now⟩ else none

/-! ## §3. The claim. -/

/-- A window that no tick can summarise any more. -/
def Over (c : RollupSettings) (s : Notices) (index : Int) : Prop := index + 1 < windowIndex c s.time

instance (c : RollupSettings) (s : Notices) (index : Int) : Decidable (Over c s index) :=
  inferInstanceAs (Decidable (_ < _))

/-- What the summary of a window that is over announces. -/
def EventRow.announced (c : RollupSettings) (s : Notices) (e : EventRow) : Option ℕ :=
  match e.key with
  | .event _ => none
  | .rollup _ index => if Over c s index then e.suppressedTotal else none

/-- **Suppressed events are summarised exactly once, and the totals add up**, of all windows that are
    over. -/
structure Conserved (c : RollupSettings) (s : Notices) : Prop where
  once : ∀ e ∈ s.rows, e.isSuppressed = true → Over c s (windowIndex c e.createdAt) →
    ∃ r, e.ruleId = some r ∧
      s.rows.countP (fun summary => decide (summary.key = .rollup r (windowIndex c e.createdAt))) = 1
  totals : (s.rows.filterMap (EventRow.announced c s)).sum =
    s.rows.countP fun e => e.isSuppressed && decide (Over c s (windowIndex c e.createdAt))

/-- A tick in the window after this one finds the rule and can write its summary. -/
def RollupMove.Summarises (c : RollupSettings) (r : RuleId) (index : Int) : RollupMove → Prop
  | .publish .. => False
  | .tick now rules _ fails =>
      windowIndex c now = index + 1 ∧ (rules r).isSome = true ∧ fails r = false

/-! ## §4. What a window holds. -/

section Windows

variable {c : RollupSettings}

theorem windowIndex_mono {t t' : Instant} (h₀ : 0 ≤ t) (h : t ≤ t') : windowIndex c t ≤ windowIndex c t' := by
  unfold windowIndex
  rw [Int.tdiv_eq_ediv_of_nonneg h₀, Int.tdiv_eq_ediv_of_nonneg (h₀.trans h)]
  exact Int.ediv_le_ediv c.pos (Int.ediv_le_ediv (by decide) h)

/-- An instant lies in the window of its index. -/
theorem window_iff {t : Instant} (h₀ : 0 ≤ t) (index : Int) :
    (windowStart c index ≤ t ∧ t < windowStart c index + c.windowSeconds * second) ↔
      windowIndex c t = index := by
  have hsecond : (0 : Int) < second := by decide
  have hpos : 0 < c.windowSeconds * second := Int.mul_pos c.pos hsecond
  have hdiv : windowIndex c t = t / (c.windowSeconds * second) := by
    unfold windowIndex
    rw [Int.tdiv_eq_ediv_of_nonneg h₀, Int.mul_comm, Int.ediv_ediv_of_nonneg hsecond.le]
  have hstart : windowStart c index = index * (c.windowSeconds * second) := Int.mul_assoc ..
  have hnext : windowStart c index + c.windowSeconds * second =
      (index + 1) * (c.windowSeconds * second) := by
    rw [hstart, Int.add_mul, Int.one_mul]
  rw [hdiv, hnext, hstart, ← Int.le_ediv_iff_mul_le hpos, ← Int.ediv_lt_iff_lt_mul hpos]
  constructor
  · rintro ⟨h₁, h₂⟩
    omega
  · rintro rfl
    omega

/-- The rule and the window of an event. -/
def EventRow.group (c : RollupSettings) (e : EventRow) : Option (RuleId × Int) :=
  e.ruleId.map fun r => (r, windowIndex c e.createdAt)

/-- The suppressed deliveries of a rule in a window. -/
def suppressedIn (c : RollupSettings) (rows : List EventRow) (r : RuleId) (index : Int) : ℕ :=
  ((rows.filter fun e => decide (e.group c = some (r, index))).map EventRow.suppressedCount).sum

/-- **What a tick counts for a rule.** -/
theorem length_titles {rows : List EventRow} (h : ∀ e ∈ rows, 0 ≤ e.createdAt) (index : Int)
    (r : RuleId) :
    ((windowsToSummarise c rows index).filter fun p => decide (p.1 = r)).length =
      suppressedIn c rows r index := by
  induction rows with
  | nil => rfl
  | cons e rows ih =>
    have hrest := ih fun e' he' => h e' (List.mem_cons_of_mem _ he')
    have hwindow := window_iff (c := c) (h e List.mem_cons_self) index
    unfold windowsToSummarise suppressedIn at hrest ⊢
    rw [List.flatMap_cons, List.filter_append, List.length_append, hrest]
    unfold EventRow.group
    by_cases hin : windowIndex c e.createdAt = index
    · rw [if_pos (hwindow.mpr hin)]
      cases hrule : e.ruleId with
      | none => simp [hrule]
      | some r' =>
        by_cases hr : r' = r
        · simp [hrule, hr, hin, EventRow.suppressedCount, List.countP_eq_length_filter]
        · simp [hrule, hr]
    · rw [if_neg (fun h => hin (hwindow.mp h))]
      cases hrule : e.ruleId with
      | none => simp [hrule]
      | some r' => simp [hrule, hin]

/-- The rules of a tick are those with a suppressed delivery. -/
theorem mem_rules {rows : List EventRow} (h : ∀ e ∈ rows, 0 ≤ e.createdAt) {index : Int} {r : RuleId} :
    r ∈ ((windowsToSummarise c rows index).map Prod.fst).dedup ↔ 0 < suppressedIn c rows r index := by
  rw [List.mem_dedup, ← length_titles h, List.length_pos_iff_exists_mem]
  constructor
  · intro hr
    obtain ⟨p, hp, rfl⟩ := List.mem_map.mp hr
    exact ⟨p, List.mem_filter.mpr ⟨hp, decide_eq_true rfl⟩⟩
  · rintro ⟨p, hp⟩
    obtain ⟨hp, heq⟩ := List.mem_filter.mp hp
    exact List.mem_map.mpr ⟨p, hp, of_decide_eq_true heq⟩

/-- Rows of later windows, or without a suppressed delivery, add nothing. -/
theorem suppressedIn_append {rows news : List EventRow} {r : RuleId} {index : Int}
    (h : ∀ e ∈ news, e.group c = some (r, index) → e.suppressedCount = 0) :
    suppressedIn c (rows ++ news) r index = suppressedIn c rows r index := by
  have hzero : suppressedIn c news r index = 0 := by
    unfold suppressedIn
    rw [List.sum_eq_zero]
    intro n hn
    obtain ⟨e, he, rfl⟩ := List.mem_map.mp hn
    obtain ⟨he, hgroup⟩ := List.mem_filter.mp he
    exact h e he (of_decide_eq_true hgroup)
  unfold suppressedIn at hzero ⊢
  rw [List.filter_append, List.map_append, List.sum_append, hzero, Nat.add_zero]

end Windows

/-! ## §5. What a tick publishes. -/

/-- A summary, as a tick writes it. -/
structure IsSummary (now : Instant) (r : RuleId) (index : Int) (total : ℕ) (e : EventRow) : Prop where
  key : e.key = .rollup r index
  total : e.suppressedTotal = some total
  unsuppressed : e.suppressedCount = 0
  createdAt : e.createdAt = now

/-- `enqueue` of a summary: nothing where its key is there, else the summary. -/
theorem enqueue_summary (c : RollupSettings) (rows : List EventRow) (now : Instant) (r : RuleId)
    (index : Int) (title : String) (total : ℕ) (rule : Option NotificationRule) (channels : ℕ) :
    (DedupKey.rollup r index ∈ rows.map EventRow.key ∧
      enqueueRow c rows now (.rollup r index) (some r) title (some total) rule channels = rows) ∨
    (DedupKey.rollup r index ∉ rows.map EventRow.key ∧ ∃ e, IsSummary now r index total e ∧
      enqueueRow c rows now (.rollup r index) (some r) title (some total) rule channels =
        rows ++ [e]) := by
  unfold enqueueRow
  split
  · next hin => exact Or.inl ⟨hin, rfl⟩
  · next hnot =>
    refine Or.inr ⟨hnot, _, ⟨rfl, rfl, ?_, rfl⟩, rfl⟩
    simp [EventRow.suppressedCount, deliveryStatusFor, List.countP_replicate]

section Tick

variable {c : RollupSettings} {now : Instant} {index : Int} {rules : RuleId → Option NotificationRule}
  {channels : RuleId → ℕ} {fails : RuleId → Bool} {titles : List (RuleId × String)}

/-- One rule of a tick. -/
theorem summariseRule_spec (rows : List EventRow) (r : RuleId) :
    (summariseRule c now index rules channels fails titles rows r = rows ∧
      ((rules r).isSome = true → fails r = false → DedupKey.rollup r index ∈ rows.map EventRow.key)) ∨
    (DedupKey.rollup r index ∉ rows.map EventRow.key ∧ (rules r).isSome = true ∧ fails r = false ∧
      ∃ e, IsSummary now r index (titles.filter fun p => decide (p.1 = r)).length e ∧
        summariseRule c now index rules channels fails titles rows r = rows ++ [e]) := by
  unfold summariseRule
  cases hrule : rules r with
  | none => exact Or.inl ⟨rfl, fun h => absurd h (by simp)⟩
  | some rule =>
    cases hfails : fails r with
    | true => exact Or.inl ⟨by simp, fun _ h => absurd h (by simp)⟩
    | false =>
      simp only [Bool.false_eq_true, if_false]
      rcases enqueue_summary c rows now r index
        (summaryTitle c rule (titles.filter fun p => decide (p.1 = r)).length)
        (titles.filter fun p => decide (p.1 = r)).length (some rule) (channels r) with
        ⟨hin, heq⟩ | ⟨hnot, e, he, heq⟩
      · exact Or.inl ⟨heq, fun _ _ => hin⟩
      · exact Or.inr ⟨hnot, rfl, trivial, e, he, heq⟩

/-- **A tick**: new summaries, for the rules that can be summarised, and each of those has one. -/
theorem tick_spec (rs : List RuleId) (rows : List EventRow) :
    ∃ news, rs.foldl (summariseRule c now index rules channels fails titles) rows = rows ++ news ∧
      (∀ e ∈ news, ∃ r ∈ rs, (rules r).isSome = true ∧ fails r = false ∧
        IsSummary now r index (titles.filter fun p => decide (p.1 = r)).length e) ∧
      ((rows.map EventRow.key).Nodup → ((rows ++ news).map EventRow.key).Nodup) ∧
      ∀ r ∈ rs, (rules r).isSome = true → fails r = false →
        DedupKey.rollup r index ∈ (rows ++ news).map EventRow.key := by
  induction rs generalizing rows with
  | nil => exact ⟨[], by simp, by simp, by simp, by simp⟩
  | cons r rs ih =>
    rw [List.foldl_cons]
    rcases @summariseRule_spec c now index rules channels fails titles rows r with
      ⟨heq, hthere⟩ | ⟨hnot, hsome, hfails, e, he, heq⟩
    · -- this rule adds nothing
      rw [heq]
      obtain ⟨news, hfold, hnews, hnodup, hall⟩ := ih rows
      refine ⟨news, hfold, ?_, hnodup, ?_⟩
      · intro e' he'
        obtain ⟨r', hr', hrest⟩ := hnews e' he'
        exact ⟨r', List.mem_cons_of_mem _ hr', hrest⟩
      · intro r' hr' hsome hfails
        rcases List.mem_cons.mp hr' with rfl | hr'
        · rw [List.map_append]
          exact List.mem_append_left _ (hthere hsome hfails)
        · exact hall r' hr' hsome hfails
    · rw [heq]
      obtain ⟨news, hfold, hnews, hnodup, hall⟩ := ih (rows ++ [e])
      -- this rule adds its summary, under a key that was free
      have hassoc : rows ++ [e] ++ news = rows ++ e :: news := by simp
      rw [hassoc] at hfold hnodup hall
      refine ⟨e :: news, hfold, ?_, ?_, ?_⟩
      · intro e' he'
        rcases List.mem_cons.mp he' with rfl | he'
        · exact ⟨r, List.mem_cons_self, hsome, hfails, he⟩
        · obtain ⟨r', hr', hrest⟩ := hnews e' he'
          exact ⟨r', List.mem_cons_of_mem _ hr', hrest⟩
      · intro hn
        apply hnodup
        rw [List.map_append, List.nodup_append]
        refine ⟨hn, List.nodup_singleton _, ?_⟩
        intro key hkey key' hkey'
        obtain rfl : key' = e.key := List.mem_singleton.mp hkey'
        rw [he.key]
        rintro rfl
        exact hnot hkey
      · intro r' hr' hsome' hfails'
        rcases List.mem_cons.mp hr' with rfl | hr'
        · rw [List.map_append, List.map_cons, he.key]
          exact List.mem_append_right _ List.mem_cons_self
        · exact hall r' hr' hsome' hfails'

end Tick

/-! ## §6. Runs. -/

section Runs

variable {c : RollupSettings}

/-- Some move of the run could publish the summary. -/
def Ticked (c : RollupSettings) (moves : List RollupMove) (r : RuleId) (index : Int) : Prop :=
  ∃ m ∈ moves, m.Summarises c r index

/-- The invariant of a run that has made `moves`. -/
structure RollupInv (c : RollupSettings) (moves : List RollupMove) (s : Notices) : Prop where
  clock : 0 ≤ s.time
  stamped : ∀ e ∈ s.rows, 0 ≤ e.createdAt ∧ e.createdAt ≤ s.time
  keys : (s.rows.map EventRow.key).Nodup
  /-- an event is suppressed as a whole, and has a rule -/
  whole : ∀ e ∈ s.rows, e.isSuppressed = true →
    e.suppressedCount = e.deliveries.length ∧ ∃ r, e.ruleId = some r
  /-- a tick that could publish is over -/
  ticked : ∀ r index, Ticked c moves r index → index + 1 ≤ windowIndex c s.time
  /-- a summary announces the suppressed deliveries of its window -/
  summary : ∀ e ∈ s.rows, ∀ r index, e.key = .rollup r index → e.suppressedCount = 0 ∧
    e.suppressedTotal = some (suppressedIn c s.rows r index) ∧ Ticked c moves r index
  /-- what could be published has been -/
  published : ∀ r index, 0 < suppressedIn c s.rows r index → Ticked c moves r index →
    DedupKey.rollup r index ∈ s.rows.map EventRow.key

theorem rollupInv_start : RollupInv c [] {} := by
  constructor
  · exact le_rfl
  · intro e he
    exact absurd he List.not_mem_nil
  · exact List.nodup_nil
  · intro e he
    exact absurd he List.not_mem_nil
  · rintro r index ⟨m, hm, -⟩
    exact absurd hm List.not_mem_nil
  · intro e he
    exact absurd he List.not_mem_nil
  · intro r index hpos
    exact absurd hpos (Nat.lt_irrefl 0)

theorem ticked_append {moves : List RollupMove} {m : RollupMove} {r : RuleId} {index : Int} :
    Ticked c (moves ++ [m]) r index ↔ Ticked c moves r index ∨ m.Summarises c r index := by
  unfold Ticked
  constructor
  · rintro ⟨m', hm', h⟩
    rcases List.mem_append.mp hm' with hm' | hm'
    · exact Or.inl ⟨m', hm', h⟩
    · obtain rfl := List.mem_singleton.mp hm'
      exact Or.inr h
  · rintro (⟨m', hm', h⟩ | h)
    · exact ⟨m', List.mem_append_left _ hm', h⟩
    · exact ⟨m, List.mem_append_right _ (List.mem_singleton.mpr rfl), h⟩

/-- An event that is published: the row it adds, if any. -/
theorem publish_spec (c : RollupSettings) (rows : List EventRow) (now : Instant) (key : String)
    (ruleId : Option RuleId) (title : String) (rule : Option NotificationRule) (channels : ℕ) :
    enqueueRow c rows now (.event key) ruleId title none rule channels = rows ∨
      ∃ e, enqueueRow c rows now (.event key) ruleId title none rule channels = rows ++ [e] ∧
        e.key = .event key ∧ DedupKey.event key ∉ rows.map EventRow.key ∧ e.createdAt = now ∧
        e.ruleId = ruleId ∧
        (e.isSuppressed = true → e.suppressedCount = e.deliveries.length ∧ ∃ r, e.ruleId = some r) := by
  unfold enqueueRow
  split
  · exact Or.inl rfl
  · next hnot =>
    refine Or.inr ⟨_, rfl, rfl, hnot, rfl, rfl, ?_⟩
    intro hsuppressed
    have hne := of_decide_eq_true hsuppressed
    cases ruleId with
    | none => simp [EventRow.suppressedCount, deliveryStatusFor, List.countP_replicate] at hne
    | some r =>
      refine ⟨?_, r, rfl⟩
      simp only [EventRow.suppressedCount, List.countP_replicate, List.length_replicate] at hne ⊢
      split
      · rfl
      · next hnot => simp [hnot] at hne

/-- **Publishing an event keeps the invariant.** -/
theorem rollupInv_publish {moves : List RollupMove} {s : Notices} (h : RollupInv c moves s)
    {now : Instant} (htime : s.time ≤ now) (key : String) (ruleId : Option RuleId) (title : String)
    (rule : Option NotificationRule) (channels : ℕ) :
    RollupInv c (moves ++ [.publish now key ruleId title rule channels])
      ⟨enqueueRow c s.rows now (.event key) ruleId title none rule channels, now⟩ := by
  have hnow : windowIndex c s.time ≤ windowIndex c now := windowIndex_mono h.clock htime
  have hticked : ∀ r index, Ticked c (moves ++ [.publish now key ruleId title rule channels]) r index ↔
      Ticked c moves r index := by
    intro r index
    rw [ticked_append]
    simp [RollupMove.Summarises]
  rcases publish_spec c s.rows now key ruleId title rule channels with
    heq | ⟨e, heq, hkey, hnew, hcreated, -, hwhole⟩
  · rw [heq]
    constructor
    · exact h.clock.trans htime
    · intro e' he'
      exact ⟨(h.stamped e' he').1, (h.stamped e' he').2.trans htime⟩
    · exact h.keys
    · exact h.whole
    · intro r index ht
      exact (h.ticked r index ((hticked r index).mp ht)).trans hnow
    · intro e' he' r index hk
      obtain ⟨hzero, htotal, ht⟩ := h.summary e' he' r index hk
      exact ⟨hzero, htotal, (hticked r index).mpr ht⟩
    · intro r index hpos ht
      exact h.published r index hpos ((hticked r index).mp ht)
  · rw [heq]
    -- a window that could be summarised is before the new event's
    have hsame : ∀ r index, Ticked c moves r index →
        suppressedIn c (s.rows ++ [e]) r index = suppressedIn c s.rows r index := by
      intro r index ht
      apply suppressedIn_append
      intro e' he' hgroup
      obtain rfl := List.mem_singleton.mp he'
      obtain ⟨r', -, hpair⟩ := Option.map_eq_some_iff.mp hgroup
      have hindex : windowIndex c e'.createdAt = index := (Prod.mk.inj hpair).2
      have hbefore := (h.ticked r index ht).trans hnow
      rw [hcreated] at hindex
      omega
    constructor
    · exact h.clock.trans htime
    · intro e' he'
      rcases List.mem_append.mp he' with hold | hmem
      · exact ⟨(h.stamped e' hold).1, (h.stamped e' hold).2.trans htime⟩
      · obtain rfl := List.mem_singleton.mp hmem
        rw [hcreated]
        exact ⟨h.clock.trans htime, le_rfl⟩
    · rw [List.map_append, List.nodup_append]
      refine ⟨h.keys, List.nodup_singleton _, ?_⟩
      intro k hk k' hk'
      obtain rfl : k' = e.key := List.mem_singleton.mp hk'
      rw [hkey]
      rintro rfl
      exact hnew hk
    · intro e' he'
      rcases List.mem_append.mp he' with hold | hmem
      · exact h.whole e' hold
      · obtain rfl := List.mem_singleton.mp hmem
        exact hwhole
    · intro r index ht
      exact (h.ticked r index ((hticked r index).mp ht)).trans hnow
    · intro e' he' r index hk
      rcases List.mem_append.mp he' with hold | hmem
      · obtain ⟨hzero, htotal, ht⟩ := h.summary e' hold r index hk
        exact ⟨hzero, (hsame r index ht).symm ▸ htotal, (hticked r index).mpr ht⟩
      · obtain rfl := List.mem_singleton.mp hmem
        rw [hkey] at hk
        exact DedupKey.noConfusion hk
    · intro r index hpos ht
      have hticked' := (hticked r index).mp ht
      have hpos' : 0 < suppressedIn c s.rows r index := hsame r index hticked' ▸ hpos
      rw [List.map_append]
      exact List.mem_append_left _ (h.published r index hpos' hticked')

/-- **A tick keeps the invariant.** -/
theorem rollupInv_tick {moves : List RollupMove} {s : Notices} (h : RollupInv c moves s) {now : Instant}
    (htime : s.time ≤ now) (rules : RuleId → Option NotificationRule) (channels : RuleId → ℕ)
    (fails : RuleId → Bool) :
    RollupInv c (moves ++ [.tick now rules channels fails])
      ⟨runOnce c now rules channels fails s.rows, now⟩ := by
  have hnow : windowIndex c s.time ≤ windowIndex c now := windowIndex_mono h.clock htime
  have hstamped : ∀ e ∈ s.rows, 0 ≤ e.createdAt := fun e he => (h.stamped e he).1
  obtain ⟨index, hindex⟩ : ∃ index, index = windowIndex c now - 1 := ⟨_, rfl⟩
  obtain ⟨news, hfold, hnews, hnodup, hall⟩ := @tick_spec c now index rules channels fails
    (windowsToSummarise c s.rows index) ((windowsToSummarise c s.rows index).map Prod.fst).dedup s.rows
  -- a tick appends: the summaries of the window before this one, and nothing else
  have hrows : runOnce c now rules channels fails s.rows = s.rows ++ news := by
    unfold runOnce
    rw [← hindex]
    exact hfold
  have hnew : ∀ e ∈ news, ∃ r, 0 < suppressedIn c s.rows r index ∧ (rules r).isSome = true ∧
      fails r = false ∧ IsSummary now r index (suppressedIn c s.rows r index) e := by
    intro e he
    obtain ⟨r, hr, hsome, hfails, hsummary⟩ := hnews e he
    rw [length_titles hstamped] at hsummary
    exact ⟨r, (mem_rules hstamped).mp hr, hsome, hfails, hsummary⟩
  -- a summary is not suppressed, so what a window suppressed is as before
  have hsame : ∀ r i, suppressedIn c (s.rows ++ news) r i = suppressedIn c s.rows r i := by
    intro r i
    apply suppressedIn_append
    intro e he _
    obtain ⟨r', -, -, -, hsummary⟩ := hnew e he
    exact hsummary.unsuppressed
  rw [hrows]
  constructor
  · exact h.clock.trans htime
  · intro e he
    rcases List.mem_append.mp he with hold | hmem
    · exact ⟨(h.stamped e hold).1, (h.stamped e hold).2.trans htime⟩
    · obtain ⟨r, -, -, -, hsummary⟩ := hnew e hmem
      rw [hsummary.createdAt]
      exact ⟨h.clock.trans htime, le_rfl⟩
  · exact hnodup h.keys
  · intro e he hsuppressed
    rcases List.mem_append.mp he with hold | hmem
    · exact h.whole e hold hsuppressed
    · obtain ⟨r, -, -, -, hsummary⟩ := hnew e hmem
      exact absurd hsummary.unsuppressed (of_decide_eq_true hsuppressed)
  · intro r i ht
    rcases ticked_append.mp ht with hold | ⟨hi, -, -⟩
    · exact (h.ticked r i hold).trans hnow
    · exact hi.ge
  · intro e he r i hk
    rw [hsame]
    rcases List.mem_append.mp he with hold | hmem
    · obtain ⟨hzero, htotal, ht⟩ := h.summary e hold r i hk
      exact ⟨hzero, htotal, ticked_append.mpr (Or.inl ht)⟩
    · obtain ⟨r', -, hsome, hfails, hsummary⟩ := hnew e hmem
      rw [hsummary.key] at hk
      -- the key of a new summary names its rule and its window
      obtain ⟨rfl, rfl⟩ := DedupKey.rollup.inj hk
      refine ⟨hsummary.unsuppressed, hsummary.total, ticked_append.mpr (Or.inr ⟨?_, hsome, hfails⟩)⟩
      show windowIndex c now = index + 1
      omega
  · intro r i hpos ht
    rw [hsame] at hpos
    rcases ticked_append.mp ht with hold | ⟨hi, hsome, hfails⟩
    · rw [List.map_append]
      exact List.mem_append_left _ (h.published r i hpos hold)
    · have heq : i = index := by omega
      subst heq
      exact hall r ((mem_rules hstamped).mpr hpos) hsome hfails

/-- A run. -/
def Notices.run (c : RollupSettings) (s : Notices) (moves : List RollupMove) : Option Notices :=
  moves.foldlM (Notices.move c) s

/-- **Every run keeps the invariant.** -/
theorem rollupInv_run {moves : List RollupMove} {s : Notices}
    (hrun : Notices.run c {} moves = some s) : RollupInv c moves s := by
  have hall : ∀ (rest done : List RollupMove) (s₀ : Notices), RollupInv c done s₀ →
      Notices.run c s₀ rest = some s → RollupInv c (done ++ rest) s := by
    intro rest
    induction rest with
    | nil =>
      intro done s₀ h hrest
      obtain rfl := Option.some.inj hrest
      rw [List.append_nil]
      exact h
    | cons m rest ih =>
      intro done s₀ h hrest
      obtain ⟨s₁, hmove, hrest⟩ := Option.bind_eq_some_iff.mp hrest
      unfold Notices.move at hmove
      split at hmove
      · next htime =>
        obtain rfl := Option.some.inj hmove
        have hnext : RollupInv c (done ++ [m]) ⟨m.rows c s₀.rows, m.now⟩ := by
          cases m with
          | publish now key ruleId title rule channels =>
            exact rollupInv_publish h htime key ruleId title rule channels
          | tick now rules channels fails => exact rollupInv_tick h htime rules channels fails
        have hfinal := ih _ _ hnext hrest
        rwa [List.append_assoc] at hfinal
      · exact absurd hmove (by simp)
  exact hall moves [] {} rollupInv_start hrun

/-! ## §7. The totals. -/

/-- Sums over two parts that differ in zeros only. -/
theorem sum_filter_congr {α : Type} (l : List α) (count : α → ℕ) {p q : α → Bool}
    (h : ∀ x ∈ l, count x ≠ 0 → p x = q x) :
    ((l.filter p).map count).sum = ((l.filter q).map count).sum := by
  induction l with
  | nil => rfl
  | cons x l ih =>
    have hrest := ih fun y hy => h y (List.mem_cons_of_mem _ hy)
    by_cases hx : count x = 0
    · cases hp : p x <;> cases hq : q x <;> simp [hp, hq, hx, hrest]
    · have hpq := h x List.mem_cons_self hx
      cases hp : p x with
      | true => simp [hp, hpq ▸ hp, hrest]
      | false => simp [hp, hpq ▸ hp, hrest]

/-- Positive numbers add up to how many they are exactly when all of them are one. -/
theorem sum_eq_length_iff {α : Type} (l : List α) (count : α → ℕ) (h : ∀ x ∈ l, count x ≠ 0) :
    (l.map count).sum = l.length ↔ ∀ x ∈ l, count x = 1 := by
  have hle : ∀ l : List α, (∀ x ∈ l, count x ≠ 0) → l.length ≤ (l.map count).sum := by
    intro l hl
    induction l with
    | nil => exact Nat.zero_le _
    | cons x l ih =>
      have hx := hl x List.mem_cons_self
      have hrest := ih fun y hy => hl y (List.mem_cons_of_mem _ hy)
      rw [List.map_cons, List.sum_cons, List.length_cons]
      omega
  induction l with
  | nil => simp
  | cons x l ih =>
    have hx := h x List.mem_cons_self
    have hall : ∀ y ∈ l, count y ≠ 0 := fun y hy => h y (List.mem_cons_of_mem _ hy)
    have hrest := hle l hall
    have hiff := ih hall
    rw [List.map_cons, List.sum_cons, List.length_cons, List.forall_mem_cons]
    constructor
    · intro hsum
      exact ⟨by omega, hiff.mp (by omega)⟩
    · rintro ⟨hone, hones⟩
      have heq := hiff.mpr hones
      omega

/-- The rules and windows of the summaries whose window is over. -/
def summarised (c : RollupSettings) (s : Notices) : List (RuleId × Int) :=
  s.rows.filterMap fun e =>
    match e.key with
    | .event _ => none
    | .rollup r index => if Over c s index then some (r, index) else none

theorem mem_summarised {s : Notices} {r : RuleId} {index : Int} :
    (r, index) ∈ summarised c s ↔
      DedupKey.rollup r index ∈ s.rows.map EventRow.key ∧ Over c s index := by
  unfold summarised
  rw [List.mem_filterMap, List.mem_map]
  constructor
  · rintro ⟨e, he, heq⟩
    split at heq
    · exact absurd heq (by simp)
    · next r' index' hkey =>
      split at heq
      · next hover =>
        obtain ⟨rfl, rfl⟩ := Prod.mk.inj (Option.some.inj heq)
        exact ⟨⟨e, he, hkey⟩, hover⟩
      · exact absurd heq (by simp)
  · rintro ⟨⟨e, he, hkey⟩, hover⟩
    exact ⟨e, he, by rw [hkey]; exact if_pos hover⟩

/-- No rule and window is summarised twice. -/
theorem nodup_summarised {s : Notices} (h : (s.rows.map EventRow.key).Nodup) :
    (summarised c s).Nodup := by
  have hmap : (summarised c s).map (fun k => DedupKey.rollup k.1 k.2) =
      (s.rows.map EventRow.key).filter fun key =>
        match key with
        | .event _ => false
        | .rollup _ index => decide (Over c s index) := by
    unfold summarised
    generalize s.rows = rows
    induction rows with
    | nil => rfl
    | cons e rows ih =>
      rw [List.map_cons, List.filter_cons, ← ih]
      cases hkey : e.key with
      | event text => simp [hkey]
      | rollup r index =>
        by_cases hover : Over c s index
        · simp [hkey, hover]
        · simp [hkey, hover]
  have hnodup := h.filter fun key =>
    match key with
    | .event _ => false
    | .rollup _ index => decide (Over c s index)
  rw [← hmap] at hnodup
  exact hnodup.of_map _

/-- **The announced totals add up to the suppressed deliveries of the summarised windows.** -/
theorem announced_sum {moves : List RollupMove} {s : Notices} (h : RollupInv c moves s) :
    (s.rows.filterMap (EventRow.announced c s)).sum =
      ((s.rows.filter fun e => (e.group c).any fun k => decide (k ∈ summarised c s)).map
        EventRow.suppressedCount).sum := by
  have hgroups := sum_groups (EventRow.group c) EventRow.suppressedCount s.rows _
    (nodup_summarised (c := c) h.keys)
  have hmap : ∀ rows : List EventRow, (∀ e ∈ rows, e ∈ s.rows) →
      rows.filterMap (EventRow.announced c s) =
        (rows.filterMap fun e =>
          match e.key with
          | .event _ => none
          | .rollup r index => if Over c s index then some (r, index) else none).map
            fun k : RuleId × Int => suppressedIn c s.rows k.1 k.2 := by
    intro rows
    induction rows with
    | nil => intro _; rfl
    | cons e rows ih =>
      intro hin
      have hrest := ih fun e' he' => hin e' (List.mem_cons_of_mem _ he')
      have hsummary := h.summary e (hin e List.mem_cons_self)
      unfold EventRow.announced at hrest ⊢
      cases hkey : e.key with
      | event text => simpa [hkey] using hrest
      | rollup r index =>
        obtain ⟨-, htotal, -⟩ := hsummary r index hkey
        by_cases hover : Over c s index
        · simp [hkey, hover, htotal, hrest]
        · simpa [hkey, hover] using hrest
  rw [hmap s.rows fun e he => he]
  refine Eq.trans ?_ (hgroups.trans ?_)
  · rfl
  · congr!

/-- A suppressed event is counted in its window. -/
theorem suppressedIn_pos {rows : List EventRow} {e : EventRow} (he : e ∈ rows) (hsuppressed : e.isSuppressed = true)
    {r : RuleId} (hr : e.ruleId = some r) : 0 < suppressedIn c rows r (windowIndex c e.createdAt) := by
  have hmem : e.suppressedCount ∈ (rows.filter fun e' => decide (e'.group c =
      some (r, windowIndex c e.createdAt))).map EventRow.suppressedCount := by
    refine List.mem_map.mpr ⟨e, List.mem_filter.mpr ⟨he, decide_eq_true ?_⟩, rfl⟩
    unfold EventRow.group
    rw [hr]
    rfl
  exact (Nat.pos_of_ne_zero (of_decide_eq_true hsuppressed)).trans_le (List.single_le_sum (by simp) _ hmem)

/-- A key that is there is there once. -/
theorem RollupInv.once {moves : List RollupMove} {s : Notices} (h : RollupInv c moves s) {r : RuleId} {index : Int}
    (hmem : DedupKey.rollup r index ∈ s.rows.map EventRow.key) :
    s.rows.countP (fun summary => decide (summary.key = .rollup r index)) = 1 := by
  have hone := List.count_eq_one_of_mem h.keys hmem
  rw [List.count, List.countP_map] at hone
  rw [← hone]
  apply List.countP_congr
  intro e _
  simp

/-- Each suppressed event of a window that is over has a summary. -/
def AllSummarised (c : RollupSettings) (s : Notices) : Prop :=
  ∀ e ∈ s.rows, e.isSuppressed = true → Over c s (windowIndex c e.createdAt) → ∀ r, e.ruleId = some r →
    DedupKey.rollup r (windowIndex c e.createdAt) ∈ s.rows.map EventRow.key

/-- The suppressed events of the windows that are over. -/
def overEvents (c : RollupSettings) (s : Notices) : List EventRow :=
  s.rows.filter fun e => e.isSuppressed && decide (Over c s (windowIndex c e.createdAt))

theorem mem_overEvents {s : Notices} {e : EventRow} :
    e ∈ overEvents c s ↔ e ∈ s.rows ∧ e.isSuppressed = true ∧ Over c s (windowIndex c e.createdAt) := by
  unfold overEvents
  rw [List.mem_filter, Bool.and_eq_true, decide_eq_true_eq]

/-- Where all of them are summarised, the totals count their deliveries. -/
theorem RollupInv.totals {moves : List RollupMove} {s : Notices} (h : RollupInv c moves s)
    (hall : AllSummarised c s) : (s.rows.filterMap (EventRow.announced c s)).sum =
      ((overEvents c s).map EventRow.suppressedCount).sum := by
  rw [announced_sum h]
  apply sum_filter_congr
  intro e he hne
  have hsuppressed : e.isSuppressed = true := decide_eq_true hne
  obtain ⟨-, r, hr⟩ := h.whole e he hsuppressed
  unfold EventRow.group
  rw [hr, hsuppressed, Option.map_some, Option.any_some, Bool.true_and]
  rw [decide_eq_decide, mem_summarised]
  constructor
  · intro hsummarised
    exact hsummarised.2
  · intro hover
    exact ⟨hall e he hsuppressed hover r hr, hover⟩

/-- And they are the number of the events exactly when each of these is for one channel. -/
theorem RollupInv.totals_iff {moves : List RollupMove} {s : Notices} (h : RollupInv c moves s)
    (hall : AllSummarised c s) :
    (s.rows.filterMap (EventRow.announced c s)).sum = s.rows.countP (fun e =>
        e.isSuppressed && decide (Over c s (windowIndex c e.createdAt))) ↔
      ∀ e ∈ overEvents c s, e.deliveries.length = 1 := by
  have hne : ∀ e ∈ overEvents c s, e.suppressedCount ≠ 0 := by
    intro e he
    exact of_decide_eq_true (mem_overEvents.mp he).2.1
  rw [h.totals hall, List.countP_eq_length_filter]
  refine (sum_eq_length_iff _ _ hne).trans ?_
  constructor
  · intro hone e he
    obtain ⟨hmem, hsuppressed, -⟩ := mem_overEvents.mp he
    rw [← (h.whole e hmem hsuppressed).1]
    exact hone e he
  · intro hone e he
    obtain ⟨hmem, hsuppressed, -⟩ := mem_overEvents.mp he
    rw [(h.whole e hmem hsuppressed).1]
    exact hone e he

/-- **Suppressed events are summarised exactly once and the totals add up, exactly when each window is
    ticked right after it and each suppressed event is for one channel.** -/
theorem conserved_iff (c : RollupSettings) (moves : List RollupMove) (s : Notices)
    (hrun : Notices.run c {} moves = some s) :
    Conserved c s ↔ ∀ e ∈ s.rows, e.isSuppressed = true → Over c s (windowIndex c e.createdAt) →
      (∀ r, e.ruleId = some r → Ticked c moves r (windowIndex c e.createdAt)) ∧
        e.deliveries.length = 1 := by
  have h := rollupInv_run hrun
  constructor
  · intro hconserved
    have hall : AllSummarised c s := by
      intro e he hsuppressed hover r hr
      obtain ⟨r', hr', hcount⟩ := hconserved.once e he hsuppressed hover
      obtain rfl := Option.some.inj (hr.symm.trans hr')
      obtain ⟨summary, hsummary, hkey⟩ := List.countP_pos_iff.mp (hcount ▸ Nat.one_pos)
      exact List.mem_map.mpr ⟨summary, hsummary, of_decide_eq_true hkey⟩
    have hone := (h.totals_iff hall).mp hconserved.totals
    intro e he hsuppressed hover
    refine ⟨fun r hr => ?_, hone e (mem_overEvents.mpr ⟨he, hsuppressed, hover⟩)⟩
    obtain ⟨summary, hsummary, hkey⟩ := List.mem_map.mp (hall e he hsuppressed hover r hr)
    exact (h.summary summary hsummary r _ hkey).2.2
  · intro hright
    have hall : AllSummarised c s := by
      intro e he hsuppressed hover r hr
      exact h.published r _ (suppressedIn_pos he hsuppressed hr) ((hright e he hsuppressed hover).1 r hr)
    constructor
    · intro e he hsuppressed hover
      obtain ⟨-, r, hr⟩ := h.whole e he hsuppressed
      exact ⟨r, hr, h.once (hall e he hsuppressed hover r hr)⟩
    · refine (h.totals_iff hall).mpr fun e he => ?_
      obtain ⟨hmem, hsuppressed, hover⟩ := mem_overEvents.mp he
      exact (hright e hmem hsuppressed hover).2

end Runs

/-- A rule whose matches are never sent one by one. -/
def quietRule : NotificationRule := { customerCode := "ACME", name := "WMS errors", burstCap := some 0 }

/-- One match, on some channels; a tick in the next window, and a later one. -/
def oneMatch (channels : ℕ) : List RollupMove :=
  [ .publish (10 * second) "rule:1:txn:7:status:error" (some 1) "error" (some quietRule) channels
  , .tick (310 * second) (fun _ => some quietRule) (fun _ => channels) fun _ => false
  , .tick (700 * second) (fun _ => some quietRule) (fun _ => channels) fun _ => false ]

/-- The rows of that run. -/
def oneMatchRows (channels : ℕ) : List EventRow :=
  [ { key := .event "rule:1:txn:7:status:error"
      ruleId := some 1
      title := "error"
      createdAt := 10 * second
      deliveries := List.replicate channels .suppressed }
  , { key := .rollup 1 0
      ruleId := some 1
      title := summaryTitle {} quietRule channels
      createdAt := 310 * second
      deliveries := List.replicate channels .pending
      suppressedTotal := some channels } ]

theorem conserved_iff_oneMatch : Conserved {} ⟨oneMatchRows 1, 700 * second⟩ ↔
    ∀ e ∈ oneMatchRows 1, e.isSuppressed = true →
      Over {} ⟨oneMatchRows 1, 700 * second⟩ (windowIndex {} e.createdAt) →
        (∀ r, e.ruleId = some r → Ticked {} (oneMatch 1) r (windowIndex {} e.createdAt)) ∧
          e.deliveries.length = 1 :=
  conserved_iff {} (oneMatch 1) ⟨oneMatchRows 1, 700 * second⟩ (by decide +kernel)

/-- In every run suppressed events are summarised exactly once, and the totals add up. -/
def SummariesConserve : Prop :=
  ∀ (c : RollupSettings) (moves : List RollupMove) (s : Notices),
    Notices.run c {} moves = some s → Conserved c s

/-- One event on two channels is announced as two. -/
theorem twoChannels_not_conserved : ¬SummariesConserve := by
  intro h
  have htotals := (h {} (oneMatch 2) ⟨oneMatchRows 2, 700 * second⟩ (by decide +kernel)).totals
  exact absurd htotals (by decide +kernel)

end RagPipeline.Notifications
