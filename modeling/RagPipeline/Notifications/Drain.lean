/-
  RagPipeline.Notifications.Drain — `deliver_due`, the outbox drain, tick after tick.

  A tick claims what is due and fits the budgets, commits, and then attempts the claimed deliveries one by
  one; each attempt is a transaction of its own and stamps `delivered_at` when it is made.  Rows are never
  deleted, so the id of a row is its place in the table.

    * `claimed_le_budget`  — a tick claims no more of a channel than its budget;
    * `tick_stamped`       — what a tick does to the stamps;
    * `RateBounded.tick`   — one tick keeps every window within the limit;
    * `rate_limited`       — so in every run.
-/
import Mathlib.Algebra.Group.Int.Defs
import Mathlib.Algebra.Group.Nat.Defs
import Mathlib.Data.List.Sort
import RagPipeline.Notifications.Pacing
import RagPipeline.Stage2.Entry

namespace RagPipeline.Notifications

open RagPipeline.Stage2 RagPipeline.Lib

/-! ## §1. The outbox. -/

/-- `DeliveryStatus`, all of it. -/
inductive OutboxStatus where
  | pending | delivered | failed | dead | suppressed
  deriving DecidableEq, Repr

/-- `NotificationDelivery`, with the tenant of its event. -/
structure Delivery where
  id : ℕ
  customerCode : String
  channelId : Option ℕ
  status : OutboxStatus := .pending
  attempts : ℕ := 0
  nextAttemptAt : Option Instant := none
  lastError : Option String := none
  deliveredAt : Option Instant := none
  createdAt : Instant
  deriving DecidableEq, Repr

/-- The settings of the drain; durations in microseconds. -/
structure DrainSettings where
  rateWindow : ℕ := 60 * 10 ^ 6
  channelMaxPerMinute : ℕ := 20
  lease : ℕ := 60 * 10 ^ 6
  maxAttempts : ℕ := 50
  /-- `_backoff_seconds` -/
  backoff : ℕ → ℕ
  /-- the `config` of each channel -/
  config : ℕ → Option ChannelConfig

/-- The limit of a channel. -/
def DrainSettings.limit (c : DrainSettings) (channel : ℕ) : ℤ :=
  channelLimit c.channelMaxPerMinute (c.config channel)

/-- What an attempt comes to: sent, throttled by the channel, failed, or nothing (the row is gone, or the process
died before its commit). -/
inductive AttemptOutcome where
  | sent (at_ : Instant)
  | throttled (until_ : Instant)
  | failed (at_ : Instant) (permanent : Bool) (text : String)
  | nothing

/-- A tick: its clock, its batch, the tenants that are enabled, `retry_at` of a row that is held back, and the
outcome of a claimed one. -/
structure Tick where
  now : Instant
  batch : ℤ
  enabled : String → Bool
  retryAt : ℕ → Instant
  outcome : ℕ → AttemptOutcome
  /-- when its last attempt is over -/
  stop : Instant

/-- `_claim_due`: the predicate. -/
def Delivery.isDue (t : Tick) (d : Delivery) : Bool :=
  (d.status = .pending || d.status = .failed) && d.nextAttemptAt.all (fun at_ => decide (at_ ≤ t.now)) &&
    t.enabled d.customerCode

/-- `_claim_due`: oldest first. -/
def claimDue (t : Tick) (table : List Delivery) : List Delivery :=
  (table.filter (Delivery.isDue t)).insertionSort fun d d' => d.createdAt ≤ d'.createdAt

/-- A delivery of this channel that was made at `since` or later. -/
def Delivery.sentSince (channel : ℕ) (since : Instant) (d : Delivery) : Bool :=
  decide (d.channelId = some channel) && d.deliveredAt.any fun at_ => decide (since ≤ at_)

/-- `_channel_budgets`: a channel that no selected row names has none. -/
def channelBudgets (c : DrainSettings) (t : Tick) (table selected : List Delivery) (channel : Option ℕ) : ℤ :=
  match channel with
  | none => 0
  | some channel =>
    if some channel ∈ selected.map Delivery.channelId then
      allowance (table.countP (Delivery.sentSince channel (t.now - c.rateWindow))) (c.limit channel)
    else 0

/-- `_spend_budgets`: what is claimed, and what is held back. -/
def spendBudgets : (Option ℕ → ℤ) → List Delivery → List Delivery × List Delivery
  | _, [] => ([], [])
  | budgets, row :: selected =>
    if budgets row.channelId ≤ 0 then
      let rest := spendBudgets budgets selected
      (rest.1, row :: rest.2)
    else
      let rest := spendBudgets (Function.update budgets row.channelId (budgets row.channelId - 1)) selected
      (row :: rest.1, rest.2)

/-- The rows that were selected, rescheduled. -/
def reschedule (c : DrainSettings) (t : Tick) (claimed held : List Delivery) (d : Delivery) : Delivery :=
  if d.id ∈ claimed.map Delivery.id then { d with nextAttemptAt := some (t.now + c.lease) }
  else if d.id ∈ held.map Delivery.id then { d with nextAttemptAt := some (t.retryAt d.id) }
  else d

/-- `_record_success`, `_record_throttled` and `_record_failure`. -/
def Delivery.recorded (c : DrainSettings) (d : Delivery) : AttemptOutcome → Delivery
  | .sent at_ => { d with status := .delivered, deliveredAt := some at_, lastError := none, nextAttemptAt := none }
  | .throttled until_ => { d with nextAttemptAt := some until_ }
  | .failed at_ permanent text =>
    let d := { d with attempts := d.attempts + 1, lastError := some text }
    if permanent || decide (c.maxAttempts ≤ d.attempts) then { d with status := .dead, nextAttemptAt := none }
    else { d with status := .failed, nextAttemptAt := some (at_ + c.backoff d.attempts) }
  | .nothing => d

/-- `_attempt_delivery`, on the row that it loads: a delivered one is left alone. -/
def attemptDelivery (c : DrainSettings) (t : Tick) (id : ℕ) (d : Delivery) : Delivery :=
  if d.id = id ∧ d.status ≠ .delivered then d.recorded c (t.outcome id) else d

/-- The rows a tick selects. -/
def selectDue (t : Tick) (table : List Delivery) : List Delivery :=
  roundRobin Delivery.customerCode t.batch (claimDue t table)

/-- The rows a tick claims, and those it holds back. -/
def claim (c : DrainSettings) (t : Tick) (table : List Delivery) : List Delivery × List Delivery :=
  spendBudgets (channelBudgets c t table (selectDue t table)) (selectDue t table)

/-- **`deliver_due`.** -/
def deliverDue (c : DrainSettings) (t : Tick) (table : List Delivery) : List Delivery :=
  let spent := claim c t table
  (spent.1.map Delivery.id).foldl (fun table id => table.map (attemptDelivery c t id))
    (table.map (reschedule c t spent.1 spent.2))

/-- What happens to the outbox: `enqueue` writes the deliveries of an event, and the drain ticks. -/
inductive OutboxEvent where
  | enqueue (customerCode : String) (channels : List ℕ) (suppressed : Bool) (createdAt : Instant)
  | tick (t : Tick)

/-- The deliveries of one event, one for each channel. -/
def newDeliveries (first : ℕ) (customerCode : String) (channels : List ℕ) (suppressed : Bool) (createdAt : Instant) :
    List Delivery :=
  (channels.zipIdx first).map fun p =>
    { id := p.2
      customerCode := customerCode
      channelId := some p.1
      status := if suppressed then .suppressed else .pending
      createdAt := createdAt }

/-- One event. -/
def outboxStep (c : DrainSettings) (table : List Delivery) : OutboxEvent → List Delivery
  | .enqueue customerCode channels suppressed createdAt =>
    table ++ newDeliveries table.length customerCode channels suppressed createdAt
  | .tick t => deliverDue c t table

/-- The events in turn, from an empty outbox. -/
def runOutbox (c : DrainSettings) (events : List OutboxEvent) : List Delivery := events.foldl (outboxStep c) []

/-- One drainer, and a clock that does not go back: the attempts of a tick are made in it, and the next one begins
after them. -/
def Clocked : Instant → List OutboxEvent → Prop
  | _, [] => True
  | clock, .enqueue _ _ _ _ :: events => Clocked clock events
  | clock, .tick t :: events =>
    (clock ≤ t.now ∧ t.now ≤ t.stop ∧ ∀ id at_, t.outcome id = .sent at_ → t.now ≤ at_ ∧ at_ ≤ t.stop) ∧
      Clocked t.stop events

/-- Deliveries of a channel whose stamp is in the window `[start, start + rateWindow)`. -/
def Delivery.inWindow (c : DrainSettings) (channel : ℕ) (start : Instant) (d : Delivery) : Bool :=
  decide (d.channelId = some channel) &&
    d.deliveredAt.any fun at_ => decide (start ≤ at_ ∧ at_ < start + c.rateWindow)

/-! ## §2. The budget of a tick. -/

/-- **A tick claims no more of a channel than its budget.** -/
theorem claimed_le_budget (selected : List Delivery) (budgets : Option ℕ → ℤ) (channel : Option ℕ) :
    ((spendBudgets budgets selected).1.countP fun d => decide (d.channelId = channel) : ℤ) ≤ max 0 (budgets channel) := by
  induction selected generalizing budgets with
  | nil => exact le_max_left _ _
  | cons row selected ih =>
    unfold spendBudgets
    split
    · exact ih budgets
    · next hbudget =>
      have hrest := ih (Function.update budgets row.channelId (budgets row.channelId - 1))
      by_cases hrow : row.channelId = channel
      · subst hrow
        rw [Function.update_self] at hrest
        simp only [List.countP_cons, decide_true, if_true]
        push_cast
        omega
      · rw [Function.update_of_ne (Ne.symm hrow)] at hrest
        simp only [List.countP_cons, decide_eq_false hrow, Bool.false_eq_true, if_false, Nat.add_zero]
        exact hrest

theorem spendBudgets_subset (selected : List Delivery) (budgets : Option ℕ → ℤ) :
    (spendBudgets budgets selected).1 ⊆ selected := by
  induction selected generalizing budgets with
  | nil => exact List.Subset.refl _
  | cons row selected ih =>
    unfold spendBudgets
    split
    · exact List.subset_cons_of_subset _ (ih budgets)
    · exact List.cons_subset_cons _ (ih _)

theorem claim_subset (c : DrainSettings) (t : Tick) (table : List Delivery) : (claim c t table).1 ⊆ table := by
  intro d hd
  have hselected : d ∈ selectDue t table := spendBudgets_subset _ _ hd
  have hdue : d ∈ claimDue t table := (perm_interleaved Delivery.customerCode _).subset (List.take_subset _ _ hselected)
  exact (List.mem_filter.mp ((List.mem_insertionSort _).mp hdue)).1

/-! ## §3. What a tick does to a row. -/

section Rows

variable (c : DrainSettings) (t : Tick)

/-- The attempts of a tick, on one row. -/
def attemptedRow (ids : List ℕ) (d : Delivery) : Delivery := ids.foldl (fun d id => attemptDelivery c t id d) d

theorem foldl_map_rows (ids : List ℕ) (table : List Delivery) :
    ids.foldl (fun table id => table.map (attemptDelivery c t id)) table = table.map (attemptedRow c t ids) := by
  induction ids generalizing table with
  | nil => exact (List.map_id table).symm
  | cons id ids ih =>
    rw [List.foldl_cons, ih, List.map_map]
    rfl

/-- The whole tick, on one row. -/
def tickRow (spent : List Delivery × List Delivery) (d : Delivery) : Delivery :=
  attemptedRow c t (spent.1.map Delivery.id) (reschedule c t spent.1 spent.2 d)

theorem deliverDue_eq (table : List Delivery) :
    deliverDue c t table = table.map (tickRow c t (claim c t table)) := by
  unfold deliverDue
  rw [foldl_map_rows, List.map_map]
  rfl

/-- What a row keeps, and the stamp it may get. -/
structure Stamped (ids : List ℕ) (d d' : Delivery) : Prop where
  id : d'.id = d.id
  channelId : d'.channelId = d.channelId
  deliveredAt : d'.deliveredAt = d.deliveredAt ∨
    d.id ∈ ids ∧ ∃ at_, t.outcome d.id = .sent at_ ∧ d'.deliveredAt = some at_

variable {c t}

theorem stamped_attempt (id : ℕ) (d : Delivery) : Stamped t [id] d (attemptDelivery c t id d) := by
  unfold attemptDelivery
  split
  · next h =>
    obtain ⟨rfl, -⟩ := h
    cases hout : t.outcome d.id with
    | sent at_ => exact ⟨rfl, rfl, Or.inr ⟨List.mem_cons_self, at_, hout, rfl⟩⟩
    | throttled until_ => exact ⟨rfl, rfl, Or.inl rfl⟩
    | failed at_ permanent text =>
      unfold Delivery.recorded
      simp only []
      split
      · exact ⟨rfl, rfl, Or.inl rfl⟩
      · exact ⟨rfl, rfl, Or.inl rfl⟩
    | nothing => exact ⟨rfl, rfl, Or.inl rfl⟩
  · exact ⟨rfl, rfl, Or.inl rfl⟩

theorem stamped_attempted (ids : List ℕ) (d : Delivery) : Stamped t ids d (attemptedRow c t ids d) := by
  induction ids generalizing d with
  | nil => exact ⟨rfl, rfl, Or.inl rfl⟩
  | cons id ids ih =>
    have hone := stamped_attempt (c := c) (t := t) id d
    have hrest := ih (attemptDelivery c t id d)
    refine ⟨hrest.id.trans hone.id, hrest.channelId.trans hone.channelId, ?_⟩
    show (attemptedRow c t ids (attemptDelivery c t id d)).deliveredAt = _ ∨ _
    cases hrest.deliveredAt with
    | inl hsame =>
      refine hone.deliveredAt.imp hsame.trans ?_
      rintro ⟨hmem, at_, hout, hat⟩
      exact ⟨List.mem_cons.mpr (Or.inl (List.mem_singleton.mp hmem)), at_, hout, hsame.trans hat⟩
    | inr hnew =>
      obtain ⟨hmem, at_, hout, hat⟩ := hnew
      rw [hone.id] at hmem hout
      exact Or.inr ⟨List.mem_cons_of_mem _ hmem, at_, hout, hat⟩

/-- **What a tick does to a row**: it keeps its channel, and only a claimed one gets a stamp. -/
theorem tick_stamped (spent : List Delivery × List Delivery) (d : Delivery) :
    Stamped t (spent.1.map Delivery.id) d (tickRow c t spent d) := by
  have hsame : (reschedule c t spent.1 spent.2 d).id = d.id ∧
      (reschedule c t spent.1 spent.2 d).channelId = d.channelId ∧
      (reschedule c t spent.1 spent.2 d).deliveredAt = d.deliveredAt := by
    unfold reschedule
    split
    · exact ⟨rfl, rfl, rfl⟩
    · split
      · exact ⟨rfl, rfl, rfl⟩
      · exact ⟨rfl, rfl, rfl⟩
  obtain ⟨hid, hchannel, hat⟩ := hsame
  have hstamped := stamped_attempted (c := c) (t := t) (spent.1.map Delivery.id) (reschedule c t spent.1 spent.2 d)
  refine ⟨hstamped.id.trans hid, hstamped.channelId.trans hchannel, ?_⟩
  have hcase := hstamped.deliveredAt
  rw [hat, hid] at hcase
  exact hcase

end Rows

/-! ## §4. The windows. -/

/-- Every window of every channel is within its limit, and no stamp is later than the clock. -/
structure RateBounded (c : DrainSettings) (clock : Instant) (table : List Delivery) : Prop where
  ids : table.map Delivery.id = List.range table.length
  past : ∀ d ∈ table, ∀ at_, d.deliveredAt = some at_ → at_ ≤ clock
  bounded : ∀ channel start, (table.countP (Delivery.inWindow c channel start) : ℤ) ≤ max 0 (c.limit channel)

theorem rateBounded_nil (c : DrainSettings) (clock : Instant) : RateBounded c clock [] where
  ids := rfl
  past := fun _ h => absurd h List.not_mem_nil
  bounded := fun _ _ => le_max_left _ _

theorem inWindow_iff {c : DrainSettings} {channel : ℕ} {start : Instant} {d : Delivery} :
    d.inWindow c channel start = true ↔
      d.channelId = some channel ∧ ∃ at_, d.deliveredAt = some at_ ∧ start ≤ at_ ∧ at_ < start + c.rateWindow := by
  simp [Delivery.inWindow, Option.any_eq_true]

/-- A count of what is one thing or another. -/
theorem countP_le_add {α : Type} {p q r : α → Bool} {l : List α} (h : ∀ x ∈ l, p x = true → q x = true ∨ r x = true) :
    l.countP p ≤ l.countP q + l.countP r := by
  induction l with
  | nil => exact Nat.zero_le _
  | cons x l ih =>
    have hl := ih fun y hy => h y (List.mem_cons_of_mem _ hy)
    have hx := h x List.mem_cons_self
    rw [List.countP_cons, List.countP_cons, List.countP_cons]
    by_cases hp : p x = true
    · cases hx hp with
      | inl hq =>
        rw [if_pos hp, if_pos hq]
        omega
      | inr hr =>
        rw [if_pos hp, if_pos hr]
        omega
    · rw [if_neg hp]
      omega

section Steps

variable {c : DrainSettings} {clock : Instant} {table : List Delivery}

theorem RateBounded.nodup (h : RateBounded c clock table) : (table.map Delivery.id).Nodup := by
  rw [h.ids]
  exact List.nodup_range

/-- New rows have no stamp. -/
theorem newDeliveries_unstamped (first : ℕ) (customerCode : String) (channels : List ℕ) (suppressed : Bool)
    (createdAt : Instant) :
    ∀ d ∈ newDeliveries first customerCode channels suppressed createdAt, d.deliveredAt = none := by
  intro d hd
  obtain ⟨p, -, rfl⟩ := List.mem_map.mp hd
  rfl

theorem RateBounded.enqueue (h : RateBounded c clock table) (customerCode : String) (channels : List ℕ)
    (suppressed : Bool) (createdAt : Instant) :
    RateBounded c clock (table ++ newDeliveries table.length customerCode channels suppressed createdAt) := by
  have hnew := newDeliveries_unstamped table.length customerCode channels suppressed createdAt
  refine ⟨?_, fun d hd at_ hat => ?_, fun channel start => ?_⟩
  · have hids : (newDeliveries table.length customerCode channels suppressed createdAt).map Delivery.id =
        List.range' table.length channels.length := by
      unfold newDeliveries
      rw [List.map_map]
      show (channels.zipIdx table.length).map Prod.snd = _
      rw [List.zipIdx_map_snd]
    rw [List.map_append, h.ids, hids, List.length_append]
    have hlen : (newDeliveries table.length customerCode channels suppressed createdAt).length = channels.length := by
      simp [newDeliveries]
    rw [hlen, List.range_eq_range', List.range_eq_range', ← List.range'_append_1, Nat.zero_add]
  · cases List.mem_append.mp hd with
    | inl hold => exact h.past d hold at_ hat
    | inr hmem =>
      rw [hnew d hmem] at hat
      cases hat
  · have hnone : (newDeliveries table.length customerCode channels suppressed createdAt).countP
        (Delivery.inWindow c channel start) = 0 := by
      rw [List.countP_eq_zero]
      intro d hd
      simp [Delivery.inWindow, hnew d hd]
    rw [List.countP_append, hnone]
    exact h.bounded channel start

/-- The rows of a channel that a tick claims, counted in the table. -/
theorem countP_claimed (hids : (table.map Delivery.id).Nodup) {claimed : List Delivery} (hsub : claimed ⊆ table)
    (channel : ℕ) :
    table.countP (fun d => decide (d.channelId = some channel ∧ d.id ∈ claimed.map Delivery.id)) ≤
      claimed.countP fun d => decide (d.channelId = some channel) := by
  rw [List.countP_eq_length_filter, List.countP_eq_length_filter]
  refine (List.subperm_of_subset ((hids.of_map _).filter _) fun d hd => ?_).length_le
  obtain ⟨hd, hdec⟩ := List.mem_filter.mp hd
  obtain ⟨hchannel, hmem⟩ := of_decide_eq_true hdec
  obtain ⟨d', hd', hid⟩ := List.mem_map.mp hmem
  have heq : d' = d := List.inj_on_of_nodup_map hids (hsub hd') hd hid
  exact List.mem_filter.mpr ⟨heq ▸ hd', decide_eq_true hchannel⟩

/-- **One tick keeps every window within the limit.**  A window with a stamp of this tick begins after the
budget's own one, so what was sent in it before the tick has been counted. -/
theorem RateBounded.tick (h : RateBounded c clock table) {t : Tick} (hnow : clock ≤ t.now) (hstop : t.now ≤ t.stop)
    (hout : ∀ id at_, t.outcome id = .sent at_ → t.now ≤ at_ ∧ at_ ≤ t.stop) :
    RateBounded c t.stop (deliverDue c t table) := by
  rw [deliverDue_eq]
  have hrow : ∀ d, Stamped t ((claim c t table).1.map Delivery.id) d (tickRow c t (claim c t table) d) :=
    tick_stamped (claim c t table)
  refine ⟨?_, fun d' hd' at_ hat => ?_, fun channel start => ?_⟩
  · rw [List.map_map, List.length_map, ← h.ids]
    exact List.map_congr_left fun d _ => (hrow d).id
  · obtain ⟨d, hd, rfl⟩ := List.mem_map.mp hd'
    cases (hrow d).deliveredAt with
    | inl hsame => exact ((h.past d hd at_ (hsame ▸ hat)).trans hnow).trans hstop
    | inr hnew =>
      obtain ⟨-, at', hsent, hat'⟩ := hnew
      rw [hat'] at hat
      exact Option.some.inj hat ▸ (hout d.id at' hsent).2
  · rw [List.countP_map]
    have hclaimed := countP_claimed h.nodup (claim_subset c t table) channel
    have hbudget := claimed_le_budget (selectDue t table) (channelBudgets c t table (selectDue t table)) (some channel)
    -- what is in the window afterwards was in it before, or has been claimed
    have hsplit : table.countP (Delivery.inWindow c channel start ∘ tickRow c t (claim c t table)) ≤
        table.countP (Delivery.inWindow c channel start) +
          (claim c t table).1.countP fun d => decide (d.channelId = some channel) := by
      refine le_trans ?_ (Nat.add_le_add_left hclaimed _)
      refine countP_le_add fun d _ hin => ?_
      obtain ⟨hchannel, at_, hat, hwindow⟩ := inWindow_iff.mp hin
      rw [(hrow d).channelId] at hchannel
      cases (hrow d).deliveredAt with
      | inl hsame => exact Or.inl (inWindow_iff.mpr ⟨hchannel, at_, hsame ▸ hat, hwindow⟩)
      | inr hnew => exact Or.inr (decide_eq_true ⟨hchannel, hnew.1⟩)
    by_cases hany : ∃ id at_, t.outcome id = .sent at_ ∧ at_ < start + c.rateWindow
    · -- it may have a stamp of this tick: then it begins after the span that the budget counts
      obtain ⟨id, at_, hsent, hbefore⟩ := hany
      have hsince : t.now - c.rateWindow < start := by
        have hle := (hout id at_ hsent).1
        have hlt : ∀ x y z u : ℤ, x ≤ y → y < z + u → x - u < z := fun x y z u => by omega
        exact hlt _ _ _ _ hle hbefore
      have hcounted : table.countP (Delivery.inWindow c channel start) ≤
          table.countP (Delivery.sentSince channel (t.now - c.rateWindow)) := by
        refine List.countP_mono_left fun d _ hin => ?_
        obtain ⟨hchannel, at_, hat, hwindow⟩ := inWindow_iff.mp hin
        have hlate : t.now - c.rateWindow ≤ at_ := le_trans hsince.le hwindow.1
        refine Bool.and_eq_true_iff.mpr ⟨decide_eq_true hchannel, ?_⟩
        rw [hat]
        exact decide_eq_true hlate
      have hbefore := h.bounded channel start
      have hallow : channelBudgets c t table (selectDue t table) (some channel) ≤
          allowance (table.countP (Delivery.sentSince channel (t.now - c.rateWindow))) (c.limit channel) := by
        unfold channelBudgets
        simp only []
        split
        · exact le_rfl
        · exact le_max_left _ _
      unfold allowance at hallow
      have hnat : ∀ after before claimed sent : ℕ, ∀ budget limit : ℤ, after ≤ before + claimed → before ≤ sent →
          (before : ℤ) ≤ max 0 limit → (claimed : ℤ) ≤ max 0 budget → budget ≤ max 0 (limit - sent) →
          (after : ℤ) ≤ max 0 limit := by
        intro after before claimed sent budget limit
        omega
      exact hnat _ _ _ _ _ _ hsplit hcounted hbefore hbudget hallow
    · -- it has none: what is in it was in it before
      refine le_trans ?_ (h.bounded channel start)
      have hle : table.countP (Delivery.inWindow c channel start ∘ tickRow c t (claim c t table)) ≤
          table.countP (Delivery.inWindow c channel start) := by
        refine List.countP_mono_left fun d _ hin => ?_
        obtain ⟨hchannel, at_, hat, hwindow⟩ := inWindow_iff.mp hin
        rw [(hrow d).channelId] at hchannel
        cases (hrow d).deliveredAt with
        | inl hsame => exact inWindow_iff.mpr ⟨hchannel, at_, hsame ▸ hat, hwindow⟩
        | inr hnew =>
          obtain ⟨-, at', hsent, hat'⟩ := hnew
          rw [hat'] at hat
          exact absurd ⟨d.id, at', hsent, Option.some.inj hat ▸ hwindow.2⟩ hany
      exact_mod_cast hle

end Steps

/-- A run keeps every window within its limit. -/
theorem rateBounded_run (c : DrainSettings) (events : List OutboxEvent) {clock : Instant} {table : List Delivery}
    (h : RateBounded c clock table) (hclock : Clocked clock events) :
    ∃ clock', RateBounded c clock' (events.foldl (outboxStep c) table) := by
  induction events generalizing clock table with
  | nil => exact ⟨clock, h⟩
  | cons event events ih =>
    cases event with
    | enqueue customerCode channels suppressed createdAt =>
      exact ih (h.enqueue customerCode channels suppressed createdAt) hclock
    | tick t =>
      obtain ⟨⟨hnow, hstop, hout⟩, hrest⟩ := hclock
      exact ih (h.tick hnow hstop hout) hrest

theorem limit_nonneg (c : DrainSettings) (channel : ℕ) : 0 ≤ c.limit channel := by
  unfold DrainSettings.limit channelLimit
  split
  · exact Int.natCast_nonneg _
  · split
    · next hpos => exact hpos.le
    · exact Int.natCast_nonneg _

/-- **The rate limit**: whatever is queued and however the ticks fall, no window of the configured length holds
more deliveries of a channel than its limit. -/
theorem rate_limited (c : DrainSettings) (events : List OutboxEvent) (clock : Instant) (hclock : Clocked clock events)
    (channel : ℕ) (start : Instant) :
    ((runOutbox c events).countP (Delivery.inWindow c channel start) : ℤ) ≤ c.limit channel := by
  obtain ⟨clock', h⟩ := rateBounded_run c events (rateBounded_nil c clock) hclock
  exact (h.bounded channel start).trans_eq (max_eq_right (limit_nonneg c channel))

/-- A drain that never backs off. -/
def plainDrain : DrainSettings := { backoff := fun _ => 0, config := fun _ => some { maxPerMinute := some 1 } }

/-- A tick that sends whatever it claims one second after it began. -/
def sendingTick (now : Instant) : Tick where
  now := now
  batch := 100
  enabled := fun _ => true
  retryAt := fun _ => now + 30 * 10 ^ 6
  outcome := fun _ => .sent (now + 10 ^ 6)
  stop := now + 10 ^ 6

/-- Two deliveries of one channel, and two ticks within a window. -/
def twoTicks : List OutboxEvent :=
  [.enqueue "A" [7, 7] false 0, .tick (sendingTick 0), .tick (sendingTick (50 * 10 ^ 6))]

theorem rate_limited_twoTicks :
    ((runOutbox plainDrain twoTicks).countP (Delivery.inWindow plainDrain 7 0) : ℤ) ≤ plainDrain.limit 7 := by
  have hsends : ∀ now : Instant, ∀ id at_, (sendingTick now).outcome id = .sent at_ →
      now ≤ at_ ∧ at_ ≤ (sendingTick now).stop := by
    intro now id at_ hsent
    obtain rfl := AttemptOutcome.sent.inj hsent
    exact ⟨Int.le_add_of_nonneg_right (by decide), Int.le_refl _⟩
  have hclock : Clocked 0 twoTicks :=
    And.intro ⟨by decide, by decide, hsends 0⟩ (And.intro ⟨by decide, by decide, hsends (50 * 10 ^ 6)⟩ trivial)
  exact rate_limited plainDrain twoTicks 0 hclock 7 0

end RagPipeline.Notifications
