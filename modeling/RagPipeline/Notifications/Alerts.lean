/-
  RagPipeline.Notifications.Alerts — the streaming rules: evaluate a page, publish, move the cursors.

  The bus calls each subscriber and logs what it raises; the dispatcher's `enqueue` persists the event in
  a session of its own.  The cursors are committed afterwards, whatever became of the events.

    * `publishNew`, `candidatesFor` — one evaluation;
    * `Alerts.move`                 — a write of Stage 2, an evaluation, or one that is cut short;
    * `alerts_kept`                 — in a run of clean moves no alert is lost behind a cursor;
    * `lostOutbox_not_kept`         — one event that cannot be persisted is.
-/
import RagPipeline.Notifications.Cursor
import RagPipeline.Stage2.Compute

namespace RagPipeline.Notifications

open RagPipeline.Stage2

/-! ## §1. The bus and the outbox. -/

/-- `NotificationEvent`: what identifies it. -/
structure NotificationEvent where
  dedupKey : String
  ruleId : RuleId
  deriving DecidableEq, Repr

/-- `notification_events`. -/
abbrev Outbox := List NotificationEvent

/-- `existing_dedup_keys`, of one key. -/
def Outbox.has (outbox : Outbox) (key : String) : Bool := outbox.any fun e => decide (e.dedupKey = key)

/-- A subscriber; `none` where it raises, and then its transaction is rolled back. -/
abbrev Handler := Outbox → NotificationEvent → Option Outbox

/-- `EventBus.publish`: what a subscriber raises is logged. -/
def publish (subscribers : List Handler) (outbox : Outbox) (event : NotificationEvent) : Outbox :=
  subscribers.foldl (fun outbox handler => (handler outbox event).getD outbox) outbox

/-- `enqueue`, on a database that fails for the events `fails` picks. -/
def enqueue (fails : NotificationEvent → Bool) : Handler := fun outbox event =>
  if fails event then none
  else if outbox.has event.dedupKey then some outbox
  else some (outbox ++ [event])

/-- The loop of `_publish_new`; `existing` are the keys that are known to be in the outbox. -/
def publishLoop (fails : NotificationEvent → Bool) :
    List NotificationEvent → List String → Outbox → Outbox
  | [], _, outbox => outbox
  | event :: rest, existing, outbox =>
      if event.dedupKey ∈ existing then publishLoop fails rest existing outbox
      else publishLoop fails rest (event.dedupKey :: existing) (publish [enqueue fails] outbox event)

/-- `_publish_new`. -/
def publishNew (fails : NotificationEvent → Bool) (outbox : Outbox)
    (candidates : List NotificationEvent) : Outbox :=
  publishLoop fails candidates ((candidates.map NotificationEvent.dedupKey).filter outbox.has) outbox

section Engine

variable {γ : Type} (c : CursorSettings) (extra : Version γ → Bool)
  (evaluate : RuleId → Version γ → Option NotificationEvent)

/-- `_events_from`. -/
def eventsFrom (rule : RuleId) (cursor : Option Instant) (txns : List (Version γ)) :
    List NotificationEvent :=
  txns.filterMap fun txn => if isAfter txn.updatedAt cursor then evaluate rule txn else none

/-- `_candidates_for`. -/
def candidatesFor (rules : List RuleId) (cursors : RuleId → Option Instant) (txns : List (Version γ)) :
    List NotificationEvent :=
  rules.flatMap fun rule => eventsFrom evaluate rule (cursors rule) txns

/-! ## §2. Steps. -/

/-- The feed, the rules' cursors and the outbox. -/
structure Alerts (γ : Type) where
  feed : Feed γ
  outbox : Outbox := []

/-- What can happen: Stage 2 commits a version; `_run_customer_streaming` evaluates a page and commits
    the cursors; or it gets no further than `published` candidates, and the cursors stay. -/
inductive Move (γ : Type) where
  | commit (v : Version γ)
  | evaluate (rules : List RuleId) (now : Instant) (limit : ℕ) (window : Window)
      (rows : List (Version γ)) (fails : NotificationEvent → Bool)
  | cutShort (rules : List RuleId) (now : Instant) (limit : ℕ) (window : Window)
      (rows : List (Version γ)) (fails : NotificationEvent → Bool) (published : ℕ)

/-- The window and the page are those of the rules. -/
def Move.Possible (s : Alerts γ) : Move γ → Prop
  | .commit _ => True
  | .evaluate rules now limit window rows _ =>
      readWindowForGroup c now (rules.map s.feed.cursors) = some window ∧
        IsPage extra window limit s.feed.table rows
  | .cutShort rules now limit window rows _ _ =>
      readWindowForGroup c now (rules.map s.feed.cursors) = some window ∧
        IsPage extra window limit s.feed.table rows

/-- **One move**: the cursors are committed whatever the subscribers raised. -/
def Alerts.move (s : Alerts γ) : Move γ → Alerts γ
  | .commit v => { s with feed := s.feed.commit v }
  | .evaluate rules now limit window rows fails =>
      { feed := s.feed.read c rules now limit window rows
        outbox := publishNew fails s.outbox (candidatesFor evaluate rules s.feed.cursors rows) }
  | .cutShort rules _ _ _ rows fails published =>
      { s with
        outbox := publishNew fails s.outbox
          ((candidatesFor evaluate rules s.feed.cursors rows).take published) }

/-- Nothing written, nothing read, nothing published: rules that begin at their cursors. -/
structure Alerts.Start (s : Alerts γ) : Prop where
  feed : s.feed.Start
  empty : s.feed.table = []
  outbox : s.outbox = []

/-- **No alert is lost**: of a version that a rule has moved past and that matches it, the event is in
    the outbox. -/
def Alerts.Kept (s : Alerts γ) : Prop :=
  ∀ r p b, s.feed.cursors r = some p → s.feed.started r = some b → ∀ v ∈ s.feed.committed,
    b ≤ v.updatedAt → v.updatedAt < p → ∀ event, evaluate r v = some event →
      s.outbox.has event.dedupKey = true

/-- A rule may still have to read a version. -/
def Feed.Unread (s : Feed γ) (r : RuleId) (v : Version γ) : Prop :=
  (∀ p, s.cursors r = some p → p ≤ v.updatedAt) ∧ ∀ b, s.started r = some b → b ≤ v.updatedAt

/-- **A clean move.** -/
def Move.Clean (s : Alerts γ) : Move γ → Prop
  -- a write is stamped above the row's versions and every horizon, and the gate lets it through if it
  -- matches a rule
  | .commit v =>
      (∀ w ∈ s.feed.committed, w.id = v.id → w.updatedAt < v.updatedAt) ∧
      (∀ horizon, s.feed.horizon = some horizon → horizon < v.updatedAt) ∧
      ∀ r, (evaluate r v).isSome → extra v = true
  -- too few rows share a stamp to fill a page, every new event is persisted, and no rule moves past a
  -- version that was replaced before the rule read it and whose alert is still to come
  | .evaluate rules _ limit window rows fails =>
      (∀ t, (s.feed.table.filter fun v => decide (v.updatedAt = t)).length < limit) ∧
      (∀ event ∈ candidatesFor evaluate rules s.feed.cursors rows,
        s.outbox.has event.dedupKey = false → fails event = false) ∧
      ∀ r ∈ rules, ∀ v ∈ s.feed.committed, v ∉ s.feed.table → s.feed.Unread r v →
        v.updatedAt < advance window rows.length limit (newest rows) →
          ∀ event, evaluate r v = some event → s.outbox.has event.dedupKey = true
  -- an evaluation that is cut short may fail anywhere
  | .cutShort .. => True

/-- A run of moves of which each satisfies `P`. -/
inductive Runs (P : Alerts γ → Move γ → Prop) (s₀ : Alerts γ) : Alerts γ → Prop
  | start : Runs P s₀ s₀
  | move {s : Alerts γ} (m : Move γ) (run : Runs P s₀ s) (possible : m.Possible c extra s)
      (allowed : P s m) : Runs P s₀ (s.move c evaluate m)

end Engine

/-! ## §3. Publishing. -/

theorem has_append {outbox more : Outbox} {key : String} (h : outbox.has key = true) :
    Outbox.has (outbox ++ more) key = true := by
  unfold Outbox.has at h ⊢
  rw [List.any_append, h, Bool.true_or]

theorem publish_enqueue (fails : NotificationEvent → Bool) (outbox : Outbox) (event : NotificationEvent) :
    (publish [enqueue fails] outbox event = outbox ∨
      publish [enqueue fails] outbox event = outbox ++ [event]) ∧
    (fails event = false → Outbox.has (publish [enqueue fails] outbox event) event.dedupKey = true) := by
  have hself : Outbox.has (outbox ++ [event]) event.dedupKey = true := by simp [Outbox.has]
  unfold publish enqueue
  simp only [List.foldl_cons, List.foldl_nil]
  by_cases hfails : fails event = true
  · simp [hfails]
  · by_cases hhas : outbox.has event.dedupKey = true
    · rw [if_neg hfails, if_pos hhas]
      exact ⟨Or.inl rfl, fun _ => hhas⟩
    · rw [if_neg hfails, if_neg hhas]
      exact ⟨Or.inr rfl, fun _ => hself⟩

/-- Nothing leaves the outbox. -/
theorem publishLoop_grows (fails : NotificationEvent → Bool) {events : List NotificationEvent}
    {existing : List String} {outbox : Outbox} {key : String} (h : outbox.has key = true) :
    Outbox.has (publishLoop fails events existing outbox) key = true := by
  induction events generalizing existing outbox with
  | nil => exact h
  | cons event rest ih =>
    unfold publishLoop
    split
    · exact ih h
    · apply ih
      rcases (publish_enqueue fails outbox event).1 with heq | heq
      · rw [heq]
        exact h
      · rw [heq]
        exact has_append h

/-- **Every event that is new is persisted, if none of them fails.** -/
theorem publishLoop_has {fails : NotificationEvent → Bool} {events : List NotificationEvent}
    {existing : List String} {outbox : Outbox}
    (hexisting : ∀ key ∈ existing, outbox.has key = true)
    (hpersists : ∀ event ∈ events, event.dedupKey ∉ existing → fails event = false)
    {event : NotificationEvent} (hevent : event ∈ events) :
    Outbox.has (publishLoop fails events existing outbox) event.dedupKey = true := by
  induction events generalizing existing outbox with
  | nil => exact absurd hevent List.not_mem_nil
  | cons first rest ih =>
    unfold publishLoop
    split
    · next hknown =>
      rcases List.mem_cons.mp hevent with rfl | hrest
      · exact publishLoop_grows fails (hexisting _ hknown)
      · exact ih hexisting (fun e he => hpersists e (List.mem_cons_of_mem _ he)) hrest
    · next hnew =>
      -- a new key is written now, and it is among the known ones for the rest of the loop
      have hdone := (publish_enqueue fails outbox first).2 (hpersists first List.mem_cons_self hnew)
      rcases List.mem_cons.mp hevent with rfl | hrest
      · exact publishLoop_grows fails hdone
      · refine ih ?_ ?_ hrest
        · intro key hkey
          rcases List.mem_cons.mp hkey with rfl | hkey
          · exact hdone
          · rcases (publish_enqueue fails outbox first).1 with heq | heq
            · rw [heq]
              exact hexisting key hkey
            · rw [heq]
              exact has_append (hexisting key hkey)
        · intro e he hnot
          exact hpersists e (List.mem_cons_of_mem _ he) fun hin => hnot (List.mem_cons_of_mem _ hin)

theorem publishNew_has {fails : NotificationEvent → Bool} {outbox : Outbox}
    {candidates : List NotificationEvent}
    (hpersists : ∀ event ∈ candidates, outbox.has event.dedupKey = false → fails event = false)
    {event : NotificationEvent} (hevent : event ∈ candidates) :
    Outbox.has (publishNew fails outbox candidates) event.dedupKey = true := by
  refine publishLoop_has ?_ ?_ hevent
  · intro key hkey
    exact (List.mem_filter.mp hkey).2
  · intro e he hnot
    apply hpersists e he
    rw [← Bool.not_eq_true]
    intro hhas
    exact hnot (List.mem_filter.mpr ⟨List.mem_map_of_mem he, hhas⟩)

theorem publishNew_grows (fails : NotificationEvent → Bool) {outbox : Outbox}
    (candidates : List NotificationEvent) {key : String} (h : outbox.has key = true) :
    Outbox.has (publishNew fails outbox candidates) key = true :=
  publishLoop_grows fails h

/-! ## §4. No alert is lost in a clean run. -/

section Kept

variable {γ : Type} {c : CursorSettings} {extra : Version γ → Bool}
  {evaluate : RuleId → Version γ → Option NotificationEvent}

/-- A rule's event of a row it reads is a candidate. -/
theorem mem_candidatesFor {rules : List RuleId} {cursors : RuleId → Option Instant}
    {rows : List (Version γ)} {r : RuleId} (hr : r ∈ rules) {v : Version γ}
    (hv : v ∈ rows.filter fun v => isAfter v.updatedAt (cursors r)) {event : NotificationEvent}
    (he : evaluate r v = some event) : event ∈ candidatesFor evaluate rules cursors rows := by
  obtain ⟨hrow, hafter⟩ := List.mem_filter.mp hv
  refine List.mem_flatMap.mpr ⟨r, hr, List.mem_filterMap.mpr ⟨v, hrow, ?_⟩⟩
  rw [if_pos hafter, he]

variable (extra evaluate) in
/-- The invariant of a clean run. -/
structure Sound (s : Alerts γ) : Prop where
  feed : Inv extra s.feed
  /-- a row that matches a rule passes the gate -/
  alertable : ∀ v ∈ s.feed.table, ∀ r, (evaluate r v).isSome → extra v = true
  /-- what was returned to a rule and matches it is in the outbox -/
  outboxed : ∀ r, ∀ v ∈ s.feed.returned r, ∀ event, evaluate r v = some event →
    s.outbox.has event.dedupKey = true
  /-- the alert of a version that a rule has moved past is in the outbox -/
  kept : s.Kept evaluate

theorem sound_start {s : Alerts γ} (h : s.Start) : Sound extra evaluate s := by
  constructor
  · exact inv_start h.feed
  · intro v hv
    rw [h.empty] at hv
    exact absurd hv List.not_mem_nil
  · intro r v hv
    rw [h.feed.unread r] at hv
    exact absurd hv List.not_mem_nil
  · intro r p b _ _ v hv
    rw [h.feed.all, h.empty] at hv
    exact absurd hv List.not_mem_nil

/-- A clean write keeps the invariant. -/
theorem sound_commit {s : Alerts γ} (h : Sound extra evaluate s) {v : Version γ}
    (hclean : (Move.commit v).Clean extra evaluate s) :
    Sound extra evaluate (s.move c evaluate (.commit v)) := by
  obtain ⟨hstamped, hsettled, halertable⟩ := hclean
  constructor
  · exact inv_commit h.feed hstamped hsettled
  · intro w hw r hr
    rcases List.mem_append.mp hw with hold | hnew
    · exact h.alertable w (List.mem_filter.mp hold).1 r hr
    · obtain rfl := List.mem_singleton.mp hnew
      exact halertable r hr
  · exact h.outboxed
  · intro r p b hp hb w hw hlo hhi event he
    rcases List.mem_append.mp hw with hold | hnew
    · exact h.kept r p b hp hb w hold hlo hhi event he
    · -- no cursor is past a stamp above every horizon
      obtain rfl := List.mem_singleton.mp hnew
      rcases h.feed.behind r p b hp hb with hle | ⟨horizon, hhorizon, hle⟩
      · exact absurd (lt_of_lt_of_le hhi hle) (not_lt.mpr hlo)
      · exact absurd (lt_of_lt_of_le hhi hle) (not_lt.mpr (hsettled horizon hhorizon).le)

/-- A clean evaluation keeps it. -/
theorem sound_evaluate {s : Alerts γ} (h : Sound extra evaluate s) {rules : List RuleId}
    {now : Instant} {limit : ℕ} {window : Window} {rows : List (Version γ)}
    {fails : NotificationEvent → Bool}
    (hpossible : (Move.evaluate rules now limit window rows fails).Possible c extra s)
    (hclean : (Move.evaluate rules now limit window rows fails).Clean extra evaluate s) :
    Sound extra evaluate (s.move c evaluate (.evaluate rules now limit window rows fails)) := by
  obtain ⟨hwindow, hpage⟩ := hpossible
  obtain ⟨hties, hpersists, hreplaced⟩ := hclean
  have hreads : s.feed.Reads c extra rules now (s.feed.read c rules now limit window rows) :=
    ⟨limit, window, rows, hwindow, hpage, hties, rfl⟩
  -- what a rule has read is in the outbox: an event of before stays, a new one is written in this evaluation
  have houtboxed : ∀ r, ∀ v ∈ (s.move c evaluate (.evaluate rules now limit window rows fails)).feed.returned r,
      ∀ event, evaluate r v = some event →
        (s.move c evaluate (.evaluate rules now limit window rows fails)).outbox.has event.dedupKey = true := by
    intro r v hv event he
    by_cases hr : r ∈ rules
    · have hreturned : v ∈ s.feed.returned r ++ rows.filter
          (fun v => isAfter v.updatedAt (s.feed.cursors r)) := by
        simpa only [Alerts.move, Feed.read, if_pos hr] using hv
      rcases List.mem_append.mp hreturned with hold | hnew
      · exact publishNew_grows fails _ (h.outboxed r v hold event he)
      · exact publishNew_has hpersists (mem_candidatesFor hr hnew he)
    · have hold : v ∈ s.feed.returned r := by
        simpa only [Alerts.move, Feed.read, if_neg hr] using hv
      exact publishNew_grows fails _ (h.outboxed r v hold event he)
  refine ⟨inv_read h.feed hreads, h.alertable, houtboxed, ?_⟩
  · intro r p b hp hb v hv hlo hhi event he
    by_cases hr : r ∈ rules
    · -- what the rule has passed before is alerted on; the rest was read, or is gone
      by_cases hpassed : ∃ p', s.feed.cursors r = some p' ∧ v.updatedAt < p'
      · obtain ⟨p', hp', hlt⟩ := hpassed
        obtain ⟨b', hb'⟩ := Option.isSome_iff_exists.mp ((h.feed.begun r).trans (by rw [hp']; rfl))
        have hsame : b = b' := by
          simp only [Alerts.move, Feed.read, if_pos hr, hb', Option.getD_some] at hb
          exact (Option.some.inj hb).symm
        exact publishNew_grows fails _ (h.kept r p' b' hp' hb' v hv (hsame ▸ hlo) hlt event he)
      · have hunread : s.feed.Unread r v := by
          refine ⟨fun p' hp' => not_lt.mp fun hlt => hpassed ⟨p', hp', hlt⟩, fun b' hb' => ?_⟩
          simp only [Alerts.move, Feed.read, if_pos hr, hb', Option.getD_some] at hb
          exact Option.some.inj hb ▸ hlo
        by_cases htable : v ∈ s.feed.table
        · have hextra := h.alertable v htable r (by rw [he]; rfl)
          exact houtboxed r v ((inv_read h.feed hreads).seen r p b hp hb v htable hlo hhi hextra) event he
        · have hnext : v.updatedAt < advance window rows.length limit (newest rows) := by
            simp only [Alerts.move, Feed.read, if_pos hr] at hp
            obtain rfl := Option.some.inj hp
            unfold advanceRule forwardOnly at hhi
            cases hc : s.feed.cursors r with
            | none =>
              rw [hc] at hhi
              exact hhi
            | some p' =>
              rw [hc] at hhi
              exact (lt_max_iff.mp hhi).resolve_left fun hlt => hpassed ⟨p', hc, hlt⟩
          exact publishNew_grows fails _ (hreplaced r hr v hv htable hunread hnext event he)
    · simp only [Alerts.move, Feed.read, if_neg hr] at hp hb
      exact publishNew_grows fails _ (h.kept r p b hp hb v hv hlo hhi event he)

/-- **Every clean move keeps the invariant.** -/
theorem sound_move {s : Alerts γ} (h : Sound extra evaluate s) {m : Move γ}
    (hpossible : m.Possible c extra s) (hclean : m.Clean extra evaluate s) :
    Sound extra evaluate (s.move c evaluate m) := by
  cases m with
  | commit v => exact sound_commit h hclean
  | evaluate rules now limit window rows fails => exact sound_evaluate h hpossible hclean
  | cutShort rules now limit window rows fails published =>
    constructor
    · exact h.feed
    · exact h.alertable
    · intro r v hv event he
      exact publishNew_grows fails _ (h.outboxed r v hv event he)
    · intro r p b hp hb v hv hlo hhi event he
      exact publishNew_grows fails _ (h.kept r p b hp hb v hv hlo hhi event he)

/-- **In a run of clean moves no alert is lost.** -/
theorem alerts_kept {s₀ s : Alerts γ} (hstart : s₀.Start)
    (hrun : Runs c extra evaluate (Move.Clean extra evaluate) s₀ s) : s.Kept evaluate := by
  have hsound : Sound extra evaluate s := by
    induction hrun with
    | start => exact sound_start hstart
    | move m _ hpossible hclean ih => exact sound_move ih hpossible hclean
  exact hsound.kept

end Kept

/-! ## §5. A status rule. -/

/-- `LogTransactionStatus.value`. -/
def statusValue : TxnStatus → String
  | .success => "success"
  | .soft => "soft"
  | .error => "error"
  | .incomplete => "incomplete"

/-- What the rules and the gate read of a transaction. -/
structure Txn where
  status : TxnStatus
  method : Option String := none
  isSealed : Bool := false

/-- `alertable_predicate`. -/
def alertablePredicate (alertOnlySealed : Bool) (v : Version Txn) : Bool :=
  v.content.isSealed || (!alertOnlySealed && decide (v.content.status ≠ .incomplete))

/-- `StatusMatchEvaluator.evaluate`; no statuses mean errors. -/
def statusMatch (statuses : List String) (methods : List String) (rule : RuleId) (v : Version Txn) :
    Option NotificationEvent :=
  if statusValue v.content.status ∉ (if statuses = [] then ["error"] else statuses) then none
  else if methods ≠ [] ∧ v.content.method.all (fun m => decide (m ∉ methods)) = true then none
  else some ⟨"rule:" ++ toString rule ++ ":txn:" ++ toString v.id ++ ":status:" ++
    statusValue v.content.status, rule⟩

/-- A rule that begins at 0, and an empty table. -/
def noTransaction : Alerts Txn where
  feed :=
    { table := []
      committed := []
      cursors := fun r => if r = 0 then some 0 else none
      started := fun r => if r = 0 then some 0 else none }

/-- A transaction that failed, stamped at one second. -/
def failedTxn : Version Txn := ⟨1, second, { status := .error }⟩

/-- It has been written. -/
def oneFailed : Alerts Txn := { noTransaction with feed := noTransaction.feed.commit failedTxn }

/-- The evaluation of it, on a database that fails for the events `fails` picks. -/
def evaluation (fails : NotificationEvent → Bool) : Move Txn :=
  .evaluate [0] (62 * second) 2000 ⟨0, 2 * second⟩ [failedTxn] fails

theorem noTransaction_start : noTransaction.Start :=
  ⟨⟨List.nodup_nil, rfl, rfl, fun _ => rfl, rfl⟩, rfl, rfl⟩

theorem evaluation_possible (fails : NotificationEvent → Bool) :
    (evaluation fails).Possible {} (alertablePredicate false) oneFailed :=
  ⟨rfl, [failedTxn], List.Perm.refl _, List.pairwise_singleton _ _, rfl⟩

theorem alerts_kept_oneFailed :
    (oneFailed.move {} (statusMatch [] []) (evaluation fun _ => false)).Kept (statusMatch [] []) := by
  have hwritten : Runs {} (alertablePredicate false) (statusMatch [] [])
      (Move.Clean (alertablePredicate false) (statusMatch [] [])) noTransaction oneFailed := by
    refine Runs.move (.commit failedTxn) .start trivial ⟨?_, ?_, ?_⟩
    · intro w hw
      exact absurd hw List.not_mem_nil
    · intro horizon h
      exact absurd h (by simp [noTransaction])
    · intro _ _
      rfl
  refine alerts_kept noTransaction_start
    (Runs.move (evaluation fun _ => false) hwritten (evaluation_possible _) ⟨?_, ?_, ?_⟩)
  · intro t
    exact (List.length_filter_le _ _).trans_lt (by decide)
  · intro _ _ _
    rfl
  · -- the table has every version that was written
    intro _ _ v hv hgone
    exact absurd hv hgone

/-- In every run no alert is lost. -/
def NoAlertIsLost : Prop :=
  ∀ (γ : Type) (c : CursorSettings) (extra : Version γ → Bool)
    (evaluate : RuleId → Version γ → Option NotificationEvent) (s₀ s : Alerts γ), s₀.Start →
    Runs c extra evaluate (fun _ _ => True) s₀ s → s.Kept evaluate

/-- The event could not be persisted, and the cursor has passed the transaction. -/
theorem lostOutbox_not_kept : ¬NoAlertIsLost := by
  intro h
  have hwritten : Runs {} (alertablePredicate false) (statusMatch [] []) (fun _ _ => True)
      noTransaction oneFailed := Runs.move (.commit failedTxn) .start trivial trivial
  have hkept := h Txn {} (alertablePredicate false) (statusMatch [] []) noTransaction _
    noTransaction_start
    (Runs.move (evaluation fun _ => true) hwritten (evaluation_possible _) trivial)
  have hhas := hkept 0 (2 * second) 0 rfl rfl failedTxn (List.mem_singleton.mpr rfl) (by decide)
    (by decide) _ rfl
  exact absurd hhas (by decide)

end RagPipeline.Notifications
