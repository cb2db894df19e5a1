/-
  RagPipeline.AtRisk.Backfill — `backfill.py`: the deliveries of a past day, and the rows written for them.

  A day is read from the raw routing calls: the latest call that names a delivery says when it departs
  (`latest_get?`), and the deliveries of the day are those that depart on it (`states_spec`).  The rule is
  replayed for each of them, and the row that is written has the columns its history gives
  (`rowOk_writeClosed`).

  How a departure is read from its two texts, and how picks, packages and clocks are read from the tables,
  is given.
-/
import RagPipeline.AtRisk.Board
import RagPipeline.Lib.OrderedDict
import RagPipeline.Lib.Strip
import Mathlib.Data.String.Basic
import Mathlib.Data.Finset.Card

namespace RagPipeline.AtRisk

open RagPipeline.Lib RagPipeline.Stage2

/-! ## §1. The routing calls. -/

/-- `board_store._Route`. -/
structure Route where
  departureAt : Instant
  route : Option String
  customerName : Option String
  customerNumber : Option String

/-- A row of `log_transactions`: when the call began, and its response text. -/
structure RoutingCall where
  startedAt : Instant
  responseSummary : Option String

/-- What stands after the first place where `pat` does. -/
def after (pat : List Char) : List Char → Option (List Char)
  | [] => none
  | c :: t => if pat.isPrefixOf (c :: t) then some ((c :: t).drop pat.length) else after pat t

/-- `_field`: the text between the quotes after the name, if the quote is closed and the text is not blank. -/
def field (text : List Char) (name : String) : Option String :=
  let value := match after ("\"" ++ name ++ "\":\"").toList text with
    | some rest => if rest.contains '"' then stripBy isSpace (rest.takeWhile fun c => decide (c ≠ '"')) else []
    | none => []
  if value = [] then none else some (String.ofList value)

/-- `CALL_LOOKBACK`, in days. -/
def callLookback : ℤ := 3

/-- `CALLS_CAP`. -/
def callsCap : ℕ := 20000

/-! ## §2. The states of a day. -/

/-- `board_store._Picks`. -/
structure Picks where
  confirmed : ℤ := 0
  picked : ℤ := 0
  short : ℤ := 0
  lastPickAt : Option Instant := none
  transactionNames : List String := []

/-- `board_store._Packages`. -/
structure Packages where
  created : Finset String
  loaded : Finset String
  lastLoadAt : Option Instant

/-- `board_store._PackageRead`. -/
structure PackageRead where
  byDelivery : String → Option Packages
  routesThatLoad : String → Bool
  routeLoaded : String → Day → Option Instant
  routeLoadingFrom : String → Day → Option Instant

/-- What a call of `backfill_day` is given or reads: the day, the tenant's clock and settings, and the tables. -/
structure DayWork where
  day : Day
  now : Instant
  ruleVersion : String
  grace : Duration
  heldAfter : Duration
  /-- `astimezone(tz).date()` -/
  localDate : Instant → Day
  /-- `_local_midnight` -/
  midnight : Day → Instant
  /-- `model.departure_at` -/
  readDeparture : Option String → Option String → Option Instant
  calls : List RoutingCall
  picks : String → Option Picks
  expected : String → Option ℤ
  packages : Instant → Instant → PackageRead
  /-- The routes whose profile has loads. -/
  profilesLoad : String → Bool
  /-- `profile_store.clock_for`, of the profiles up to the day before. -/
  clockFor : DeliveryState → RouteClock

variable (w : DayWork)

/-- The calls that are read, in the order of their start. -/
def routingCalls : List RoutingCall :=
  ((w.calls.filter fun call =>
      decide (w.midnight (w.day - callLookback) ≤ call.startedAt) && decide (call.startedAt < w.midnight (w.day + 1))
        && call.responseSummary.any fun text => (after "\"DeparatureDate\"".toList text.toList).isSome).insertionSort
    fun a b => a.startedAt ≤ b.startedAt).take callsCap

/-- The loop of `routing_universe`: the routes by delivery, and how many departures were unreadable. -/
def readCall (acc : OrderedDict String Route × ℕ) (call : RoutingCall) : OrderedDict String Route × ℕ :=
  let text := (call.responseSummary.getD "").toList
  match field text "DeliveryNumber" with
  | none => acc
  | some delivery =>
    match w.readDeparture (field text "DeparatureDate") (field text "DeparatureTime") with
    | none => (acc.1, acc.2 + 1)
    | some departure =>
      -- the latest call wins, even when it moves the delivery off this day
      (acc.1.set delivery ⟨departure, field text "Route", field text "CustomerName", field text "CustomerNumber"⟩, acc.2)

/-- `routing_universe`. -/
def routingUniverse : OrderedDict String Route × ℕ :=
  let (latest, unreadable) := (routingCalls w).foldl (readCall w) (.empty, 0)
  (latest.filterItems fun item => decide (w.localDate item.2.departureAt = w.day), unreadable)

/-- `assemble`. -/
def assemble (delivery : String) (r : Route) (p : Picks) (k : Option Packages) (expected : Option ℤ)
    (loadingRoutes : String → Bool) (read : PackageRead) : DeliveryState :=
  let route := r.route.filter fun route => decide (route ≠ "")
  let date := w.localDate r.departureAt
  { deliveryNumber := delivery
    route := r.route
    customerName := r.customerName
    customerNumber := r.customerNumber
    departureAt := r.departureAt
    linesExpected := expected
    linesConfirmed := p.confirmed
    linesPicked := p.picked
    linesShort := p.short
    packagesCreated := (k.map fun k => (k.created.card : ℤ)).getD 0
    packagesLoaded := (k.map fun k => (k.loaded.card : ℤ)).getD 0
    lastPickAt := p.lastPickAt
    lastLoadAt := k.bind Packages.lastLoadAt
    loadingExpected := (route.map loadingRoutes).getD true
    transactionNames := p.transactionNames
    routeLoadedAt := route.bind fun route => read.routeLoaded route date
    routeLoadingFrom := route.bind fun route => read.routeLoadingFrom route date }

/-- The state of a delivery of the day. -/
def stateOf (read : PackageRead) (delivery : String) (r : Route) : DeliveryState :=
  assemble w delivery r ((w.picks delivery).getD {}) (read.byDelivery delivery) (w.expected delivery)
    (fun route => read.routesThatLoad route || w.profilesLoad route) read

/-- `read_day`: the states of the day, when the last of them closes, and the unreadable calls. -/
def readDay : List DeliveryState × Option Instant × ℕ :=
  let routes := (routingUniverse w).1
  match (routes.values.map Route.departureAt).max? with
  | none => ([], none, (routingUniverse w).2)
  | some last =>
    let closeAt := last + w.grace
    let read := w.packages (w.midnight (w.day - 1)) closeAt
    ((routes.keys.insertionSort (· ≤ ·)).filterMap fun d => (routes.get? d).map (stateOf w read d), some closeAt,
      (routingUniverse w).2)

/-! ## §3. Closed rows. -/

/-- `CATEGORIES`. -/
inductive Category where
  | missed | held | fine | unknown | open_
  deriving DecidableEq, Repr

/-- `category_for`. -/
def categoryFor (outcome : Option Outcome) (lastAt usualReadyAt : Option Instant) (linesExpected : Option ℤ)
    (linesConfirmed : ℤ) (heldAfter : Duration) : Category :=
  match outcome with
  | none => .open_
  | some .unknown => .unknown
  | some .neverLoaded => .missed
  | some .pickedLate =>
    let incomplete := match linesExpected with
      | some expected => decide (linesConfirmed < expected)
      | none => decide (linesConfirmed = 0)
    if incomplete then .missed else .held
  | some .loadedLate => .held
  | some _ =>
    match lastAt, usualReadyAt with
    | some last, some usual =>
      if heldAfter ≤ last - usual ∧ (heldAfter ≠ 0 ∨ usual < last) then .held else .fine
    | _, _ => .fine

/-- `DeliveryState.last_at`. -/
def DeliveryState.lastAt (state : DeliveryState) : Option Instant :=
  if state.loadingExpected then state.lastLoadAt else state.lastPickAt

/-- `write_closed`. -/
def writeClosed (state : DeliveryState) (clock : RouteClock) (replay : Replay) (closeAt : Instant) : DeliveryRow :=
  let row : DeliveryRow :=
    { deliveryNumber := state.deliveryNumber
      departureDate := w.localDate state.departureAt
      departureAt := state.departureAt
      tier := replay.finalTier
      maxTier := replay.maxTier
      firstFlaggedAt := replay.firstFlaggedAt
      firstFlaggedTier := replay.firstFlaggedTier
      tierHistory := replay.changes.map fun c => historyEntry c.tier c.at_ c.minutesToUsualReady clock
      ruleVersion := w.ruleVersion
      lastEvaluatedAt := w.now }
  let row := writeClock (writeProgress row state) clock
  { row with
    status := .closed
    closedAt := some closeAt
    outcome := some (outcomeFor state).1
    outcomeLeadMin := (outcomeFor state).2 }

/-! ## §4. The deliveries of a day. -/

/-- The delivery a call names and what it says of it, if its departure can be read. -/
def namedBy (call : RoutingCall) : Option (String × Route) :=
  let text := (call.responseSummary.getD "").toList
  match field text "DeliveryNumber", w.readDeparture (field text "DeparatureDate") (field text "DeparatureTime") with
  | some delivery, some departure =>
    some (delivery, ⟨departure, field text "Route", field text "CustomerName", field text "CustomerNumber"⟩)
  | _, _ => none

/-- What the last readable call that names the delivery says. -/
def lastCall (calls : List RoutingCall) (delivery : String) : Option Route :=
  (((calls.filterMap (namedBy w)).filter fun named => decide (named.1 = delivery)).getLast?).map Prod.snd

theorem readCall_get? (acc : OrderedDict String Route × ℕ) (call : RoutingCall) (delivery : String) :
    (readCall w acc call).1.get? delivery =
      match namedBy w call with
      | some (named, r) => if named = delivery then some r else acc.1.get? delivery
      | none => acc.1.get? delivery := by
  unfold readCall namedBy
  simp only
  cases field (call.responseSummary.getD "").toList "DeliveryNumber" with
  | none => rfl
  | some named =>
    cases w.readDeparture (field (call.responseSummary.getD "").toList "DeparatureDate")
        (field (call.responseSummary.getD "").toList "DeparatureTime") with
    | none => rfl
    | some departure =>
      simp only
      split
      · next heq =>
        rw [heq]
        exact OrderedDict.get?_set_self ..
      · next hne => exact OrderedDict.get?_set_ne _ _ (Ne.symm hne)

/-- After the calls each delivery is as the last call that names it says. -/
theorem latest_get? (calls : List RoutingCall) (delivery : String) :
    (calls.foldl (readCall w) (.empty, 0)).1.get? delivery = lastCall w calls delivery := by
  induction calls using List.reverseRecOn with
  | nil => rfl
  | append_singleton calls call ih =>
    rw [List.foldl_append, List.foldl_cons, List.foldl_nil, readCall_get?, ih]
    unfold lastCall
    rw [List.filterMap_append, List.filter_append, List.getLast?_append]
    cases hnamed : namedBy w call with
    | none => simp [hnamed]
    | some named =>
      obtain ⟨named, r⟩ := named
      by_cases heq : named = delivery
      · simp [hnamed, heq]
      · simp [hnamed, heq]

/-- A delivery is of the day if and only if its last call puts it there. -/
theorem mem_universe {delivery : String} {r : Route} :
    (delivery, r) ∈ (routingUniverse w).1.items ↔
      lastCall w (routingCalls w) delivery = some r ∧ w.localDate r.departureAt = w.day := by
  have hitems : (routingUniverse w).1.items =
      ((routingCalls w).foldl (readCall w) (.empty, 0)).1.items.filter
        fun item => decide (w.localDate item.2.departureAt = w.day) := rfl
  rw [hitems, List.mem_filter, ← OrderedDict.get?_eq_some, latest_get?, decide_eq_true_eq]

/-- What is made of the elements of a list, each of which can be read off what is made of it. -/
theorem map_filterMap_sublist {α β : Type} {f : α → Option β} {g : β → α} (h : ∀ a b, f a = some b → g b = a)
    (l : List α) : List.Sublist ((l.filterMap f).map g) l := by
  induction l with
  | nil => exact List.Sublist.slnil
  | cons a l ih =>
    cases hf : f a with
    | none =>
      rw [List.filterMap_cons_none hf]
      exact ih.cons a
    | some b =>
      rw [List.filterMap_cons_some hf, List.map_cons, h a b hf]
      exact ih.cons_cons a

/-- The states of the day: one for each delivery of it. -/
theorem states_spec : ((readDay w).1.map DeliveryState.deliveryNumber).Nodup ∧
    (∀ state ∈ (readDay w).1, w.localDate state.departureAt = w.day) ∧
    ∀ delivery r, lastCall w (routingCalls w) delivery = some r → w.localDate r.departureAt = w.day →
      ∃ state ∈ (readDay w).1, state.deliveryNumber = delivery := by
  unfold readDay
  simp only
  split
  · next hmax =>
    -- no delivery departs on the day
    refine ⟨List.nodup_nil, fun _ h => absurd h List.not_mem_nil, fun delivery r hlast hday => ?_⟩
    have hmem : r.departureAt ∈ (routingUniverse w).1.values.map Route.departureAt :=
      List.mem_map_of_mem (OrderedDict.mem_values.mpr ⟨delivery, (mem_universe w).mpr ⟨hlast, hday⟩⟩)
    rw [List.max?_eq_none_iff.mp hmax] at hmem
    exact absurd hmem List.not_mem_nil
  · next last hmax =>
    set read := w.packages (w.midnight (w.day - 1)) (last + w.grace)
    refine ⟨?_, fun state hstate => ?_, fun delivery r hlast hday => ?_⟩
    · refine List.Nodup.sublist (map_filterMap_sublist (fun d state h => ?_) _)
        ((List.perm_insertionSort _ _).nodup_iff.mpr (routingUniverse w).1.nodup)
      obtain ⟨r, -, rfl⟩ := Option.map_eq_some_iff.mp h
      rfl
    · obtain ⟨d, -, h⟩ := List.mem_filterMap.mp hstate
      obtain ⟨r, hr, rfl⟩ := Option.map_eq_some_iff.mp h
      exact ((mem_universe w).mp (OrderedDict.get?_eq_some.mp hr)).2
    · have hmem := (mem_universe w).mpr ⟨hlast, hday⟩
      refine ⟨stateOf w read delivery r, List.mem_filterMap.mpr ⟨delivery, ?_, ?_⟩, rfl⟩
      · exact (List.perm_insertionSort _ _).mem_iff.mpr (List.mem_map_of_mem (f := Prod.fst) hmem)
      · rw [OrderedDict.get?_eq_some.mpr hmem]
        rfl

/-! ## §5. What is written. -/

theorem maxTier_foldl (tiers : List Tier) (best : Tier) :
    let top := tiers.foldl (fun best t => if best.rank < t.rank then t else best) best
    (best.rank ≤ top.rank ∧ ∀ t ∈ tiers, t.rank ≤ top.rank) ∧ (top = best ∨ top ∈ tiers) := by
  induction tiers generalizing best with
  | nil => exact ⟨⟨le_rfl, nofun⟩, .inl rfl⟩
  | cons t tiers ih =>
    obtain ⟨⟨hbest, hall⟩, hmem⟩ := ih (if best.rank < t.rank then t else best)
    have hstep : best.rank ≤ (if best.rank < t.rank then t else best).rank ∧
        t.rank ≤ (if best.rank < t.rank then t else best).rank := by
      split <;> omega
    refine ⟨⟨hstep.1.trans hbest, List.forall_mem_cons.mpr ⟨hstep.2.trans hbest, hall⟩⟩, ?_⟩
    rcases hmem with hmem | hmem
    · rw [List.foldl_cons, hmem]
      split
      · exact .inr List.mem_cons_self
      · exact .inl rfl
    · exact .inr (List.mem_cons_of_mem t hmem)

/-- The current tier of a replay is the one of its last change. -/
theorem replay_current (state : DeliveryState) (clock : RouteClock) (instants : List Instant)
    (acc : List TierChange × Tier) (h : acc.2 = (acc.1.getLast?.map TierChange.tier).getD .none) :
    let acc' := instants.foldl (replayStep state clock) acc
    acc'.2 = (acc'.1.getLast?.map TierChange.tier).getD .none := by
  induction instants generalizing acc with
  | nil => exact h
  | cons t instants ih =>
    refine ih _ ?_
    unfold replayStep
    simp only
    split
    · exact h
    · simp

/-- A replay is what its changes say, and ends with the tier of the last one. -/
theorem replayTiers_spec (state : DeliveryState) (clock : RouteClock) (closeAt : Instant) :
    ∃ changes : List TierChange, replayTiers state clock closeAt =
      { changes := changes
        firstFlaggedAt := (changes.filter fun c => decide (c.tier ≠ .none)).head?.map TierChange.at_
        firstFlaggedTier := (changes.filter fun c => decide (c.tier ≠ .none)).head?.map TierChange.tier
        maxTier := maxTier (changes.map TierChange.tier)
        finalTier := (changes.getLast?.map TierChange.tier).getD .none } := by
  have hcurrent := replay_current state clock (replaySchedule state clock closeAt) ([], .none) rfl
  unfold replayTiers
  generalize (replaySchedule state clock closeAt).foldl (replayStep state clock) ([], .none) = acc at hcurrent ⊢
  obtain ⟨changes, current⟩ := acc
  have hlast : current = (changes.getLast?.map TierChange.tier).getD .none := hcurrent
  subst hlast
  exact ⟨changes, rfl⟩

/-- **A row that is written is in order**: its columns are those of the history that was replayed. -/
theorem rowOk_writeClosed (state : DeliveryState) (clock : RouteClock) (closeAt at_ : Instant) :
    RowOk (writeClosed w state clock (replayTiers state clock closeAt) at_) := by
  obtain ⟨changes, hreplay⟩ := replayTiers_spec state clock closeAt
  rw [hreplay]
  have hmax := maxTier_foldl (changes.map TierChange.tier) .none
  have hfirst : (changes.map fun c => historyEntry c.tier c.at_ c.minutesToUsualReady clock).find? HistoryEntry.flagged =
      ((changes.filter fun c => decide (c.tier ≠ .none)).head?).map
        fun c => historyEntry c.tier c.at_ c.minutesToUsualReady clock := by
    rw [List.find?_map, List.head?_filter]
    rfl
  constructor
  · show (changes.getLast?.map TierChange.tier).getD .none =
      (((changes.map fun c => historyEntry c.tier c.at_ c.minutesToUsualReady clock).getLast?).map HistoryEntry.tier).getD .none
    rw [List.getLast?_map, Option.map_map]
    rfl
  · intro entry hentry
    obtain ⟨c, hc, rfl⟩ := List.mem_map.mp hentry
    exact hmax.1.2 c.tier (List.mem_map_of_mem hc)
  · rcases hmax.2 with hnone | hmem
    · exact .inl hnone
    · obtain ⟨c, hc, htier⟩ := List.mem_map.mp hmem
      exact .inr ⟨_, List.mem_map_of_mem hc, htier⟩
  · refine Eq.trans ?_ (congrArg (Option.map HistoryEntry.at_) hfirst.symm)
    rw [Option.map_map]
    rfl
  · refine Eq.trans ?_ (congrArg (Option.map HistoryEntry.tier) hfirst.symm)
    rw [Option.map_map]
    rfl

end RagPipeline.AtRisk
