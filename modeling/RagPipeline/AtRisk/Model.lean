/-
  RagPipeline.AtRisk.Model — `analytics_at_risk/model.py`: the rules of the board.

  A delivery is judged against the instant its van is usually ready (`tierFor`); the backfill judges a
  delivery whose clocks are all known at the few instants at which its tier can change (`replayTiers`),
  from what the board would have seen then (`stateAsOf`).

  Instants and durations are microseconds.
-/
import RagPipeline.Analytics.Roles
import RagPipeline.Lib.ChangeLog
import Mathlib.Data.List.Sort
import Mathlib.Data.List.Dedup

namespace RagPipeline.AtRisk

open RagPipeline.Lib RagPipeline.Stage2

/-! ## §1. Data. -/

/-- A `timedelta`. -/
abbrev Duration := ℤ

/-- `Tier`. -/
inductive Tier where
  | none | watch | atRisk | leftBehind
  deriving DecidableEq, Repr

/-- `TIER_RANK`. -/
def Tier.rank : Tier → ℕ
  | .none => 0
  | .watch => 1
  | .atRisk => 2
  | .leftBehind => 3

/-- `DeliveryState`. -/
structure DeliveryState where
  deliveryNumber : String
  route : Option String
  customerName : Option String
  customerNumber : Option String
  departureAt : Instant
  linesExpected : Option ℤ
  linesConfirmed : ℤ
  linesPicked : ℤ
  linesShort : ℤ
  packagesCreated : ℤ
  packagesLoaded : ℤ
  lastPickAt : Option Instant
  lastLoadAt : Option Instant
  loadingExpected : Bool := true
  transactionNames : List String := []
  routeLoadedAt : Option Instant := none
  routeLoadingFrom : Option Instant := none

/-- `RouteClock`. -/
structure RouteClock where
  usualReadyAt : Instant
  source : String
  warnBefore : Duration
  goneAfter : Duration

/-! ## §2. Tiers. -/

/-- `picking_open`. -/
def pickingOpen (state : DeliveryState) : Bool :=
  match state.linesExpected with
  | none => decide (state.linesConfirmed = 0)
  | some expected => decide (state.linesConfirmed < expected)

/-- `loading_open`. -/
def loadingOpen (state : DeliveryState) : Bool :=
  state.loadingExpected && (decide (state.packagesLoaded = 0) || decide (state.packagesLoaded < state.packagesCreated))

/-- `minutes_to_departure`: a quotient in the decimal context, far from its bounds. -/
def minutesToDeparture (departure now : Instant) : ℚ :=
  (Analytics.decimalContext.round (((departure - now : ℤ) : ℚ) / 1000000 / 60)).getD 0

/-- `van_gone`. -/
def vanGone (state : DeliveryState) (now : Instant) (clock : RouteClock) : Bool :=
  if now < clock.usualReadyAt + clock.goneAfter then false
  else
    match state.loadingExpected, state.routeLoadedAt with
    | true, some loadedAt => decide (clock.goneAfter ≤ now - loadedAt)
    | _, _ => true

/-- `tier_for`. -/
def tierFor (state : DeliveryState) (now : Instant) (clock : RouteClock) : Tier :=
  let picking := pickingOpen state
  let loading := loadingOpen state
  if !(picking || loading) then .none
  else if vanGone state now clock then .leftBehind
  else if now < clock.usualReadyAt - clock.warnBefore then .none
  else if loading then .atRisk
  else .watch

/-! ## §3. Replaying the rule over the clocks. -/

/-- `TICK`. -/
def tick : Duration := 60000000

/-- `TierChange`. -/
structure TierChange where
  tier : Tier
  at_ : Instant
  minutesToUsualReady : ℚ

/-- `Replay`. -/
structure Replay where
  changes : List TierChange
  firstFlaggedAt : Option Instant
  firstFlaggedTier : Option Tier
  maxTier : Tier
  finalTier : Tier

/-- A clock that has run out by `at`; one that was never recorded leaves the counts as they are. -/
def done (clock : Option Instant) (at_ : Instant) : Bool := clock.all fun finished => decide (finished ≤ at_)

/-- `state_as_of`. -/
def stateAsOf (state : DeliveryState) (at_ : Instant) : DeliveryState :=
  let pickingDone := done state.lastPickAt at_
  let loadingDone := done state.lastLoadAt at_
  { state with
    linesConfirmed := if pickingDone then state.linesConfirmed else 0
    linesPicked := if pickingDone then state.linesPicked else 0
    linesShort := if pickingDone then state.linesShort else 0
    packagesLoaded := if loadingDone then state.packagesLoaded else 0
    lastPickAt := if pickingDone then state.lastPickAt else none
    lastLoadAt := if loadingDone then state.lastLoadAt else none
    routeLoadedAt := state.routeLoadedAt.map fun loadedAt => min loadedAt at_
    routeLoadingFrom := state.routeLoadingFrom.filter fun loadingFrom => decide (loadingFrom ≤ at_) }

/-- The instants of `replay_tiers`, before they are sorted. -/
def replayInstants (state : DeliveryState) (clock : RouteClock) (closeAt : Instant) : List Instant :=
  [clock.usualReadyAt - clock.warnBefore + tick, clock.usualReadyAt + tick, clock.usualReadyAt + clock.goneAfter + tick,
    closeAt]
    ++ (state.routeLoadedAt.map fun loadedAt => loadedAt + clock.goneAfter + tick).toList
    ++ state.lastPickAt.toList ++ state.lastLoadAt.toList

/-- `sorted(x for x in instants if x <= close_at)`, of a set. -/
def replaySchedule (state : DeliveryState) (clock : RouteClock) (closeAt : Instant) : List Instant :=
  (((replayInstants state clock closeAt).dedup).filter fun x => decide (x ≤ closeAt)).insertionSort (· ≤ ·)

/-- The loop of `replay_tiers`: the changes so far and the current tier. -/
def replayStep (state : DeliveryState) (clock : RouteClock) (acc : List TierChange × Tier) (at_ : Instant) :
    List TierChange × Tier :=
  let tier := tierFor (stateAsOf state at_) at_ clock
  if tier = acc.2 then acc
  else (acc.1 ++ [⟨tier, at_, minutesToDeparture clock.usualReadyAt at_⟩], tier)

/-- `max(tiers, key=TIER_RANK, default=none)`: the first of the highest ones. -/
def maxTier (tiers : List Tier) : Tier := tiers.foldl (fun best t => if best.rank < t.rank then t else best) .none

/-- `replay_tiers`. -/
def replayTiers (state : DeliveryState) (clock : RouteClock) (closeAt : Instant) : Replay :=
  let (changes, current) := (replaySchedule state clock closeAt).foldl (replayStep state clock) ([], .none)
  let flagged := changes.filter fun c => decide (c.tier ≠ .none)
  { changes := changes
    firstFlaggedAt := flagged.head?.map TierChange.at_
    firstFlaggedTier := flagged.head?.map TierChange.tier
    maxTier := maxTier (changes.map TierChange.tier)
    finalTier := current }

/-! ## §4. Outcomes. -/

/-- `OUTCOMES`. -/
inductive Outcome where
  | loadedInTime | loadedLate | neverLoaded | pickedInTime | pickedLate | unknown
  deriving DecidableEq, Repr

/-- `outcome_for`. -/
def outcomeFor (state : DeliveryState) : Outcome × Option ℚ :=
  if state.loadingExpected then
    let lead := state.lastLoadAt.map (minutesToDeparture state.departureAt)
    if loadingOpen state then (.neverLoaded, lead)
    else if lead.any fun l => decide (l < 0) then (.loadedLate, lead)
    else (.loadedInTime, lead)
  else
    let lead := state.lastPickAt.map (minutesToDeparture state.departureAt)
    if pickingOpen state || lead.all fun l => decide (l < 0) then (.pickedLate, lead)
    else (.pickedInTime, lead)

end RagPipeline.AtRisk
