/-
  RagPipeline.AtRisk.DeliveryStore — `delivery_store.py` and `check_store.py`: the rows of the board.

  `apply` upserts a row for each state and judges its tier, `closeDue` turns open rows whose departure has
  passed into outcomes, `sweep` closes what is still open a day later, and a person may mark a delivery as
  checked at any time.  The rows are those of one tenant, in the order in which they came; the advisory
  lock makes every step one transaction.

  A history entry keeps its instants and its minutes, not their texts.
-/
import RagPipeline.AtRisk.Model

namespace RagPipeline.AtRisk

open RagPipeline.Lib RagPipeline.Stage2

/-! ## §1. Rows. -/

/-- A tenant-local date, as a number of days. -/
abbrev Day := ℤ

/-- `STATUSES`. -/
inductive Status where
  | open_ | closed
  deriving DecidableEq, Repr

/-- One element of `tier_history`. -/
structure HistoryEntry where
  tier : Tier
  at_ : Instant
  minutesToUsualReady : ℚ
  usualReadyAt : Instant
  source : String

/-- `AnalyticsAtRiskDelivery`. -/
structure DeliveryRow where
  deliveryNumber : String
  departureDate : Day
  departureAt : Instant
  route : Option String := none
  customerName : Option String := none
  customerNumber : Option String := none
  tier : Tier := .none
  maxTier : Tier := .none
  firstFlaggedAt : Option Instant := none
  firstFlaggedTier : Option Tier := none
  tierHistory : List HistoryEntry := []
  usualReadyAt : Option Instant := none
  usualReadySource : Option String := none
  linesExpected : Option ℤ := none
  linesConfirmed : ℤ := 0
  linesPicked : ℤ := 0
  linesShort : ℤ := 0
  packagesCreated : ℤ := 0
  packagesLoaded : ℤ := 0
  lastPickAt : Option Instant := none
  lastLoadAt : Option Instant := none
  loadingExpected : Bool := true
  transactionNames : List String := []
  routeLoadingFrom : Option Instant := none
  routeLoadedAt : Option Instant := none
  status : Status := .open_
  closedAt : Option Instant := none
  outcome : Option Outcome := none
  outcomeLeadMin : Option ℚ := none
  checkedAt : Option Instant := none
  checkedTier : Option Tier := none
  reopenedCount : ℕ := 0
  ruleVersion : String
  lastEvaluatedAt : Instant

/-- `CHECK_ACTIONS`. -/
inductive CheckAction where
  | checked | unchecked | reopened
  deriving DecidableEq, Repr

/-- `AnalyticsAtRiskCheck`: what happened to which row, and when. -/
structure CheckEntry where
  deliveryNumber : String
  departureDate : Day
  action : CheckAction
  tier : Tier
  at_ : Instant

/-- `ApplyStats`. -/
structure ApplyStats where
  evaluated : ℕ := 0
  created : ℕ := 0
  flagged : ℕ := 0
  escalated : ℕ := 0
  reopened : ℕ := 0
  moved : ℕ := 0

/-- The rows and the ledger of the checks. -/
structure Board where
  rows : List DeliveryRow := []
  checks : List CheckEntry := []

/-- `check_store.record`. -/
def record (row : DeliveryRow) (action : CheckAction) (at_ : Instant) : CheckEntry :=
  ⟨row.deliveryNumber, row.departureDate, action, row.tier, at_⟩

/-! ## §2. Progress and tier. -/

/-- `_money`: to two places. -/
def money (value : ℚ) : ℚ := quantize halfEven 10 (-2) value

/-- `history_entry`. -/
def historyEntry (tier : Tier) (at_ : Instant) (minutes : ℚ) (clock : RouteClock) : HistoryEntry :=
  ⟨tier, at_, money minutes, clock.usualReadyAt, clock.source⟩

/-- `_write_progress`. -/
def writeProgress (row : DeliveryRow) (state : DeliveryState) : DeliveryRow :=
  { row with
    departureAt := state.departureAt
    route := state.route
    customerName := state.customerName
    customerNumber := state.customerNumber
    linesExpected := state.linesExpected
    linesConfirmed := state.linesConfirmed
    linesPicked := state.linesPicked
    linesShort := state.linesShort
    packagesCreated := state.packagesCreated
    packagesLoaded := state.packagesLoaded
    lastPickAt := state.lastPickAt
    lastLoadAt := state.lastLoadAt
    loadingExpected := state.loadingExpected
    transactionNames := if state.transactionNames.isEmpty then row.transactionNames else state.transactionNames
    routeLoadedAt := state.routeLoadedAt <|> row.routeLoadedAt
    routeLoadingFrom := state.routeLoadingFrom <|> row.routeLoadingFrom }

/-- `_write_clock`. -/
def writeClock (row : DeliveryRow) (clock : RouteClock) : DeliveryRow :=
  { row with usualReadyAt := some clock.usualReadyAt, usualReadySource := some clock.source }

/-- A check is overtaken: the tier rises past the one that was checked. -/
def overtaken (row : DeliveryRow) (tier : Tier) : Bool :=
  row.checkedAt.isSome && decide ((row.checkedTier.getD .none).rank < tier.rank)

/-- `_write_tier`: the row, what the ledger gets, and the counts. -/
def writeTier (row : DeliveryRow) (tier : Tier) (now : Instant) (minutes : ℚ) (clock : RouteClock)
    (stats : ApplyStats) : DeliveryRow × List CheckEntry × ApplyStats :=
  if tier = row.tier then (row, [], stats)
  else
    let first := decide (tier ≠ .none) && row.firstFlaggedAt.isNone
    let written : DeliveryRow :=
      { row with
        tierHistory := row.tierHistory ++ [historyEntry tier now minutes clock]
        maxTier := if row.maxTier.rank < tier.rank then tier else row.maxTier
        firstFlaggedAt := if first then some now else row.firstFlaggedAt
        firstFlaggedTier := if first then some tier else row.firstFlaggedTier
        tier := tier
        reopenedCount := if overtaken row tier then row.reopenedCount + 1 else row.reopenedCount }
    (written, if overtaken row tier then [record written .reopened now] else [],
      { stats with
        flagged := if first then stats.flagged + 1 else stats.flagged
        escalated := if !first && decide (row.tier.rank < tier.rank) then stats.escalated + 1 else stats.escalated
        reopened := if overtaken row tier then stats.reopened + 1 else stats.reopened })

/-- `_state_from_row`. -/
def stateFromRow (row : DeliveryRow) : DeliveryState where
  deliveryNumber := row.deliveryNumber
  route := row.route
  customerName := row.customerName
  customerNumber := row.customerNumber
  departureAt := row.departureAt
  linesExpected := row.linesExpected
  linesConfirmed := row.linesConfirmed
  linesPicked := row.linesPicked
  linesShort := row.linesShort
  packagesCreated := row.packagesCreated
  packagesLoaded := row.packagesLoaded
  lastPickAt := row.lastPickAt
  lastLoadAt := row.lastLoadAt
  loadingExpected := row.loadingExpected
  transactionNames := row.transactionNames
  routeLoadedAt := row.routeLoadedAt
  routeLoadingFrom := row.routeLoadingFrom

/-- `_clock_from_row`: the departure when no clock was written; an empty source is `learned`. -/
def clockFromRow (row : DeliveryRow) (warnBefore goneAfter : Duration) : RouteClock :=
  match row.usualReadyAt with
  | none => ⟨row.departureAt, "wms_departure", warnBefore, goneAfter⟩
  | some usual =>
    ⟨usual, (row.usualReadySource.filter fun s => decide (s ≠ "")).getD "learned", warnBefore, goneAfter⟩

/-! ## §3. Apply. -/

/-- What a call of `apply` is given beside the states. -/
structure Evaluation where
  now : Instant
  /-- `astimezone(tz).date()` -/
  localDate : Instant → Day
  clockFor : DeliveryState → RouteClock
  ruleVersion : String

variable (e : Evaluation)

/-- A row that is new.  Its status is the column's default: in the session it is `None` until the flush, so a second
    state of the delivery would miss it; `read_states` names a delivery once. -/
def newRow (state : DeliveryState) : DeliveryRow where
  deliveryNumber := state.deliveryNumber
  departureDate := e.localDate state.departureAt
  departureAt := state.departureAt
  ruleVersion := e.ruleVersion
  lastEvaluatedAt := e.now

/-- What the loop of `apply` does with the row it has found or made. -/
def evaluate (row : DeliveryRow) (state : DeliveryState) (stats : ApplyStats) :
    DeliveryRow × List CheckEntry × ApplyStats :=
  let clock := e.clockFor state
  let (row, checks, stats) := writeTier (writeClock (writeProgress row state) clock) (tierFor state e.now clock) e.now
    (minutesToDeparture clock.usualReadyAt e.now) clock stats
  ({ row with ruleVersion := e.ruleVersion, lastEvaluatedAt := e.now }, checks, { stats with evaluated := stats.evaluated + 1 })

/-- The row is open and of this delivery. -/
def isOpenOf (number : String) (row : DeliveryRow) : Bool :=
  decide (row.deliveryNumber = number) && decide (row.status = .open_)

/-- The row is of this delivery and this departure. -/
def isDepartureOf (number : String) (date : Day) (row : DeliveryRow) : Bool :=
  decide (row.deliveryNumber = number) && decide (row.departureDate = date)

/-- One turn of the loop of `apply`, for states that name a delivery once. -/
def applyState (acc : Board × ApplyStats) (state : DeliveryState) : Board × ApplyStats :=
  let (board, stats) := acc
  let date := e.localDate state.departureAt
  match board.rows.findIdx? (isOpenOf state.deliveryNumber) with
  | none =>
    -- closed for this departure already
    if board.rows.any (isDepartureOf state.deliveryNumber date) then acc
    else
      let (row, checks, stats) := evaluate e (newRow e state) state { stats with created := stats.created + 1 }
      (⟨board.rows ++ [row], board.checks ++ checks⟩, stats)
  | some i =>
    match board.rows[i]? with
    | none => acc
    | some row =>
      if row.departureDate ≠ date then
        -- moved onto a departure that already has its closed row
        if (board.rows.eraseIdx i).any (isDepartureOf state.deliveryNumber date) then acc
        else
          let (row, checks, stats) := evaluate e { row with departureDate := date } state { stats with moved := stats.moved + 1 }
          (⟨board.rows.set i row, board.checks ++ checks⟩, stats)
      else
        let (row, checks, stats) := evaluate e row state stats
        (⟨board.rows.set i row, board.checks ++ checks⟩, stats)

/-- `apply`. -/
def apply (states : List DeliveryState) (board : Board) : Board × ApplyStats :=
  states.foldl (applyState e) (board, {})

/-! ## §4. Closing. -/

/-- `OPEN_ROWS_CAP`. -/
def openRowsCap : ℕ := 5000

/-- `open_rows`: where they stand, the nearest departure first. -/
def openRows (rows : List DeliveryRow) : List ℕ :=
  (((rows.zipIdx.filter fun r => decide (r.1.status = .open_)).insertionSort
    fun r s => r.1.departureAt ≤ s.1.departureAt).map Prod.snd).take openRowsCap

/-- What a call of `close_due` is given. -/
structure Closing where
  now : Instant
  states : String → Option DeliveryState
  grace : Duration
  localDate : Instant → Day
  warnBefore : Duration
  goneAfter : Duration

/-- What `close_due` does with a row whose departure plus grace has passed. -/
def closeRow (c : Closing) (row : DeliveryRow) : DeliveryRow × List CheckEntry :=
  let row := match c.states row.deliveryNumber with
    | some state => if c.localDate state.departureAt = row.departureDate then writeProgress row state else row
    | none => row
  let state := stateFromRow row
  let clock := clockFromRow row c.warnBefore c.goneAfter
  let (row, checks, _) := writeTier row (tierFor state c.now clock) c.now
    (minutesToDeparture clock.usualReadyAt c.now) clock {}
  let (outcome, lead) := outcomeFor state
  ({ row with
      status := .closed
      closedAt := some c.now
      outcome := some outcome
      outcomeLeadMin := lead
      lastEvaluatedAt := c.now }, checks)

/-- What `sweep` does with a row that is still open. -/
def sweepRow (now : Instant) (row : DeliveryRow) : DeliveryRow :=
  { row with status := .closed, closedAt := some now, outcome := some .unknown, lastEvaluatedAt := now }

/-- One turn of a loop over the open rows: those whose departure is `after` past are closed. -/
def closeAt (now : Instant) (after : Duration) (close : DeliveryRow → DeliveryRow × List CheckEntry) (board : Board)
    (i : ℕ) : Board :=
  match board.rows[i]? with
  | none => board
  | some row =>
    if now < row.departureAt + after then board
    else ⟨board.rows.set i (close row).1, board.checks ++ (close row).2⟩

/-- `close_due`. -/
def closeDue (c : Closing) (board : Board) : Board :=
  (openRows board.rows).foldl (closeAt c.now c.grace (closeRow c)) board

/-- `sweep`. -/
def sweep (now : Instant) (olderThan : Duration) (board : Board) : Board :=
  (openRows board.rows).foldl (closeAt now olderThan fun row => (sweepRow now row, [])) board

/-! ## §5. Checks. -/

/-- `find`: the row of the departure when one is given, else the only open one; `none` is an exception. -/
def findRow (rows : List DeliveryRow) (number : String) (date : Option Day) : Option ℕ :=
  match date with
  | some date => rows.findIdx? (isDepartureOf number date)
  | none => if rows.countP (isOpenOf number) = 1 then rows.findIdx? (isOpenOf number) else none

/-- `check` (`tier` is what was checked) and `uncheck`; what raises leaves the board as it is. -/
def mark (number : String) (date : Option Day) (action : CheckAction) (now : Instant) (board : Board) : Board :=
  match findRow board.rows number date with
  | none => board
  | some i =>
    match board.rows[i]? with
    | none => board
    | some row =>
      let row := match action with
        | .checked => { row with checkedAt := some now, checkedTier := some row.tier }
        | _ => { row with checkedAt := none, checkedTier := none }
      ⟨board.rows.set i row, board.checks ++ [record row action now]⟩

/-! ## §6. Runs. -/

/-- What the worker does. -/
inductive Work where
  | apply (e : Evaluation) (states : List DeliveryState)
  | closeDue (c : Closing)
  | sweep (now : Instant) (olderThan : Duration)

/-- What happens to the board. -/
inductive Step where
  | work (w : Work)
  | check (number : String) (date : Option Day) (now : Instant)
  | uncheck (number : String) (date : Option Day) (now : Instant)

def Work.run (board : Board) : Work → Board
  | .apply e states => (AtRisk.apply e states board).1
  | .closeDue c => AtRisk.closeDue c board
  | .sweep now olderThan => AtRisk.sweep now olderThan board

def Step.run (board : Board) : Step → Board
  | .work w => w.run board
  | .check number date now => mark number date .checked now board
  | .uncheck number date now => mark number date .unchecked now board

end RagPipeline.AtRisk
