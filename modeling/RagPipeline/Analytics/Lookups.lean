/-
  RagPipeline.Analytics.Lookups — what the fold learns of a key, and the periods it was true for.

    * `recordGroup` — the observations of one attribute of one key, against the rows that are stored;
    * `record`      — a batch of observations: the stored rows are read once, at its start;
    * `resolve`     — the value of an attribute at an instant.

  Over the rows, `recordPeriods` says what a batch does to the values and their periods alone
  (`recordRows_periods`).
-/
import RagPipeline.Analytics.Roles
import RagPipeline.Lib.Periods

namespace RagPipeline.Analytics.Lookups

open RagPipeline.Stage2 RagPipeline.Lib

/-! ## §1. Declarations and observations. -/

/-- `CONFLICT_RULES`. -/
inductive ConflictRule where
  | firstWins | latestWins | allValues
  deriving DecidableEq, Repr

/-- `Attribute`, without its sources. -/
structure LookupAttribute where
  name : String
  stable : Bool := true
  onConflict : ConflictRule := .firstWins

/-- `Lookup`, without its key field. -/
structure Lookup where
  name : String
  attributes : List LookupAttribute

/-- `Lookup.attribute`. -/
def Lookup.attribute (l : Lookup) (name : String) : Option LookupAttribute :=
  l.attributes.find? fun a => decide (a.name = name)

/-- A lookup, a key of it, and an attribute of the key. -/
abbrev LookupKey := String × String × String

/-- `Observation`. -/
structure Observation where
  lookup : String
  key : String
  attributeName : String
  value : String
  seenAt : Instant
  sourceMethod : String

/-- What an observation is of. -/
def Observation.name (o : Observation) : LookupKey := (o.lookup, o.key, o.attributeName)

/-- `BEGINNING`. -/
def beginning : Instant := 0

/-- `COMBINED_SEP`. -/
def combinedSep : String := " | "

/-- `combine_values`. -/
def combineValues (w : PythonTexts) (current new : String) : String :=
  combinedSep.intercalate
    ((w.strip new :: ((current.splitOn combinedSep).map w.strip).filter fun p => decide (p ≠ "")).dedup.insertionSort
      (· ≤ ·))

/-- The attribute that is declared for a key. -/
def declaredFor (lookups : String → Option Lookup) (k : LookupKey) : Option LookupAttribute :=
  (lookups k.1).bind fun l => l.attribute k.2.2

/-- `stable`: so is an attribute that nobody declares. -/
def isStable (a : Option LookupAttribute) : Bool := a.all LookupAttribute.stable

/-- `latest_wins`. -/
def latestWins (a : Option LookupAttribute) : Bool := a.any fun a => decide (a.onConflict = .latestWins)

/-- `all_values`. -/
def allValues (a : Option LookupAttribute) : Bool := a.any fun a => decide (a.onConflict = .allValues)

/-- Declared to change over time, one value after another. -/
def keepsHistory (a : Option LookupAttribute) : Bool := !isStable a && !allValues a

/-! ## §2. Rows. -/

/-- `AnalyticsLookupValue`, and `_Pending`: a row of one attribute of one key. -/
structure LookupRow where
  value : String
  validFrom : Instant
  validTo : Option Instant := none
  sourceMethod : Option String := none
  observations : ℕ := 1
  firstSeenAt : Instant
  lastSeenAt : Instant

/-- `Period`. -/
abbrev LookupPeriod := Period Instant String

/-- The value of a row, and the span it was true for. -/
def LookupRow.period (r : LookupRow) : LookupPeriod :=
  { value := r.value, validFrom := r.validFrom, validTo := r.validTo }

/-- The order of `valid_from`. -/
def LookupRow.ByStart (r r' : LookupRow) : Prop := r.validFrom ≤ r'.validFrom

instance : DecidableRel LookupRow.ByStart := fun r r' => by unfold LookupRow.ByStart; infer_instance

instance : Std.Total LookupRow.ByStart := ⟨fun r r' => le_total r.validFrom r'.validFrom⟩

instance : IsTrans LookupRow LookupRow.ByStart := ⟨fun _ _ _ h h' => Int.le_trans h h'⟩

/-- What `record` counts. -/
structure RecordStats where
  observed : ℕ := 0
  inserted : ℕ := 0
  extended : ℕ := 0
  changed : ℕ := 0
  conflicts : ℕ := 0
  deriving DecidableEq, Repr

def RecordStats.add (s t : RecordStats) : RecordStats where
  observed := s.observed + t.observed
  inserted := s.inserted + t.inserted
  extended := s.extended + t.extended
  changed := s.changed + t.changed
  conflicts := s.conflicts + t.conflicts

/-- The loop over the observations of a key: `stored` is the last row in the table, `pending` the period
that was opened in this batch, and `fresh` the rows to insert. -/
structure Recording where
  stored : LookupRow
  pending : Option LookupRow := none
  fresh : List LookupRow := []
  stats : RecordStats := {}

/-- `open_period`. -/
def Recording.openPeriod (r : Recording) : LookupRow := r.pending.getD r.stored

/-- An assignment to `open_period`: a pending one is an object of its own, not the row in `fresh`. -/
def Recording.setOpen (r : Recording) (p : LookupRow) : Recording :=
  match r.pending with
  | none => { r with stored := p }
  | some _ => { r with pending := some p }

variable (w : PythonTexts) (a : Option LookupAttribute)

/-- One observation more of the value that is known. -/
def LookupRow.seenAgain (p : LookupRow) (o : Observation) : LookupRow :=
  { p with observations := p.observations + 1, lastSeenAt := max p.lastSeenAt o.seenAt }

/-- The body of the loop. -/
def Recording.observe (r : Recording) (o : Observation) : Recording :=
  let p := r.openPeriod
  if allValues a then
    let combined := combineValues w p.value o.value
    let r' := r.setOpen { p.seenAgain o with value := combined }
    if combined = p.value then { r' with stats := { r.stats with extended := r.stats.extended + 1 } }
    else { r' with stats := { r.stats with conflicts := r.stats.conflicts + 1 } }
  else if o.value = p.value then
    { r.setOpen (p.seenAgain o) with stats := { r.stats with extended := r.stats.extended + 1 } }
  else if isStable a then
    let r' := if latestWins a then
        r.setOpen { p with
          value := o.value
          sourceMethod := some o.sourceMethod
          lastSeenAt := max p.lastSeenAt o.seenAt }
      else r
    { r' with stats := { r.stats with conflicts := r.stats.conflicts + 1 } }
  -- a genuine change: close what was true and open what is
  else if p.validTo = none ∧ p.validFrom < o.seenAt then
    { r.setOpen { p with validTo := some o.seenAt } with
      pending := some { value := o.value, validFrom := o.seenAt, firstSeenAt := o.seenAt, lastSeenAt := o.seenAt }
      fresh := r.fresh ++
        [{ value := o.value
           validFrom := o.seenAt
           sourceMethod := some o.sourceMethod
           firstSeenAt := o.seenAt
           lastSeenAt := o.seenAt }]
      stats := { r.stats with changed := r.stats.changed + 1 } }
  else r

/-- The first row of a key: valid from the beginning of its life. -/
def firstRow (first : Observation) (rest : List Observation) : LookupRow :=
  let last := (first :: rest).getLast (List.cons_ne_nil first rest)
  let chosen := if latestWins a then last else first
  { value := if allValues a then
      (first :: rest).foldl (fun value o => combineValues w value o.value) chosen.value else chosen.value
    validFrom := beginning
    sourceMethod := some chosen.sourceMethod
    observations := rest.length + 1
    firstSeenAt := first.seenAt
    lastSeenAt := last.seenAt }

/-- `INSERT … ON CONFLICT DO NOTHING`: of two rows with one `valid_from` the first stays. -/
def insertRows (rows fresh : List LookupRow) : List LookupRow :=
  fresh.foldl (fun rows r => if r.validFrom ∈ rows.map LookupRow.validFrom then rows else rows ++ [r]) rows

/-- The observations of one attribute of one key, oldest first. -/
def recordGroup (rows : List LookupRow) (first : Observation) (rest : List Observation) :
    List LookupRow × RecordStats :=
  let periods := rows.insertionSort LookupRow.ByStart
  match periods.getLast? with
  | none =>
    let several := decide (1 < ((first :: rest).map Observation.value).dedup.length)
    (insertRows [] [firstRow w a first rest],
      { inserted := 1, conflicts := if isStable a && several then 1 else 0 })
  | some last =>
    let r := (first :: rest).foldl (Recording.observe w a) { stored := last }
    (insertRows (periods.dropLast ++ [r.stored]) r.fresh, r.stats)

/-- A key that the batch does not name is left alone. -/
def recordRows (rows : List LookupRow) (group : List Observation) : List LookupRow × RecordStats :=
  match group with
  | [] => (rows, {})
  | first :: rest => recordGroup w a rows first rest

/-- The rows of one tenant. -/
abbrev LookupStore := LookupKey → List LookupRow

/-- One group of `_reduce`: the sort by instant is stable. -/
def reduce (observations : List Observation) (k : LookupKey) : List Observation :=
  (observations.filter fun o => decide (o.name = k)).insertionSort fun o o' => o.seenAt ≤ o'.seenAt

/-- **`record`**. -/
def record (lookups : String → Option Lookup) (store : LookupStore) (observations : List Observation) :
    LookupStore × RecordStats :=
  let outcome := fun k => recordRows w (declaredFor lookups k) (store k) (reduce observations k)
  (fun k => (outcome k).1,
    ((observations.map Observation.name).dedup.map fun k => (outcome k).2).foldl RecordStats.add
      { observed := observations.length })

/-- **`Resolver.value`**: the newest period that covers the instant; a label without one reads the first
row. -/
def resolve (store : LookupStore) (k : LookupKey) (when? : Option Instant) : Option String :=
  match when? with
  | none => ((store k).head?).map LookupRow.value
  | some t =>
    ((((store k).map LookupRow.period).insertionSort fun p q => q.validFrom ≤ p.validFrom).find? fun p =>
      p.covers t).map Period.value

/-! ## §3. What a batch does to the periods. -/

/-- Whether an observation changes the value. -/
abbrev Observation.changesFrom (value : String) (since : Instant) (o : Observation) : Bool :=
  Lib.changesFrom Observation.value Observation.seenAt value since o

/-- The observations that change the value. -/
abbrev changesOf (value : String) (since : Instant) (group : List Observation) : List Observation :=
  changes Observation.value Observation.seenAt value since group

/-- The period that a change opens. -/
def Observation.opens (o : Observation) : LookupPeriod := { value := o.value, validFrom := o.seenAt }

/-- The value of the one row of an attribute that keeps no history. -/
def settledValue (value : String) (group : List Observation) : String :=
  if allValues a then group.foldl (fun value o => combineValues w value o.value) value
  else if latestWins a then (group.getLast?.map Observation.value).getD value
  else value

/-- The periods that a group leaves in place of the last one. -/
def recordLast (last : LookupPeriod) (group : List Observation) : List LookupPeriod :=
  if keepsHistory a then
    if last.validTo = none then
      match changesOf last.value last.validFrom group with
      | [] => [last]
      | c :: cs => { last with validTo := some c.seenAt } :: (c :: cs).map Observation.opens
    else [last]
  else [{ last with value := settledValue w a last.value group }]

/-- The periods after a group. -/
def recordPeriods (periods : List LookupPeriod) (group : List Observation) : List LookupPeriod :=
  match group with
  | [] => periods
  | first :: rest =>
    match periods.getLast? with
    | none => [(firstRow w a first rest).period]
    | some last => periods.dropLast ++ recordLast w a last (first :: rest)

/-! ## §4. The loop. -/

theorem keepsHistory_iff : keepsHistory a = true ↔ isStable a = false ∧ allValues a = false := by
  simp [keepsHistory]

@[simp] theorem period_seenAgain (p : LookupRow) (o : Observation) : (p.seenAgain o).period = p.period := rfl

/-- An attribute without a history has one row, and the loop only revalues it. -/
theorem observe_settled (ha : keepsHistory a = false) {r : Recording} (hp : r.pending = none) (o : Observation) :
    (r.observe w a o).pending = none ∧ (r.observe w a o).fresh = r.fresh ∧
      (r.observe w a o).stored.period =
        { r.stored.period with value := settledValue w a r.stored.value [o] } := by
  have hopen : r.openPeriod = r.stored := by simp [Recording.openPeriod, hp]
  have hset : ∀ p, r.setOpen p = { r with stored := p } := by
    intro p
    simp [Recording.setOpen, hp]
  unfold Recording.observe settledValue
  simp only [hopen, hset]
  by_cases hall : allValues a = true
  · by_cases hsame : combineValues w r.stored.value o.value = r.stored.value
    · simp [hall, hsame, hp, LookupRow.period, LookupRow.seenAgain]
    · simp [hall, hsame, hp, LookupRow.period, LookupRow.seenAgain]
  · have hstable : isStable a = true := by
      cases hs : isStable a with
      | true => rfl
      | false =>
        have := (keepsHistory_iff a).mpr ⟨hs, Bool.not_eq_true _ ▸ hall⟩
        exact absurd this (by simp [ha])
    by_cases hsame : o.value = r.stored.value
    · simp [hall, hsame, hp, LookupRow.period, LookupRow.seenAgain]
    · by_cases hlatest : latestWins a = true
      · simp [hall, hsame, hstable, hlatest, hp, LookupRow.period]
      · simp [hall, hsame, hstable, hlatest, hp, LookupRow.period]

theorem settledValue_cons (value : String) (o : Observation) (group : List Observation) :
    settledValue w a value (o :: group) = settledValue w a (settledValue w a value [o]) group := by
  unfold settledValue
  by_cases hall : allValues a = true
  · simp [hall]
  · by_cases hlatest : latestWins a = true
    · cases hlast : group.getLast? with
      | none => simp [hall, hlatest, List.getLast?_eq_none_iff.mp hlast]
      | some q => simp [hall, hlatest, List.getLast?_cons, hlast]
    · simp [hall, hlatest]

theorem settledValue_append (value : String) (xs ys : List Observation) :
    settledValue w a value (xs ++ ys) = settledValue w a (settledValue w a value xs) ys := by
  induction xs generalizing value with
  | nil => simp [settledValue]
  | cons o xs ih => rw [List.cons_append, settledValue_cons, ih, settledValue_cons w a value o xs]

theorem foldl_settled (ha : keepsHistory a = false) (group : List Observation) {r : Recording}
    (hp : r.pending = none) :
    (group.foldl (Recording.observe w a) r).fresh = r.fresh ∧
      (group.foldl (Recording.observe w a) r).stored.period =
        { r.stored.period with value := settledValue w a r.stored.value group } := by
  induction group generalizing r with
  | nil => exact ⟨rfl, by simp [settledValue, LookupRow.period]⟩
  | cons o group ih =>
    obtain ⟨hpending, hfresh, hstored⟩ := observe_settled w a ha hp o
    obtain ⟨hfresh', hstored'⟩ := ih hpending
    have hvalue : (r.observe w a o).stored.value = settledValue w a r.stored.value [o] :=
      congrArg Period.value hstored
    refine ⟨hfresh'.trans hfresh, hstored'.trans ?_⟩
    rw [hstored, hvalue, settledValue_cons w a r.stored.value o group]

/-- Nothing changes once the last period has an end. -/
theorem foldl_closed (ha : keepsHistory a = true) (group : List Observation) {r : Recording}
    (hp : r.pending = none) (hclosed : r.stored.validTo ≠ none) :
    (group.foldl (Recording.observe w a) r).fresh = r.fresh ∧
      (group.foldl (Recording.observe w a) r).stored.period = r.stored.period := by
  obtain ⟨hstable, hall⟩ := (keepsHistory_iff a).mp ha
  induction group generalizing r with
  | nil => exact ⟨rfl, rfl⟩
  | cons o group ih =>
    have hstep : (r.observe w a o).pending = none ∧ (r.observe w a o).fresh = r.fresh ∧
        (r.observe w a o).stored.period = r.stored.period := by
      by_cases hsame : o.value = r.stored.value
      · simp [Recording.observe, Recording.openPeriod, Recording.setOpen, hp, hall, hsame]
      · simp [Recording.observe, Recording.openPeriod, hp, hall, hsame, hstable, hclosed]
    obtain ⟨hpending, hfresh, hstored⟩ := hstep
    have hto : (r.observe w a o).stored.validTo = r.stored.validTo := congrArg Period.validTo hstored
    obtain ⟨hfresh', hstored'⟩ := ih hpending (hto ▸ hclosed)
    exact ⟨hfresh'.trans hfresh, hstored'.trans hstored⟩

/-- What the loop does to a period that is open, and only what it is: the value, and since when. -/
theorem observe_open (ha : keepsHistory a = true) (r : Recording) (o : Observation)
    (hopen : r.openPeriod.validTo = none) :
    if o.changesFrom r.openPeriod.value r.openPeriod.validFrom then
      (r.observe w a o).openPeriod.period = o.opens ∧ (r.observe w a o).pending.isSome = true ∧
        (r.observe w a o).fresh.map LookupRow.period = r.fresh.map LookupRow.period ++ [o.opens] ∧
        (r.observe w a o).stored.period =
          if r.pending.isSome then r.stored.period else { r.stored.period with validTo := some o.seenAt }
    else
      (r.observe w a o).openPeriod.period = r.openPeriod.period ∧
        (r.observe w a o).pending.isSome = r.pending.isSome ∧ (r.observe w a o).fresh = r.fresh ∧
        (r.observe w a o).stored.period = r.stored.period := by
  obtain ⟨hstable, hall⟩ := (keepsHistory_iff a).mp ha
  by_cases hsame : o.value = r.openPeriod.value
  · cases hp : r.pending with
    | none =>
      simp [Recording.observe, Recording.setOpen, Recording.openPeriod, hp, hall, Lib.changesFrom] at hsame ⊢
      simp [hsame]
    | some p =>
      simp [Recording.observe, Recording.setOpen, Recording.openPeriod, hp, hall, Lib.changesFrom] at hsame ⊢
      simp [hsame]
  · -- another value is recorded when it is seen after the period began
    by_cases hlate : r.openPeriod.validFrom < o.seenAt
    · have hchange : o.changesFrom r.openPeriod.value r.openPeriod.validFrom = true := by
        simp [Observation.changesFrom, Lib.changesFrom, hsame, hlate]
      rw [if_pos hchange]
      cases hp : r.pending with
      | none =>
        have hopen' : r.openPeriod = r.stored := by simp [Recording.openPeriod, hp]
        rw [hopen'] at hsame hlate hopen
        simp [Recording.observe, Recording.setOpen, hp, hall, hsame, hstable, hlate, hopen,
          Recording.openPeriod, LookupRow.period, Observation.opens]
      | some p =>
        have hopen' : r.openPeriod = p := by simp [Recording.openPeriod, hp]
        rw [hopen'] at hsame hlate hopen
        simp [Recording.observe, Recording.setOpen, hp, hall, hsame, hstable, hlate, hopen,
          Recording.openPeriod, LookupRow.period, Observation.opens]
    · have hchange : o.changesFrom r.openPeriod.value r.openPeriod.validFrom = false := by
        simp [Observation.changesFrom, Lib.changesFrom, hlate]
      have hsame' : r.observe w a o = r := by
        simp [Recording.observe, hall, hsame, hstable, hlate]
      rw [hchange, hsame']
      simp

/-- The loop from an open period. -/
theorem foldl_open (ha : keepsHistory a = true) (group : List Observation) {r : Recording}
    (hopen : r.openPeriod.validTo = none) :
    (group.foldl (Recording.observe w a) r).fresh.map LookupRow.period = r.fresh.map LookupRow.period ++
        (changesOf r.openPeriod.value r.openPeriod.validFrom group).map Observation.opens ∧
      (group.foldl (Recording.observe w a) r).stored.period =
        if r.pending.isSome then r.stored.period
        else match changesOf r.openPeriod.value r.openPeriod.validFrom group with
          | [] => r.stored.period
          | c :: _ => { r.stored.period with validTo := some c.seenAt } := by
  induction group generalizing r with
  | nil => simp [changes]
  | cons o group ih =>
    have hstep := observe_open w a ha r o hopen
    cases hchange : o.changesFrom r.openPeriod.value r.openPeriod.validFrom with
    | true =>
      -- from here on the pending period is the open one
      rw [hchange, if_pos rfl] at hstep
      obtain ⟨hperiod, hpending, hfresh, hstored⟩ := hstep
      have hvalue : (r.observe w a o).openPeriod.value = o.value := congrArg Period.value hperiod
      have hfrom : (r.observe w a o).openPeriod.validFrom = o.seenAt := congrArg Period.validFrom hperiod
      obtain ⟨hfresh', hstored'⟩ := ih (r := r.observe w a o) (congrArg Period.validTo hperiod)
      rw [hvalue, hfrom] at hfresh'
      rw [hpending, if_pos rfl, hstored] at hstored'
      have hcons : changesOf r.openPeriod.value r.openPeriod.validFrom (o :: group) =
          o :: changesOf o.value o.seenAt group := by
        simp only [changesOf, changes, hchange, if_true]
      rw [List.foldl_cons, hfresh', hfresh, hstored', hcons]
      simp
    | false =>
      rw [hchange, if_neg Bool.false_ne_true] at hstep
      obtain ⟨hperiod, hpending, hfresh, hstored⟩ := hstep
      have hvalue : (r.observe w a o).openPeriod.value = r.openPeriod.value := congrArg Period.value hperiod
      have hfrom : (r.observe w a o).openPeriod.validFrom = r.openPeriod.validFrom :=
        congrArg Period.validFrom hperiod
      have hto : (r.observe w a o).openPeriod.validTo = none := (congrArg Period.validTo hperiod).trans hopen
      obtain ⟨hfresh', hstored'⟩ := ih (r := r.observe w a o) hto
      have hcons : changesOf r.openPeriod.value r.openPeriod.validFrom (o :: group) =
          changesOf r.openPeriod.value r.openPeriod.validFrom group := by
        simp only [changesOf, changes, hchange, Bool.false_eq_true, if_false]
      rw [hvalue, hfrom, hfresh] at hfresh'
      rw [hvalue, hfrom, hpending, hstored] at hstored'
      rw [List.foldl_cons, hfresh', hstored', hcons]
      exact ⟨rfl, rfl⟩

/-! ## §5. The rows after a batch. -/

/-- Rows that start later than the others are all inserted. -/
theorem insertRows_eq (rows fresh : List LookupRow) (hlater : ∀ r ∈ rows, ∀ f ∈ fresh, r.validFrom < f.validFrom)
    (hsorted : fresh.Pairwise fun f f' => f.validFrom < f'.validFrom) : insertRows rows fresh = rows ++ fresh := by
  induction fresh generalizing rows with
  | nil => simp [insertRows]
  | cons f fresh ih =>
    obtain ⟨hfirst, hrest⟩ := List.pairwise_cons.mp hsorted
    have hnew : f.validFrom ∉ rows.map LookupRow.validFrom := by
      intro hmem
      obtain ⟨r, hr, heq⟩ := List.mem_map.mp hmem
      exact absurd heq (hlater r hr f List.mem_cons_self).ne
    have hstep : insertRows rows (f :: fresh) = insertRows (rows ++ [f]) fresh := by
      simp only [insertRows, List.foldl_cons, if_neg hnew]
    rw [hstep, ih (rows ++ [f]) ?_ hrest, List.append_assoc]
    · rfl
    · intro r hr f' hf'
      cases List.mem_append.mp hr with
      | inl hold => exact hlater r hold f' (List.mem_cons_of_mem _ hf')
      | inr hf => exact List.mem_singleton.mp hf ▸ hfirst f' hf'

/-- What the loop leaves, in the terms of the periods alone. -/
theorem foldl_recordLast (last : LookupRow) (group : List Observation) :
    let r := group.foldl (Recording.observe w a) { stored := last }
    r.stored.period :: r.fresh.map LookupRow.period = recordLast w a last.period group := by
  intro r
  unfold recordLast
  cases ha : keepsHistory a with
  | false =>
    obtain ⟨hfresh, hstored⟩ := foldl_settled w a ha group (r := { stored := last }) rfl
    show r.stored.period :: r.fresh.map LookupRow.period = _
    rw [show r.fresh = [] from hfresh, show r.stored.period = _ from hstored]
    simp [LookupRow.period]
  | true =>
    by_cases hopen : last.validTo = none
    · obtain ⟨hfresh, hstored⟩ := foldl_open w a ha group (r := { stored := last }) hopen
      show r.stored.period :: r.fresh.map LookupRow.period = _
      rw [show r.fresh.map LookupRow.period = _ from hfresh, show r.stored.period = _ from hstored]
      have hopen' : last.period.validTo = none := hopen
      show (match changesOf last.value last.validFrom group with
          | [] => last.period
          | c :: _ => { last.period with validTo := some c.seenAt }) ::
            ([] ++ (changesOf last.value last.validFrom group).map Observation.opens) = _
      rw [if_pos rfl, if_pos hopen', List.nil_append]
      show _ = (match changesOf last.value last.validFrom group with
          | [] => [last.period]
          | c :: cs => { last.period with validTo := some c.seenAt } :: (c :: cs).map Observation.opens)
      cases changesOf last.value last.validFrom group with
      | nil => rfl
      | cons c cs => rfl
    · obtain ⟨hfresh, hstored⟩ := foldl_closed w a ha group (r := { stored := last }) rfl hopen
      have hopen' : last.period.validTo ≠ none := hopen
      show r.stored.period :: r.fresh.map LookupRow.period = _
      rw [show r.fresh = [] from hfresh, show r.stored.period = _ from hstored, if_pos rfl, if_neg hopen']
      rfl

/-- The periods that take the place of the last one start with it, and each later than the one before. -/
theorem recordLast_sorted (last : LookupPeriod) (group : List Observation) :
    ∃ p ps, recordLast w a last group = p :: ps ∧ p.validFrom = last.validFrom ∧
      (p :: ps).Pairwise fun p q => p.validFrom < q.validFrom := by
  unfold recordLast
  cases keepsHistory a with
  | false => exact ⟨_, _, rfl, rfl, List.pairwise_singleton _ _⟩
  | true =>
    rw [if_pos rfl]
    split
    · obtain ⟨hafter, hsorted⟩ := changes_sorted Observation.value Observation.seenAt last.value last.validFrom group
      cases hc : changesOf last.value last.validFrom group with
      | nil => exact ⟨_, _, rfl, rfl, List.pairwise_singleton _ _⟩
      | cons c cs =>
        rw [show changes Observation.value Observation.seenAt last.value last.validFrom group = c :: cs from hc]
          at hafter hsorted
        refine ⟨_, _, rfl, rfl, List.pairwise_cons.mpr ⟨?_, List.pairwise_map.mpr hsorted⟩⟩
        intro p hp
        obtain ⟨o, ho, rfl⟩ := List.mem_map.mp hp
        exact hafter o ho
    · exact ⟨_, _, rfl, rfl, List.pairwise_singleton _ _⟩

/-- Rows in the order of their starts. -/
abbrev Sorted (rows : List LookupRow) : Prop := rows.Pairwise LookupRow.ByStart

/-- **A batch, row by row and in the terms of the periods.** -/
theorem recordRows_periods {rows : List LookupRow} (hrows : Sorted rows) (group : List Observation) :
    ((recordRows w a rows group).1.map LookupRow.period = recordPeriods w a (rows.map LookupRow.period) group) ∧
      Sorted (recordRows w a rows group).1 := by
  cases group with
  | nil => exact ⟨rfl, hrows⟩
  | cons first rest =>
    have hsort : rows.insertionSort LookupRow.ByStart = rows := List.Pairwise.insertionSort_eq hrows
    show (recordGroup w a rows first rest).1.map LookupRow.period = _ ∧ Sorted (recordGroup w a rows first rest).1
    unfold recordGroup
    rw [hsort]
    cases rows using List.reverseRecOn with
    | nil => exact ⟨rfl, List.pairwise_singleton _ _⟩
    | append_singleton init last =>
      have hloop := foldl_recordLast w a last (first :: rest)
      obtain ⟨p, ps, hlist, hfrom, hstarts⟩ := recordLast_sorted w a last.period (first :: rest)
      simp only [List.getLast?_append, List.getLast?_singleton, Option.some_or, List.dropLast_concat]
      generalize (first :: rest).foldl (Recording.observe w a) { stored := last } = r at hloop
      have hloop' : r.stored.period :: r.fresh.map LookupRow.period = p :: ps := hloop.trans hlist
      rw [← hloop', List.pairwise_cons] at hstarts
      obtain ⟨hafter, hmap⟩ := hstarts
      have hfresh : r.fresh.Pairwise fun f f' => f.period.validFrom < f'.period.validFrom :=
        (List.pairwise_map (f := LookupRow.period)).mp hmap
      have hstored : r.stored.validFrom = last.validFrom :=
        (congrArg Period.validFrom (List.cons.inj hloop').1).trans hfrom
      obtain ⟨hinit, -, hbefore⟩ := List.pairwise_append.mp hrows
      -- the last row keeps its start, and the new ones start later
      have holder : ∀ r' ∈ init ++ [r.stored], r'.validFrom ≤ r.stored.validFrom := by
        intro r' hr'
        cases List.mem_append.mp hr' with
        | inl hold => exact (hbefore r' hold last (List.mem_singleton_self _)).trans_eq hstored.symm
        | inr heq => exact (List.mem_singleton.mp heq ▸ le_rfl)
      have hlater : ∀ r' ∈ init ++ [r.stored], ∀ f ∈ r.fresh, r'.validFrom < f.validFrom := by
        intro r' hr' f hf
        exact (holder r' hr').trans_lt (hafter f.period (List.mem_map_of_mem hf))
      rw [insertRows_eq _ _ hlater hfresh]
      constructor
      · rw [List.map_append, List.map_append, List.append_assoc]
        show _ ++ r.stored.period :: r.fresh.map LookupRow.period = _
        rw [hloop]
        simp [recordPeriods]
      · refine List.pairwise_append.mpr ⟨?_, hfresh.imp le_of_lt, ?_⟩
        · refine List.pairwise_append.mpr ⟨hinit, List.pairwise_singleton _ _, ?_⟩
          intro r' hr' q hq
          exact List.mem_singleton.mp hq ▸ holder r' (List.mem_append_left _ hr')
        · intro r' hr' f hf
          exact (hlater r' hr' f hf).le

end RagPipeline.Analytics.Lookups
