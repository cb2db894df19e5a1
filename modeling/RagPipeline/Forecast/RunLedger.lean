/-
  RagPipeline.Forecast.RunLedger — who forecasts a day of a tenant, and how often.

  The nightly worker and the manual trigger both look at the ledger of runs and then act on what they saw; a run goes
  on for a while, its process may die, and what it writes into the ledger may be lost or be there although the call
  raised.  A run that nobody finishes is swept.

    * `nightly_once` — once a nightly run has completed or skipped a day, no later nightly run of that day is made.
-/
import Mathlib.Data.List.Basic
import RagPipeline.Lib.Gregorian
import RagPipeline.Lib.OptionLoops

namespace RagPipeline.Forecast.RunLedger

open RagPipeline.Lib

/-! ## §1. The ledger and those at work on it. -/

inductive Status
  | queued | running | completed | skipped | failed
  deriving DecidableEq, Repr

inductive Trigger
  | nightly | manual
  deriving DecidableEq, Repr

/-- A row of `analytics_forecast_runs` of one tenant; its place in the ledger is its id. -/
structure RunRow where
  asOf : CivilDate
  trigger : Trigger
  status : Status
  createdAt : ℕ
  deriving DecidableEq

def RunRow.done (r : RunRow) : Bool := r.status = .completed || r.status = .skipped

def RunRow.unfinished (r : RunRow) : Bool := r.status = .queued || r.status = .running

/-- Fifteen minutes, in seconds. -/
def staleAfter : ℕ := 900

def doneFor (rows : List RunRow) (asOf : CivilDate) : Bool := rows.any fun r => r.asOf = asOf && r.done

/-- There is a run in progress; one that has been so for too long does not count. -/
def inProgress (rows : List RunRow) (now : ℕ) : Bool :=
  rows.any fun r => r.unfinished && decide (now ≤ r.createdAt + staleAfter)

/-- `sweep_stale`. -/
def sweepStale (rows : List RunRow) (now : ℕ) : List RunRow :=
  rows.map fun r => if r.unfinished && decide (r.createdAt + staleAfter < now) then { r with status := .failed } else r

def setStatus (rows : List RunRow) (run : ℕ) (status : Status) : List RunRow :=
  rows.modify run fun r => { r with status := status }

/-- How far a call of `run_tenant` is: it has looked; its row is there; it has claimed it; it has to note a failure. -/
inductive Task
  | deciding
  | claiming (run : ℕ)
  | working (run : ℕ)
  | failing (run : ℕ)
  deriving DecidableEq, Repr

def Task.run? : Task → Option ℕ
  | .deciding => none
  | .claiming run => some run
  | .working run => some run
  | .failing run => some run

structure Driver where
  asOf : CivilDate
  task : Task
  deriving DecidableEq

/-- What a driver does next; `written` says whether the row has changed, `raised` whether the call has. -/
inductive Move
  | create
  | claim
  | finish (skipped written raised : Bool)
  | fail (written : Bool)
  | die
  deriving DecidableEq, Repr

/-- The rows after a move, and the driver if it goes on: none when there is no such move. -/
def move (rows : List RunRow) (now : ℕ) (trigger : Trigger) (w : Driver) : Move → Option (List RunRow × Option Driver)
  | .create =>
    match w.task with
    | .deciding => some (rows ++ [⟨w.asOf, trigger, .queued, now⟩], some ⟨w.asOf, .claiming rows.length⟩)
    | _ => none
  | .claim =>
    match w.task with
    | .claiming run =>
      if rows[run]?.any fun r => r.status = .queued then
        some (setStatus rows run .running, some ⟨w.asOf, .working run⟩)
      else some (rows, none)
    | _ => none
  | .finish skipped written raised =>
    match w.task with
    | .working run =>
      if written || raised then
        some (if written then setStatus rows run (if skipped then .skipped else .completed) else rows,
          if raised then some ⟨w.asOf, .failing run⟩ else none)
      else none
    | _ => none
  | .fail written =>
    match w.task with
    | .working run => some (if written then setStatus rows run .failed else rows, none)
    | .failing run => some (if written then setStatus rows run .failed else rows, none)
    | _ => none
  | .die => some (rows, none)

/-- The worker waits for the run it has started; any number of manual runs may be under way. -/
structure State where
  rows : List RunRow
  night : Option Driver
  manual : List Driver
  now : ℕ
  deriving DecidableEq

def noRuns : State := ⟨[], none, [], 0⟩

inductive Action
  | wait (seconds : ℕ)
  | sweep
  | lookNightly (asOf : CivilDate)
  | lookManual (asOf : CivilDate)
  | nightly (m : Move)
  | manual (i : ℕ) (m : Move)
  deriving DecidableEq

def step (s : State) : Action → Option State
  | .wait seconds => some { s with now := s.now + seconds }
  | .sweep =>
    match s.night with
    | none => some { s with rows := sweepStale s.rows s.now }
    | some _ => none
  | .lookNightly asOf =>
    match s.night with
    | none =>
      if doneFor s.rows asOf || inProgress s.rows s.now then none else some { s with night := some ⟨asOf, .deciding⟩ }
    | some _ => none
  | .lookManual asOf =>
    if inProgress s.rows s.now then none else some { s with manual := s.manual ++ [⟨asOf, .deciding⟩] }
  | .nightly m =>
    match s.night with
    | none => none
    | some w => (move s.rows s.now .nightly w m).map fun r => { s with rows := r.1, night := r.2 }
  | .manual i m =>
    match s.manual[i]? with
    | none => none
    | some w =>
      (move s.rows s.now .manual w m).map fun r =>
        match r.2 with
        | none => { s with rows := r.1, manual := s.manual.eraseIdx i }
        | some w' => { s with rows := r.1, manual := s.manual.set i w' }

def run (s : State) (as : List Action) : Option State := as.foldlM step s

/-! ## §2. What holds of the ledger. -/

/-- No nightly run of a day comes after one that is done. -/
def LastDone (rows : List RunRow) : Prop :=
  ∀ (run : ℕ) (r : RunRow) (run' : ℕ) (r' : RunRow), rows[run]? = some r → rows[run']? = some r' → r.trigger = .nightly →
    r'.trigger = .nightly → r'.asOf = r.asOf → r.done = true → run' ≤ run

/-- Its row is of its day and its trigger. -/
def Driver.Owns (rows : List RunRow) (trigger : Trigger) (w : Driver) : Prop :=
  ∀ mine ∈ w.task.run?, ∃ r : RunRow, rows[mine]? = some r ∧ r.trigger = trigger ∧ r.asOf = w.asOf

/-- No nightly run of the day comes after its own, and none of the others is done. -/
def Driver.Newest (rows : List RunRow) (w : Driver) : Prop :=
  ∀ (run : ℕ) (r : RunRow), rows[run]? = some r → r.trigger = .nightly → r.asOf = w.asOf →
    (∀ mine ∈ w.task.run?, run ≤ mine) ∧ (r.done = true → w.task.run? = some run)

structure Inv (s : State) : Prop where
  last : LastDone s.rows
  night : ∀ w ∈ s.night, w.Owns s.rows .nightly ∧ w.Newest s.rows
  manual : ∀ w ∈ s.manual, w.Owns s.rows .manual

theorem inv_noRuns : Inv noRuns where
  last := fun _ _ _ _ h => nomatch h
  night := fun _ h => nomatch h
  manual := fun _ h => nomatch h

/-- Every row stays, with its day and trigger. -/
def Keeps (rows rows' : List RunRow) : Prop :=
  ∀ (run : ℕ) (r : RunRow), rows[run]? = some r →
    ∃ r', rows'[run]? = some r' ∧ r'.trigger = r.trigger ∧ r'.asOf = r.asOf

/-- There are no other nightly runs than before, and no other of them is done. -/
def NoNewDone (rows rows' : List RunRow) : Prop :=
  ∀ (run : ℕ) (r' : RunRow), rows'[run]? = some r' → r'.trigger = .nightly →
    ∃ r, rows[run]? = some r ∧ r.trigger = .nightly ∧ r.asOf = r'.asOf ∧ (r'.done = true → r.done = true)

section Rows

variable {rows rows' : List RunRow} {w : Driver} {trigger : Trigger}

theorem Keeps.refl (rows : List RunRow) : Keeps rows rows := fun _ r h => ⟨r, h, rfl, rfl⟩

theorem NoNewDone.refl (rows : List RunRow) : NoNewDone rows rows := fun _ r h hn => ⟨r, h, hn, rfl, id⟩

theorem Driver.Owns.mono (hkeeps : Keeps rows rows') (h : w.Owns rows trigger) : w.Owns rows' trigger := by
  intro mine hmine
  obtain ⟨r, hr, htrigger, hasOf⟩ := h mine hmine
  obtain ⟨r', hr', htrigger', hasOf'⟩ := hkeeps mine r hr
  exact ⟨r', hr', htrigger'.trans htrigger, hasOf'.trans hasOf⟩

theorem Driver.Newest.mono (hno : NoNewDone rows rows') (h : w.Newest rows) : w.Newest rows' := by
  intro run r' hr' hnightly hasOf
  obtain ⟨r, hr, hnightly₀, hasOf₀, hdone⟩ := hno run r' hr' hnightly
  obtain ⟨hle, hmine⟩ := h run r hr hnightly₀ (hasOf₀.trans hasOf)
  exact ⟨hle, fun hd => hmine (hdone hd)⟩

theorem LastDone.mono (hno : NoNewDone rows rows') (h : LastDone rows) : LastDone rows' := by
  intro run r run' r' hr hr' hn hn' hasOf hdone
  obtain ⟨r₀, hr₀, hn₀, hasOf₀, hd₀⟩ := hno run r hr hn
  obtain ⟨r₀', hr₀', hn₀', hasOf₀', -⟩ := hno run' r' hr' hn'
  exact h run r₀ run' r₀' hr₀ hr₀' hn₀ hn₀' (hasOf₀'.trans (hasOf.trans hasOf₀.symm)) (hd₀ hdone)

theorem getElem?_setStatus {run k : ℕ} {status : Status} {r' : RunRow} (h : (setStatus rows run status)[k]? = some r') :
    ∃ r, rows[k]? = some r ∧ r' = if run = k then { r with status := status } else r := by
  unfold setStatus at h
  rw [List.getElem?_modify] at h
  obtain ⟨r, hr, heq⟩ := Option.map_eq_some_iff.mp h
  exact ⟨r, hr, heq.symm⟩

theorem keeps_setStatus (rows : List RunRow) (run : ℕ) (status : Status) : Keeps rows (setStatus rows run status) := by
  intro k r hr
  refine ⟨if run = k then { r with status := status } else r, ?_, ?_, ?_⟩
  · unfold setStatus
    rw [List.getElem?_modify, hr]
    rfl
  · split <;> rfl
  · split <;> rfl

theorem keeps_append (rows : List RunRow) (r : RunRow) : Keeps rows (rows ++ [r]) := by
  intro k old hk
  exact ⟨old, (List.getElem?_append_left (List.getElem?_eq_some_iff.mp hk).1).trans hk, rfl, rfl⟩

/-- What becomes of a row that is no nightly one makes no difference. -/
theorem noNewDone_setStatus {run : ℕ} (status : Status) (h : ∀ r, rows[run]? = some r → r.trigger ≠ .nightly) :
    NoNewDone rows (setStatus rows run status) := by
  intro k r' hr' hnightly
  obtain ⟨r, hr, rfl⟩ := getElem?_setStatus hr'
  by_cases hk : run = k
  · subst hk
    rw [if_pos rfl] at hnightly
    exact absurd hnightly (h r hr)
  · rw [if_neg hk] at hnightly ⊢
    exact ⟨r, hr, hnightly, rfl, id⟩

theorem getElem?_append_one {r r' : RunRow} {k : ℕ} (h : (rows ++ [r])[k]? = some r') :
    rows[k]? = some r' ∨ (k = rows.length ∧ r' = r) := by
  by_cases hk : k < rows.length
  · exact .inl ((List.getElem?_append_left hk).symm.trans h)
  · rw [List.getElem?_append_right (Nat.le_of_not_lt hk)] at h
    obtain ⟨hlt, heq⟩ := List.getElem?_eq_some_iff.mp h
    have hlength : k - rows.length < 1 := hlt
    obtain rfl : k = rows.length := by omega
    simp only [Nat.sub_self] at heq
    exact .inr ⟨rfl, heq.symm⟩

theorem keeps_sweepStale (rows : List RunRow) (now : ℕ) : Keeps rows (sweepStale rows now) := by
  intro k r hr
  refine ⟨_, by rw [sweepStale, List.getElem?_map, hr]; rfl, ?_, ?_⟩
  all_goals
    dsimp only
    split <;> rfl

theorem noNewDone_sweepStale (rows : List RunRow) (now : ℕ) : NoNewDone rows (sweepStale rows now) := by
  intro k r' hr' hnightly
  rw [sweepStale, List.getElem?_map] at hr'
  obtain ⟨r, hr, rfl⟩ := Option.map_eq_some_iff.mp hr'
  split at hnightly
  · exact ⟨r, hr, hnightly, by rw [if_pos ‹_›], fun hd => absurd hd (by rw [if_pos ‹_›]; exact Bool.false_ne_true)⟩
  · exact ⟨r, hr, hnightly, by rw [if_neg ‹_›], fun hd => by rwa [if_neg ‹_›] at hd⟩

theorem not_done_of_doneFor {asOf : CivilDate} (h : doneFor rows asOf = false) {run : ℕ} {r : RunRow}
    (hr : rows[run]? = some r) (hasOf : r.asOf = asOf) : r.done = false := by
  have hnot := List.any_eq_false.mp h r (List.mem_of_getElem? hr)
  rw [Bool.and_eq_true, decide_eq_true_eq] at hnot
  exact Bool.eq_false_iff.mpr fun hd => hnot ⟨hasOf, hd⟩

end Rows

/-! ## §3. What one move keeps. -/

section Moves

variable {rows rows' : List RunRow} {now : ℕ} {trigger : Trigger} {w : Driver} {w' : Option Driver} {m : Move}

/-- A move makes the row of a driver that has none, or sets the status of its own. -/
theorem move_cases (h : move rows now trigger w m = some (rows', w')) :
    (w.task = .deciding ∧ rows' = rows ++ [⟨w.asOf, trigger, .queued, now⟩] ∧ w' = some ⟨w.asOf, .claiming rows.length⟩) ∨
      ((rows' = rows ∨ ∃ mine status, w.task.run? = some mine ∧ rows' = setStatus rows mine status) ∧
        ∀ v ∈ w', v.asOf = w.asOf ∧ v.task.run? = w.task.run?) := by
  have hsame : ∀ (written : Bool) (mine : ℕ) (status : Status), w.task.run? = some mine →
      (if written then setStatus rows mine status else rows) = rows ∨
        ∃ mine' status', w.task.run? = some mine' ∧
          (if written then setStatus rows mine status else rows) = setStatus rows mine' status' := by
    intro written mine status hmine
    cases written
    · exact .inl rfl
    · exact .inr ⟨mine, status, hmine, rfl⟩
  obtain ⟨asOf, task⟩ := w
  cases m with
  | create =>
    cases task with
    | deciding =>
      cases h
      exact .inl ⟨rfl, rfl, rfl⟩
    | claiming mine => cases h
    | working mine => cases h
    | failing mine => cases h
  | claim =>
    cases task with
    | claiming mine =>
      unfold move at h
      dsimp only at h
      split at h
      · cases h
        refine .inr ⟨.inr ⟨mine, .running, rfl, rfl⟩, fun v hv => ?_⟩
        cases hv
        exact ⟨rfl, rfl⟩
      · cases h
        exact .inr ⟨.inl rfl, fun v hv => nomatch hv⟩
    | deciding => cases h
    | working mine => cases h
    | failing mine => cases h
  | finish skipped written raised =>
    cases task with
    | working mine =>
      unfold move at h
      dsimp only at h
      split at h
      · cases h
        refine .inr ⟨hsame written mine _ rfl, fun v hv => ?_⟩
        cases raised
        · cases hv
        · cases hv
          exact ⟨rfl, rfl⟩
      · cases h
    | deciding => cases h
    | claiming mine => cases h
    | failing mine => cases h
  | fail written =>
    cases task with
    | working mine =>
      cases h
      exact .inr ⟨hsame written mine .failed rfl, fun v hv => nomatch hv⟩
    | failing mine =>
      cases h
      exact .inr ⟨hsame written mine .failed rfl, fun v hv => nomatch hv⟩
    | deciding => cases h
    | claiming mine => cases h
  | die =>
    cases h
    exact .inr ⟨.inl rfl, fun v hv => nomatch hv⟩

theorem Driver.Owns.congr {v : Driver} (hasOf : v.asOf = w.asOf) (hrun : v.task.run? = w.task.run?)
    (h : w.Owns rows trigger) : v.Owns rows trigger := by
  intro mine hmine
  rw [hasOf]
  exact h mine (hrun ▸ hmine)

theorem Driver.Newest.congr {v : Driver} (hasOf : v.asOf = w.asOf) (hrun : v.task.run? = w.task.run?)
    (h : w.Newest rows) : v.Newest rows := by
  intro run r hr hnightly hday
  rw [hrun]
  exact h run r hr hnightly (hday.trans hasOf)

theorem move_keeps (h : move rows now trigger w m = some (rows', w')) : Keeps rows rows' := by
  rcases move_cases h with ⟨-, rfl, -⟩ | ⟨rfl | ⟨mine, status, -, rfl⟩, -⟩
  · exact keeps_append rows _
  · exact Keeps.refl rows'
  · exact keeps_setStatus rows mine status

/-- A driver has its own row after a move, too. -/
theorem move_owns (howns : w.Owns rows trigger) (h : move rows now trigger w m = some (rows', w')) :
    ∀ v ∈ w', v.Owns rows' trigger := by
  intro v hv
  have hkeeps := move_keeps h
  rcases move_cases h with ⟨-, rfl, rfl⟩ | ⟨-, hcongr⟩
  · cases hv
    intro mine hmine
    cases hmine
    exact ⟨_, List.getElem?_concat_length, rfl, rfl⟩
  · obtain ⟨hasOf, hrun⟩ := hcongr v hv
    exact (howns.mono hkeeps).congr hasOf hrun

/-- What a manual run does makes no difference to the nightly ones. -/
theorem move_manual (howns : w.Owns rows .manual) (h : move rows now .manual w m = some (rows', w')) :
    NoNewDone rows rows' := by
  rcases move_cases h with ⟨-, rfl, -⟩ | ⟨rfl | ⟨mine, status, hmine, rfl⟩, -⟩
  · intro k r' hr' hnightly
    rcases getElem?_append_one hr' with hold | ⟨-, rfl⟩
    · exact ⟨r', hold, hnightly, rfl, id⟩
    · cases hnightly
  · exact NoNewDone.refl rows'
  · refine noNewDone_setStatus status fun r hr hnightly => ?_
    obtain ⟨r', hr', htrigger, -⟩ := howns mine hmine
    obtain rfl := Option.some.inj (hr.symm.trans hr')
    cases htrigger.symm.trans hnightly

/-- The row of the newest nightly run is made. -/
theorem LastDone.create (hlast : LastDone rows) (hnew : w.Newest rows) (hdeciding : w.task = .deciding) (status : Status)
    (hstatus : ∀ createdAt, (RunRow.mk w.asOf .nightly status createdAt).done = false) :
    LastDone (rows ++ [⟨w.asOf, .nightly, status, now⟩]) := by
  have hnone : w.task.run? = none := by rw [hdeciding]; rfl
  intro run r run' r' hr hr' hn hn' hasOf hdone
  rcases getElem?_append_one hr with hold | ⟨-, rfl⟩
  · rcases getElem?_append_one hr' with hold' | ⟨-, rfl⟩
    · exact hlast run r run' r' hold hold' hn hn' hasOf hdone
    · cases hnone.symm.trans ((hnew run r hold hn hasOf.symm).2 hdone)
  · cases (hstatus now).symm.trans hdone

/-- The newest nightly run of a day may be done, or fail. -/
theorem LastDone.own (hlast : LastDone rows) (howns : w.Owns rows .nightly) (hnew : w.Newest rows) {mine : ℕ}
    (hmine : w.task.run? = some mine) (status : Status) : LastDone (setStatus rows mine status) := by
  intro run r run' r' hr hr' hn hn' hasOf hdone
  obtain ⟨r₀, hr₀, rfl⟩ := getElem?_setStatus hr
  obtain ⟨r₀', hr₀', rfl⟩ := getElem?_setStatus hr'
  have hsame : ∀ (k : ℕ) (q : RunRow), (if mine = k then { q with status := status } else q).asOf = q.asOf ∧
      (if mine = k then { q with status := status } else q).trigger = q.trigger := by
    intro k q
    split
    all_goals exact ⟨rfl, rfl⟩
  rw [(hsame run' r₀').1, (hsame run r₀).1] at hasOf
  rw [(hsame run r₀).2] at hn
  rw [(hsame run' r₀').2] at hn'
  by_cases hk : mine = run
  · subst hk
    obtain ⟨own, hown, -, hday⟩ := howns mine hmine
    obtain rfl := Option.some.inj (hr₀.symm.trans hown)
    exact (hnew run' r₀' hr₀' hn' (hasOf.trans hday)).1 mine hmine
  · rw [if_neg hk] at hdone
    exact hlast run r₀ run' r₀' hr₀ hr₀' hn hn' hasOf hdone

theorem Driver.Newest.own (hnew : w.Newest rows) {mine : ℕ} (hmine : w.task.run? = some mine) (status : Status) :
    w.Newest (setStatus rows mine status) := by
  intro run r hr hnightly hday
  obtain ⟨r₀, hr₀, rfl⟩ := getElem?_setStatus hr
  by_cases hk : mine = run
  · subst hk
    rw [if_pos rfl] at hnightly hday
    exact ⟨(hnew mine r₀ hr₀ hnightly hday).1, fun _ => hmine⟩
  · rw [if_neg hk] at hnightly hday ⊢
    exact hnew run r₀ hr₀ hnightly hday

theorem move_nightly (hlast : LastDone rows) (howns : w.Owns rows .nightly) (hnew : w.Newest rows)
    (h : move rows now .nightly w m = some (rows', w')) : LastDone rows' ∧ ∀ v ∈ w', v.Newest rows' := by
  rcases move_cases h with ⟨hdeciding, rfl, rfl⟩ | ⟨rfl | ⟨mine, status, hmine, rfl⟩, hcongr⟩
  · refine ⟨hlast.create hnew hdeciding .queued fun _ => rfl, fun v hv => ?_⟩
    cases hv
    intro run r hr hnightly hday
    rcases getElem?_append_one hr with hold | ⟨rfl, rfl⟩
    · refine ⟨fun mine hmine => ?_, fun hdone => ?_⟩
      · cases hmine
        exact Nat.le_of_lt (List.getElem?_eq_some_iff.mp hold).1
      · have hnone := (hnew run r hold hnightly hday).2 hdone
        rw [hdeciding] at hnone
        cases hnone
    · refine ⟨fun mine hmine => ?_, fun _ => rfl⟩
      cases hmine
      exact Nat.le_refl _
  · exact ⟨hlast, fun v hv => hnew.congr (hcongr v hv).1 (hcongr v hv).2⟩
  · exact ⟨hlast.own howns hnew hmine status, fun v hv => (hnew.own hmine status).congr (hcongr v hv).1 (hcongr v hv).2⟩

end Moves

/-! ## §4. Every run of the ledger. -/

section Runs

variable {s s' : State} {a : Action}

theorem Inv.rows (h : Inv s) {rows : List RunRow} (hkeeps : Keeps s.rows rows) (hno : NoNewDone s.rows rows) :
    Inv { s with rows := rows } where
  last := h.last.mono hno
  night := fun w hw => ⟨(h.night w hw).1.mono hkeeps, (h.night w hw).2.mono hno⟩
  manual := fun w hw => (h.manual w hw).mono hkeeps

/-- **Every step keeps what holds of the ledger.** -/
theorem Inv.step (h : Inv s) (hs : RunLedger.step s a = some s') : Inv s' := by
  cases a with
  | wait seconds =>
    obtain rfl := Option.some.inj hs
    exact ⟨h.last, h.night, h.manual⟩
  | sweep =>
    unfold RunLedger.step at hs
    dsimp only at hs
    split at hs
    · obtain rfl := Option.some.inj hs
      exact h.rows (keeps_sweepStale _ _) (noNewDone_sweepStale _ _)
    · cases hs
  | lookNightly asOf =>
    unfold RunLedger.step at hs
    dsimp only at hs
    split at hs
    · split at hs
      · cases hs
      · next hlook =>
        obtain rfl := Option.some.inj hs
        have hdone : doneFor s.rows asOf = false := by
          rw [Bool.or_eq_true] at hlook
          exact Bool.eq_false_iff.mpr fun hd => hlook (.inl hd)
        refine ⟨h.last, fun w hw => ?_, h.manual⟩
        cases hw
        refine ⟨fun mine hmine => (nomatch hmine), fun run r hr _ hday => ⟨fun mine hmine => (nomatch hmine), fun hd => ?_⟩⟩
        cases (not_done_of_doneFor hdone hr hday).symm.trans hd
    · cases hs
  | lookManual asOf =>
    unfold RunLedger.step at hs
    dsimp only at hs
    split at hs
    · cases hs
    · obtain rfl := Option.some.inj hs
      refine ⟨h.last, h.night, fun w hw => ?_⟩
      rcases List.mem_append.mp hw with hw | hw
      · exact h.manual w hw
      · obtain rfl := List.mem_singleton.mp hw
        exact fun mine hmine => nomatch hmine
  | nightly m =>
    unfold RunLedger.step at hs
    dsimp only at hs
    split at hs
    · cases hs
    · next w hw =>
      obtain ⟨⟨rows', w'⟩, hmove, rfl⟩ := Option.map_eq_some_iff.mp hs
      obtain ⟨howns, hnew⟩ := h.night w hw
      obtain ⟨hlast', hnew'⟩ := move_nightly h.last howns hnew hmove
      exact ⟨hlast', fun v hv => ⟨move_owns howns hmove v hv, hnew' v hv⟩,
        fun v hv => (h.manual v hv).mono (move_keeps hmove)⟩
  | manual i m =>
    unfold RunLedger.step at hs
    dsimp only at hs
    split at hs
    · cases hs
    · next w hw =>
      obtain ⟨⟨rows', w'⟩, hmove, rfl⟩ := Option.map_eq_some_iff.mp hs
      have howns := h.manual w (List.mem_of_getElem? hw)
      have hrows := h.rows (move_keeps hmove) (move_manual howns hmove)
      have howns' := move_owns howns hmove
      cases w' with
      | none => exact ⟨hrows.last, hrows.night, fun v hv => hrows.manual v (List.mem_of_mem_eraseIdx hv)⟩
      | some w' =>
        refine ⟨hrows.last, hrows.night, fun v hv => ?_⟩
        rcases List.mem_or_eq_of_mem_set hv with hv | rfl
        · exact hrows.manual v hv
        · exact howns' v rfl

/-- **A day that a nightly run has done is not forecast by another.**  Whatever is triggered by hand meanwhile,
wherever a process dies, and whatever becomes of what it writes: no nightly run of that day comes after it. -/
theorem nightly_once {as : List Action} (hrun : run noRuns as = some s) {i j : ℕ} {r r' : RunRow}
    (hr : s.rows[i]? = some r) (hr' : s.rows[j]? = some r') (hnightly : r.trigger = .nightly)
    (hnightly' : r'.trigger = .nightly) (hday : r'.asOf = r.asOf) (hdone : r.done = true) : j ≤ i :=
  (foldlM_induct (fun _ _ _ h hs => h.step hs) as inv_noRuns hrun).last i r j r' hr hr' hnightly hnightly' hday hdone

def firstOfMay : CivilDate := ⟨2026, 5, 1, by decide, by decide, by decide⟩

/-- The process dies while the run is under way; a quarter of an hour later the run is swept and made again. -/
def restarted : List Action :=
  [.lookNightly firstOfMay, .nightly .create, .nightly .claim, .nightly .die, .wait 901, .sweep,
   .lookNightly firstOfMay, .nightly .create, .nightly .claim, .nightly (.finish false true false)]

theorem nightly_once_restarted : ∃ s r r', run noRuns restarted = some s ∧ s.rows[1]? = some r ∧
    s.rows[0]? = some r' ∧ r'.status = .failed ∧ r.status = .completed ∧ 0 ≤ 1 :=
  ⟨_, _, _, rfl, rfl, rfl, rfl, rfl, @nightly_once _ restarted rfl 1 0 _ _ rfl rfl rfl rfl rfl rfl⟩

end Runs

end RagPipeline.Forecast.RunLedger
