/-
  RagPipeline.AtRisk.Archive — `backfill_day` among the live runs of the board.

  The backfill writes closed rows for the days before the board, and marks them; the worker writes the rows of
  today, and people check them.  They share one table.

    * `Archive`             — the rows of the board, with the mark of those that the backfill wrote;
    * `backfillDay_cases`   — what a day does;
    * `history_invariants`  — over every run of the board and of the backfill, in any order;
    * `replace_forgets`     — a day that is written again is as if it had been written once;
    * `day_covered`         — a day that is written has one row for each of its deliveries.
-/
import RagPipeline.AtRisk.Backfill

namespace RagPipeline.AtRisk

open RagPipeline.Lib RagPipeline.Stage2

variable (w : DayWork)

/-! ## §1. The archive. -/

/-- A row, and whether the backfill wrote it. -/
structure StoredRow where
  row : DeliveryRow
  reconstructed : Bool

/-- The rows with their marks, and the ledger of the checks. -/
structure Archive where
  rows : List StoredRow := []
  checks : List CheckEntry := []

/-- What the worker and the people see of it. -/
def Archive.board (a : Archive) : Board := ⟨a.rows.map StoredRow.row, a.checks⟩

/-- The counts of a day. -/
structure DayCounts where
  deliveries : ℕ := 0
  written : ℕ := 0
  existing : ℕ := 0
  unreadable : ℕ := 0
  replaced : ℕ := 0
  missed : ℕ := 0
  held : ℕ := 0
  fine : ℕ := 0

/-- `counts[word] += 1`, if there is such a count. -/
def DayCounts.add (counts : DayCounts) : Category → DayCounts
  | .missed => { counts with missed := counts.missed + 1 }
  | .held => { counts with held := counts.held + 1 }
  | .fine => { counts with fine := counts.fine + 1 }
  | _ => counts

/-- The row the loop of `backfill_day` writes for a state. -/
def reconstruct (state : DeliveryState) : StoredRow :=
  let clock := w.clockFor state
  let closeAt := state.departureAt + w.grace
  ⟨writeClosed w state clock (replayTiers state clock closeAt) closeAt, true⟩

/-- The day has a row of the delivery already. -/
def hasRow (existing : List StoredRow) (state : DeliveryState) : Bool :=
  existing.any fun r => isDepartureOf state.deliveryNumber w.day r.row

/-- One turn of the loop of `backfill_day`; `existing` was read before it began. -/
def writeState (existing : List StoredRow) (acc : List StoredRow × DayCounts) (state : DeliveryState) :
    List StoredRow × DayCounts :=
  if hasRow w existing state then (acc.1, { acc.2 with existing := acc.2.existing + 1 })
  else
    let stored := reconstruct w state
    let word := categoryFor stored.row.outcome state.lastAt (some (w.clockFor state).usualReadyAt) stored.row.linesExpected
      stored.row.linesConfirmed w.heldAfter
    (acc.1 ++ [stored], { acc.2 with written := acc.2.written + 1 }.add word)

/-- `delete … where departure_date = day and reconstructed`, with `replace`. -/
def keptRows (replace : Bool) (rows : List StoredRow) : List StoredRow :=
  rows.filter fun r => !(replace && decide (r.row.departureDate = w.day) && r.reconstructed)

/-- `backfill_day`; without counts when the day is skipped. -/
def backfillDay (replace : Bool) (a : Archive) : Archive × Option DayCounts :=
  let (states, closeAt, unreadable) := readDay w
  if closeAt.any fun closeAt => decide (w.now < closeAt) then (a, none)
  else
    let kept := keptRows w replace a.rows
    let (written, counts) := states.foldl (writeState w kept)
      ([], { deliveries := states.length, unreadable := unreadable, replaced := a.rows.length - kept.length })
    (⟨kept ++ written, a.checks⟩, some counts)

/-! ## §2. Runs. -/

/-- Rows with the marks of the rows that were there; a row that comes in has none. -/
def withMarks : List DeliveryRow → List Bool → List StoredRow
  | [], _ => []
  | row :: rows, [] => ⟨row, false⟩ :: withMarks rows []
  | row :: rows, mark :: marks => ⟨row, mark⟩ :: withMarks rows marks

/-- The worker or a person does something to the board. -/
def Archive.step (a : Archive) (s : Step) : Archive :=
  let board := s.run a.board
  ⟨withMarks board.rows (a.rows.map StoredRow.reconstructed), board.checks⟩

/-- What happens to the archive. -/
inductive ArchiveEvent where
  | step (s : Step)
  | backfill (w : DayWork) (replace : Bool)

def ArchiveEvent.run (a : Archive) : ArchiveEvent → Archive
  | .step s => a.step s
  | .backfill w replace => (backfillDay w replace a).1

/-- The rows the backfill did not write. -/
def Archive.live (a : Archive) : List StoredRow := a.rows.filter fun r => !r.reconstructed

/-! ## §3. One day. -/

theorem rowOk_reconstruct (state : DeliveryState) : RowOk (reconstruct w state).row := rowOk_writeClosed ..

@[simp] theorem DayCounts.add_written (counts : DayCounts) (word : Category) :
    (counts.add word).written = counts.written := by
  cases word <;> rfl

@[simp] theorem DayCounts.add_existing (counts : DayCounts) (word : Category) :
    (counts.add word).existing = counts.existing := by
  cases word <;> rfl

@[simp] theorem DayCounts.add_deliveries (counts : DayCounts) (word : Category) :
    (counts.add word).deliveries = counts.deliveries := by
  cases word <;> rfl

/-- The rows the loop writes: one for each state that has none. -/
def writtenRows (existing : List StoredRow) (states : List DeliveryState) : List StoredRow :=
  (states.filter fun state => !hasRow w existing state).map (reconstruct w)

theorem writeLoop (existing : List StoredRow) (states : List DeliveryState) (acc : List StoredRow × DayCounts) :
    let acc' := states.foldl (writeState w existing) acc
    acc'.1 = acc.1 ++ writtenRows w existing states ∧ acc'.2.deliveries = acc.2.deliveries ∧
      acc'.2.written + acc'.2.existing = acc.2.written + acc.2.existing + states.length ∧
      acc'.2.written = acc.2.written + (writtenRows w existing states).length := by
  induction states generalizing acc with
  | nil => simp [writtenRows]
  | cons state states ih =>
    obtain ⟨hrows, hdeliveries, htotal, hwritten⟩ := ih (writeState w existing acc state)
    rw [List.foldl_cons]
    unfold writtenRows at hrows hwritten ⊢
    unfold writeState at hrows hdeliveries htotal hwritten ⊢
    cases hrow : hasRow w existing state with
    | true =>
      simp only [hrow, if_true] at hrows hdeliveries htotal hwritten ⊢
      refine ⟨?_, hdeliveries, ?_, ?_⟩
      · rw [hrows, List.filter_cons_of_neg (by simp [hrow])]
      · rw [htotal, List.length_cons]
        omega
      · rw [hwritten, List.filter_cons_of_neg (by simp [hrow])]
    | false =>
      simp only [hrow, Bool.false_eq_true, if_false, DayCounts.add_written, DayCounts.add_existing,
        DayCounts.add_deliveries] at hrows hdeliveries htotal hwritten ⊢
      refine ⟨?_, hdeliveries, ?_, ?_⟩
      · rw [hrows, List.filter_cons_of_pos (by simp [hrow]), List.map_cons, List.append_assoc, List.singleton_append]
      · rw [htotal, List.length_cons]
        omega
      · rw [hwritten, List.filter_cons_of_pos (by simp [hrow]), List.map_cons, List.length_cons]
        omega

/-- **What a day does**: nothing, before its deliveries have all closed; else it keeps rows and writes rows. -/
theorem backfillDay_cases (replace : Bool) (a : Archive) :
    (∃ closeAt ∈ (readDay w).2.1, w.now < closeAt) ∧ backfillDay w replace a = (a, none) ∨
      (∀ closeAt ∈ (readDay w).2.1, closeAt ≤ w.now) ∧ ∃ counts : DayCounts,
        backfillDay w replace a =
          (⟨keptRows w replace a.rows ++ writtenRows w (keptRows w replace a.rows) (readDay w).1, a.checks⟩, some counts) ∧
        counts.deliveries = (readDay w).1.length ∧ counts.written + counts.existing = counts.deliveries ∧
        counts.written = (writtenRows w (keptRows w replace a.rows) (readDay w).1).length := by
  unfold backfillDay
  generalize readDay w = day
  obtain ⟨states, closeAt, unreadable⟩ := day
  simp only
  split
  · next hlate =>
    obtain ⟨at_, hat, hlt⟩ := (Option.any_eq_true _ _).mp hlate
    exact .inl ⟨⟨at_, hat, of_decide_eq_true hlt⟩, rfl⟩
  · next hclosed =>
    obtain ⟨hrows, hdeliveries, htotal, hwritten⟩ := writeLoop w (keptRows w replace a.rows) states
      ([], { deliveries := states.length, unreadable := unreadable,
             replaced := a.rows.length - (keptRows w replace a.rows).length })
    refine .inr ⟨fun at_ hat => not_lt.mp fun hlt => hclosed ?_, _, ?_, hdeliveries, ?_, ?_⟩
    · rw [Option.mem_def.mp hat]
      exact decide_eq_true hlt
    · rw [hrows, List.nil_append]
    · rw [htotal, hdeliveries]
      simp
    · rw [hwritten]
      simp

/-! ## §4. Rows that do not clash. -/

/-- Of one delivery, and of one departure or both open. -/
def Clash (r s : DeliveryRow) : Prop :=
  r.deliveryNumber = s.deliveryNumber ∧ (r.departureDate = s.departureDate ∨ r.status = .open_ ∧ s.status = .open_)

/-- What holds of no two elements of a list holds only at one place. -/
theorem pairwise_not_iff {α : Type} {R : α → α → Prop} (hsymm : ∀ a b, R a b → R b a) (l : List α) :
    l.Pairwise (fun a b => ¬ R a b) ↔
      ∀ (i j : ℕ) (a b : α), l[i]? = some a → l[j]? = some b → R a b → i = j := by
  rw [List.pairwise_iff_getElem]
  constructor
  · intro h i j a b hi hj hab
    obtain ⟨hlti, rfl⟩ := List.getElem?_eq_some_iff.mp hi
    obtain ⟨hltj, rfl⟩ := List.getElem?_eq_some_iff.mp hj
    rcases lt_trichotomy i j with hlt | heq | hgt
    · exact absurd hab (h i j hlti hltj hlt)
    · exact heq
    · exact absurd (hsymm _ _ hab) (h j i hltj hlti hgt)
  · intro h i j hi hj hlt hab
    exact absurd (h i j _ _ (List.getElem?_eq_getElem hi) (List.getElem?_eq_getElem hj) hab) hlt.ne

theorem Clash.symm {r s : DeliveryRow} (h : Clash r s) : Clash s r :=
  ⟨h.1.symm, h.2.imp Eq.symm And.symm⟩

/-- The board is in order if and only if no two rows clash, and each row is in order. -/
theorem inv_iff (board : Board) :
    Inv board ↔ board.rows.Pairwise (fun r s => ¬ Clash r s) ∧ ∀ r ∈ board.rows, RowOk r := by
  rw [pairwise_not_iff fun _ _ => Clash.symm]
  constructor
  · intro h
    refine ⟨fun i j r s hi hj hclash => ?_, fun r hr => ?_⟩
    · obtain ⟨hnumber, hdate | ⟨hr, hs⟩⟩ := hclash
      · exact h.oneDeparture i j r s hi hj hnumber hdate
      · exact h.oneOpen i j r s hi hj hnumber hr hs
    · obtain ⟨i, hi⟩ := List.mem_iff_getElem?.mp hr
      exact h.rowOk i r hi
  · intro h
    exact ⟨fun i j r s hi hj hnumber hr hs => h.1 i j r s hi hj ⟨hnumber, .inr ⟨hr, hs⟩⟩,
      fun i j r s hi hj hnumber hdate => h.1 i j r s hi hj ⟨hnumber, .inl hdate⟩,
      fun i r hi => h.2 r (List.mem_of_getElem? hi)⟩

variable {w} {a : Archive}

theorem mem_writtenRows {existing : List StoredRow} {states : List DeliveryState} {r : StoredRow} :
    r ∈ writtenRows w existing states ↔ ∃ state ∈ states, hasRow w existing state = false ∧ reconstruct w state = r := by
  unfold writtenRows
  rw [List.mem_map]
  refine exists_congr fun state => ?_
  rw [List.mem_filter, Bool.not_eq_true', and_assoc]

/-- Of the day: what is written for a state of it. -/
theorem written_day {existing : List StoredRow} {r : StoredRow} (h : r ∈ writtenRows w existing (readDay w).1) :
    r.reconstructed = true ∧ r.row.status = .closed ∧ r.row.departureDate = w.day := by
  obtain ⟨state, hstate, -, rfl⟩ := mem_writtenRows.mp h
  exact ⟨rfl, rfl, (states_spec w).2.1 state hstate⟩

/-- One day. -/
theorem backfillDay_inv (h : Inv a.board) (replace : Bool) : Inv (backfillDay w replace a).1.board := by
  rcases backfillDay_cases w replace a with ⟨-, heq⟩ | ⟨-, counts, heq, -⟩
  · rw [heq]
    exact h
  · rw [heq]
    obtain ⟨hapart, hok⟩ := (inv_iff _).mp h
    have hkept : List.Sublist ((keptRows w replace a.rows).map StoredRow.row) (a.rows.map StoredRow.row) :=
      List.filter_sublist.map _
    refine (inv_iff _).mpr ⟨?_, fun r hr => ?_⟩
    · show ((keptRows w replace a.rows ++ _).map StoredRow.row).Pairwise _
      rw [List.map_append, List.pairwise_append]
      refine ⟨hapart.sublist hkept, ?_, fun r hr s hs hclash => ?_⟩
      · -- the deliveries of the day are different ones
        have hnumbers : ((readDay w).1.filter fun state => !hasRow w (keptRows w replace a.rows) state).Pairwise
            fun state state' => state.deliveryNumber ≠ state'.deliveryNumber :=
          (List.pairwise_map.mp (states_spec w).1).sublist List.filter_sublist
        unfold writtenRows
        rw [List.map_map, List.pairwise_map]
        exact hnumbers.imp fun hne hclash => hne hclash.1
      · -- what was there is not of this delivery and this day
        obtain ⟨stored, hstored, rfl⟩ := List.mem_map.mp hr
        obtain ⟨written, hwritten, rfl⟩ := List.mem_map.mp hs
        obtain ⟨-, hclosed, hday⟩ := written_day hwritten
        obtain ⟨state, -, hnone, rfl⟩ := mem_writtenRows.mp hwritten
        obtain ⟨hnumber, hdate | ⟨-, hopen⟩⟩ := hclash
        · refine absurd (List.any_eq_true.mpr ⟨stored, hstored, ?_⟩) (by rw [← hasRow, hnone]; exact Bool.false_ne_true)
          have hsame : stored.row.deliveryNumber = state.deliveryNumber := hnumber
          have hdates : stored.row.departureDate = w.day := hdate.trans hday
          simp [isDepartureOf, hsame, hdates]
        · have hne : Status.closed ≠ .open_ := by decide
          exact absurd (hclosed.symm.trans hopen) hne
    · obtain ⟨stored, hstored, rfl⟩ := List.mem_map.mp hr
      rcases List.mem_append.mp hstored with hstored | hstored
      · exact hok _ (hkept.subset (List.mem_map_of_mem hstored))
      · obtain ⟨state, -, -, rfl⟩ := mem_writtenRows.mp hstored
        exact rowOk_reconstruct w state

/-- What the backfill did not write it leaves as it is. -/
theorem backfillDay_live (replace : Bool) : (backfillDay w replace a).1.live = a.live := by
  rcases backfillDay_cases w replace a with ⟨-, heq⟩ | ⟨-, counts, heq, -⟩
  · rw [heq]
  · rw [heq]
    show (keptRows w replace a.rows ++ writtenRows w _ _).filter _ = a.rows.filter _
    have hwritten : ((writtenRows w (keptRows w replace a.rows) (readDay w).1).filter fun r => !r.reconstructed) = [] := by
      refine List.filter_eq_nil_iff.mpr fun r hr => ?_
      rw [(written_day hr).1]
      decide
    rw [List.filter_append, hwritten, List.append_nil]
    unfold keptRows
    rw [List.filter_filter]
    refine List.filter_congr fun r _ => ?_
    cases r.reconstructed <;> simp

/-! ## §5. Runs. -/

theorem withMarks_row (rows : List DeliveryRow) (marks : List Bool) : (withMarks rows marks).map StoredRow.row = rows := by
  induction rows generalizing marks with
  | nil => rfl
  | cons row rows ih =>
    cases marks with
    | nil => exact congrArg (row :: ·) (ih [])
    | cons mark marks => exact congrArg (row :: ·) (ih marks)

theorem getElem?_withMarks (rows : List DeliveryRow) (marks : List Bool) (i : ℕ) :
    (withMarks rows marks)[i]? = rows[i]?.map fun row => ⟨row, marks[i]?.getD false⟩ := by
  induction rows generalizing marks i with
  | nil => rfl
  | cons row rows ih =>
    cases marks with
    | nil =>
      cases i with
      | zero => rfl
      | succ i => exact (ih [] i).trans (by simp)
    | cons mark marks =>
      cases i with
      | zero => rfl
      | succ i => exact ih marks i

theorem step_board (a : Archive) (s : Step) : (a.step s).board = s.run a.board := by
  unfold Archive.step Archive.board
  simp only [withMarks_row]

/-- A row that is marked has been marked before, and stands where it stood. -/
theorem step_marked {s : Step} {i : ℕ} {r : StoredRow} (h : (a.step s).rows[i]? = some r) (hmark : r.reconstructed = true) :
    ∃ old, a.rows[i]? = some old ∧ old.reconstructed = true ∧ (s.run a.board).rows[i]? = some r.row := by
  have hrows := (getElem?_withMarks (s.run a.board).rows (a.rows.map StoredRow.reconstructed) i).symm.trans h
  obtain ⟨row, hrow, rfl⟩ := Option.map_eq_some_iff.mp hrows
  rw [List.getElem?_map] at hmark
  cases hold : a.rows[i]? with
  | none =>
    rw [hold] at hmark
    exact absurd hmark Bool.false_ne_true
  | some old =>
    rw [hold] at hmark
    exact ⟨old, rfl, hmark, hrow⟩

/-- A row that is closed stays closed. -/
theorem step_closed {board : Board} (h : Inv board) (s : Step) {i : ℕ} {r : DeliveryRow} (hi : board.rows[i]? = some r)
    (hclosed : r.status = .closed) {r' : DeliveryRow} (hi' : (s.run board).rows[i]? = some r') : r'.status = .closed := by
  have hmark : ∀ (number : String) (date : Option Day) (action : CheckAction) (now : Instant),
      (mark number date action now board).rows[i]? = some r' → r'.status = .closed := by
    intro number date action now hrow
    unfold mark at hrow
    split at hrow
    · rwa [← Option.some.inj (hi.symm.trans hrow)]
    · split at hrow
      · rwa [← Option.some.inj (hi.symm.trans hrow)]
      · next row hj =>
        rcases getElem?_set_cases hrow with ⟨rfl, rfl⟩ | ⟨-, hrow⟩
        · obtain rfl := Option.some.inj (hi.symm.trans hj)
          cases action <;> exact hclosed
        · rwa [← Option.some.inj (hi.symm.trans hrow)]
  cases s with
  | work work =>
    have hkept := (work.run_inv h).2 i r hi hclosed
    rwa [← Option.some.inj (hkept.symm.trans hi')]
  | check number date now => exact hmark number date .checked now hi'
  | uncheck number date now => exact hmark number date .unchecked now hi'

/-- What holds of the archive. -/
structure ArchiveInv (a : Archive) : Prop where
  board : Inv a.board
  closed : ∀ r ∈ a.rows, r.reconstructed = true → r.row.status = .closed

theorem getElem?_board {i : ℕ} {r : StoredRow} (h : a.rows[i]? = some r) : a.board.rows[i]? = some r.row := by
  show (a.rows.map StoredRow.row)[i]? = some r.row
  rw [List.getElem?_map, h]
  rfl

theorem ArchiveEvent.run_inv (h : ArchiveInv a) (event : ArchiveEvent) : ArchiveInv (event.run a) := by
  cases event with
  | step s =>
    refine ⟨?_, fun r hr hmark => ?_⟩
    · show Inv (a.step s).board
      rw [step_board]
      exact s.run_inv h.board
    · obtain ⟨i, hi⟩ := List.mem_iff_getElem?.mp hr
      obtain ⟨old, hold, hmarked, hrow⟩ := step_marked hi hmark
      exact step_closed h.board s (getElem?_board hold) (h.closed old (List.mem_of_getElem? hold) hmarked) hrow
  | backfill w replace =>
    refine ⟨backfillDay_inv h.board replace, fun r hr hmark => ?_⟩
    rcases backfillDay_cases w replace a with ⟨-, heq⟩ | ⟨-, counts, heq, -⟩
    · exact h.closed r (by rwa [ArchiveEvent.run, heq] at hr) hmark
    · rw [ArchiveEvent.run, heq] at hr
      rcases List.mem_append.mp hr with hr | hr
      · exact h.closed r (List.mem_of_mem_filter hr) hmark
      · exact (written_day hr).2.1

theorem archive_inv (events : List ArchiveEvent) : ArchiveInv (events.foldl ArchiveEvent.run {}) := by
  have hrun : ∀ a : Archive, ArchiveInv a → ArchiveInv (events.foldl ArchiveEvent.run a) := by
    induction events with
    | nil => exact fun _ h => h
    | cons event events ih => exact fun a h => ih _ (event.run_inv h)
  exact hrun {} ⟨inv_empty, fun _ h => absurd h List.not_mem_nil⟩

/-- **Over every run of the worker, of people who check rows and of the backfill**, in any order, the board is
in order, and what the backfill wrote is closed.  The backfill changes no row that it did not write, and the
worker changes no row that the backfill wrote. -/
theorem history_invariants (events : List ArchiveEvent) :
    let a := events.foldl ArchiveEvent.run {}
    Inv a.board ∧ (∀ r ∈ a.rows, r.reconstructed = true → r.row.status = .closed) ∧
      (∀ w replace, (backfillDay w replace a).1.live = a.live) ∧
      ∀ (work : Work), ∀ r ∈ a.rows, r.reconstructed = true → r ∈ (a.step (.work work)).rows := by
  intro a
  have h : ArchiveInv a := archive_inv events
  refine ⟨h.board, h.closed, fun w replace => backfillDay_live replace, fun work r hr hmark => ?_⟩
  obtain ⟨i, hi⟩ := List.mem_iff_getElem?.mp hr
  have hkept := (work.run_inv h.board).2 i r.row (getElem?_board hi) (h.closed r hr hmark)
  have hrow : (a.step (.work work)).rows[i]? = some r := by
    refine (getElem?_withMarks _ _ i).trans ?_
    rw [List.getElem?_map, hi]
    show Option.map _ ((work.run a.board).rows[i]?) = some r
    rw [hkept]
    show some (StoredRow.mk r.row r.reconstructed) = some r
    rfl
  exact List.mem_of_getElem? hrow

/-! ## §6. A day that is written again. -/

theorem keptRows_append (replace : Bool) (rows more : List StoredRow) :
    keptRows w replace (rows ++ more) = keptRows w replace rows ++ keptRows w replace more := List.filter_append ..

/-- Without `replace` no row goes. -/
theorem keptRows_false (rows : List StoredRow) : keptRows w false rows = rows := by
  unfold keptRows
  simp

/-- A later run keeps what it would have kept of the rows before the earlier one. -/
theorem keptRows_after {w' : DayWork} (hday : w'.day = w.day) (first : Bool) (a : Archive) :
    keptRows w' true (backfillDay w first a).1.rows = keptRows w' true a.rows := by
  rcases backfillDay_cases w first a with ⟨-, heq⟩ | ⟨-, counts, heq, -⟩
  · rw [heq]
  · rw [heq]
    show keptRows w' true (keptRows w first a.rows ++ writtenRows w _ _) = keptRows w' true a.rows
    have hwritten : keptRows w' true (writtenRows w (keptRows w first a.rows) (readDay w).1) = [] := by
      refine List.filter_eq_nil_iff.mpr fun r hr => ?_
      obtain ⟨hmark, -, hdate⟩ := written_day hr
      simp [hmark, hdate, hday]
    rw [keptRows_append, hwritten, List.append_nil]
    unfold keptRows
    rw [List.filter_filter]
    refine List.filter_congr fun r _ => ?_
    rw [hday]
    cases first <;> simp

/-- **A day that is written again is as if it had been written once**: with `replace` nothing is left of an
earlier run, whatever rule and clocks it had. -/
theorem replace_forgets (w w' : DayWork) (first : Bool) (a : Archive) (hday : w'.day = w.day)
    (hclosed : (backfillDay w' true a).2.isSome) :
    (backfillDay w' true (backfillDay w first a).1).1 = (backfillDay w' true a).1 := by
  have hchecks : (backfillDay w first a).1.checks = a.checks := by
    rcases backfillDay_cases w first a with ⟨-, heq⟩ | ⟨-, counts, heq, -⟩ <;> rw [heq]
  rcases backfillDay_cases w' true a with ⟨-, heq⟩ | ⟨hpast, counts, heq, -⟩
  · rw [heq] at hclosed
    exact absurd hclosed Bool.false_ne_true
  · rcases backfillDay_cases w' true (backfillDay w first a).1 with ⟨⟨closeAt, hat, hlate⟩, -⟩ | ⟨-, counts', heq', -⟩
    · exact absurd (hpast closeAt hat) (not_le.mpr hlate)
    · rw [heq', heq, keptRows_after hday, hchecks]

/-- The second of October, with one call of the evening before; the time of day is the one of the instants. -/
def october (ruleVersion : String) : DayWork where
  day := 20728
  now := 20730 * 86400000000
  ruleVersion := ruleVersion
  grace := 10800000000
  heldAfter := 3600000000
  localDate at_ := at_ / 86400000000
  midnight day := day * 86400000000
  readDeparture date time :=
    if date = some "20261002" ∧ time = some "1130" then some (20728 * 86400000000 + 41400000000) else none
  calls := [⟨20727 * 86400000000 + 64800000000, some
    "\"DeliveryNumber\":\"D1\",\"Route\":\"R7\",\"DeparatureDate\":\"20261002\",\"DeparatureTime\":\"1130\""⟩]
  picks _ := some ⟨2, 2, 0, some (20728 * 86400000000 + 36000000000), []⟩
  expected _ := some 2
  packages _ _ := ⟨fun _ => none, fun _ => true, fun _ _ => none, fun _ _ => none⟩
  profilesLoad _ := false
  clockFor state := ⟨state.departureAt, "wms_departure", 1800000000, 1200000000⟩

/-- The day is written under one rule, and again under the next. -/
theorem replace_forgets_rule :
    (backfillDay (october "2") true (backfillDay (october "1") false {}).1).1 = (backfillDay (october "2") true {}).1 :=
  replace_forgets (october "1") (october "2") false {} rfl rfl

/-- Every delivery of the day has a row of it once the day is written. -/
theorem hasRow_after {replace : Bool} {counts : DayCounts} (h : (backfillDay w replace a).2 = some counts)
    {state : DeliveryState} (hstate : state ∈ (readDay w).1) : hasRow w (backfillDay w replace a).1.rows state = true := by
  rcases backfillDay_cases w replace a with ⟨-, heq⟩ | ⟨-, counts', heq, -⟩
  · rw [heq] at h
    exact absurd h nofun
  · rw [heq]
    show (keptRows w replace a.rows ++ writtenRows w _ _).any _ = true
    rw [List.any_append, Bool.or_eq_true]
    cases hrow : hasRow w (keptRows w replace a.rows) state with
    | true => exact .inl hrow
    | false =>
      refine .inr (List.any_eq_true.mpr ⟨reconstruct w state, mem_writtenRows.mpr ⟨state, hstate, hrow, rfl⟩, ?_⟩)
      have hday : (reconstruct w state).row.departureDate = w.day := (states_spec w).2.1 state hstate
      have hnumber : (reconstruct w state).row.deliveryNumber = state.deliveryNumber := rfl
      simp [isDepartureOf, hday, hnumber]

/-- **A day that is written has one row for each of its deliveries**, which are those whose last routing call
puts them there, in every archive that a run reaches; and writing it again without `replace` adds nothing. -/
theorem day_covered (events : List ArchiveEvent) (w : DayWork) (replace : Bool) {counts : DayCounts}
    (h : (backfillDay w replace (events.foldl ArchiveEvent.run {})).2 = some counts) :
    let a' := (backfillDay w replace (events.foldl ArchiveEvent.run {})).1
    counts.written + counts.existing = counts.deliveries ∧
      (∀ delivery r, lastCall w (routingCalls w) delivery = some r → w.localDate r.departureAt = w.day →
        ∃! stored, stored ∈ a'.rows ∧ stored.row.deliveryNumber = delivery ∧ stored.row.departureDate = w.day) ∧
      (backfillDay w false a').1 = a' := by
  intro a'
  have hinv : Inv a'.board := backfillDay_inv (archive_inv events).board replace
  refine ⟨?_, fun delivery r hlast hday => ?_, ?_⟩
  · rcases backfillDay_cases w replace (events.foldl ArchiveEvent.run {}) with ⟨-, heq⟩ | ⟨-, counts', heq, -, htotal, -⟩
    · rw [heq] at h
      exact absurd h nofun
    · rw [heq] at h
      rw [← Option.some.inj h]
      exact htotal
  · obtain ⟨state, hstate, rfl⟩ := (states_spec w).2.2 delivery r hlast hday
    obtain ⟨stored, hstored, hrow⟩ := List.any_eq_true.mp (hasRow_after h hstate)
    have hrow' : stored.row.deliveryNumber = state.deliveryNumber ∧ stored.row.departureDate = w.day := by
      simpa [isDepartureOf] using hrow
    refine ⟨stored, ⟨hstored, hrow'⟩, fun other hother => ?_⟩
    obtain ⟨i, hi⟩ := List.mem_iff_getElem?.mp hstored
    obtain ⟨j, hj⟩ := List.mem_iff_getElem?.mp hother.1
    have hij : j = i := hinv.oneDeparture j i other.row stored.row (getElem?_board hj) (getElem?_board hi)
      (hother.2.1.trans hrow'.1.symm) (hother.2.2.trans hrow'.2.symm)
    subst hij
    exact Option.some.inj (hj.symm.trans hi)
  · rcases backfillDay_cases w false a' with ⟨-, heq⟩ | ⟨-, counts', heq, -⟩
    · rw [heq]
    · rw [heq, keptRows_false]
      have hnone : writtenRows w a'.rows (readDay w).1 = [] := by
        refine List.eq_nil_iff_forall_not_mem.mpr fun r hr => ?_
        obtain ⟨state, hstate, hrow, -⟩ := mem_writtenRows.mp hr
        exact absurd (hasRow_after h hstate) (by rw [hrow]; exact Bool.false_ne_true)
      rw [hnone, List.append_nil]

theorem day_covered_october :
    ∃! stored, stored ∈ (backfillDay (october "1") false {}).1.rows ∧ stored.row.deliveryNumber = "D1" ∧
      stored.row.departureDate = 20728 :=
  (day_covered [] (october "1") false rfl).2.1 "D1" ⟨20728 * 86400000000 + 41400000000, some "R7", none, none⟩
    rfl rfl

end RagPipeline.AtRisk
