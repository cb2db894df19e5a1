/-
  RagPipeline.AtRisk.Board — what holds of the board, whatever the worker and the people do to it.

    * `RowOk`            — the tier, the highest tier and the first flag of a row are those of its history;
    * `Inv`              — and of a delivery at most one row is open, and at most one is of a departure;
    * `Inv.set`, `Inv.append` — the two ways in which a step changes the rows;
    * `Keeps`            — what is closed stays as it is;
    * `board_invariants` — over every run.
-/
import RagPipeline.AtRisk.DeliveryStore

namespace RagPipeline.AtRisk

open RagPipeline.Lib RagPipeline.Stage2

/-! ## §1. Invariants. -/

/-- The entry is not of the tier `none`. -/
def HistoryEntry.flagged (entry : HistoryEntry) : Bool := decide (entry.tier ≠ .none)

/-- The redundant columns of a row are those its history gives. -/
structure RowOk (row : DeliveryRow) : Prop where
  tier : row.tier = (row.tierHistory.getLast?.map HistoryEntry.tier).getD .none
  maxTier_le : ∀ entry ∈ row.tierHistory, entry.tier.rank ≤ row.maxTier.rank
  maxTier_mem : row.maxTier = .none ∨ ∃ entry ∈ row.tierHistory, entry.tier = row.maxTier
  firstFlaggedAt : row.firstFlaggedAt = (row.tierHistory.find? HistoryEntry.flagged).map HistoryEntry.at_
  firstFlaggedTier : row.firstFlaggedTier = (row.tierHistory.find? HistoryEntry.flagged).map HistoryEntry.tier

/-- A row is flagged if and only if its history holds a tier. -/
theorem RowOk.flagged_iff {row : DeliveryRow} (h : RowOk row) :
    row.firstFlaggedAt.isSome ↔ ∃ entry ∈ row.tierHistory, entry.tier ≠ .none := by
  rw [h.firstFlaggedAt, Option.isSome_map, List.find?_isSome]
  simp [HistoryEntry.flagged]

/-- What holds of the board. -/
structure Inv (board : Board) : Prop where
  oneOpen : ∀ (i j : ℕ) (r s : DeliveryRow), board.rows[i]? = some r → board.rows[j]? = some s →
    r.deliveryNumber = s.deliveryNumber → r.status = .open_ → s.status = .open_ → i = j
  oneDeparture : ∀ (i j : ℕ) (r s : DeliveryRow), board.rows[i]? = some r → board.rows[j]? = some s →
    r.deliveryNumber = s.deliveryNumber → r.departureDate = s.departureDate → i = j
  rowOk : ∀ (i : ℕ) (r : DeliveryRow), board.rows[i]? = some r → RowOk r

/-- The closed rows of the one board stand in the other one as they are. -/
def Keeps (board board' : Board) : Prop :=
  ∀ (i : ℕ) (r : DeliveryRow), board.rows[i]? = some r → r.status = .closed → board'.rows[i]? = some r

theorem Keeps.refl (board : Board) : Keeps board board := fun _ _ h _ => h

theorem Keeps.trans {a b c : Board} (hab : Keeps a b) (hbc : Keeps b c) : Keeps a c :=
  fun i r h hclosed => hbc i r (hab i r h hclosed) hclosed

theorem inv_empty : Inv {} where
  oneOpen _ _ _ _ h := absurd h (by simp)
  oneDeparture _ _ _ _ h := absurd h (by simp)
  rowOk _ _ h := absurd h (by simp)

/-! ## §2. How the rows change. -/

section Changes

variable {board : Board} {row : DeliveryRow}

theorem getElem?_set_cases {rows : List DeliveryRow} {i j : ℕ} {r s : DeliveryRow} (h : (rows.set i r)[j]? = some s) :
    (j = i ∧ s = r) ∨ (j ≠ i ∧ rows[j]? = some s) := by
  by_cases hij : i = j
  · subst hij
    rw [List.getElem?_set_self'] at h
    cases hrow : rows[i]? with
    | none =>
      rw [hrow] at h
      exact absurd h nofun
    | some old =>
      rw [hrow] at h
      exact .inl ⟨rfl, (Option.some.inj h).symm⟩
  · rw [List.getElem?_set_ne hij] at h
    exact .inr ⟨Ne.symm hij, h⟩

theorem getElem?_snoc_cases {rows : List DeliveryRow} {j : ℕ} {r s : DeliveryRow} (h : (rows ++ [r])[j]? = some s) :
    (j = rows.length ∧ s = r) ∨ rows[j]? = some s := by
  rcases Nat.lt_or_ge j rows.length with hlt | hge
  · rw [List.getElem?_append_left hlt] at h
    exact .inr h
  · rw [List.getElem?_append_right hge] at h
    rw [List.getElem?_singleton] at h
    split at h
    · next hzero => exact .inl ⟨by omega, (Option.some.inj h).symm⟩
    · exact absurd h nofun

/-- A row is rewritten: it stays of its delivery, it opens no closed row, and no other row of the delivery
is of its departure. -/
theorem Inv.set (h : Inv board) {i : ℕ} {old : DeliveryRow} (hi : board.rows[i]? = some old)
    (hnumber : row.deliveryNumber = old.deliveryNumber) (hopen : row.status = .open_ → old.status = .open_)
    (hdate : ∀ (j : ℕ) (s : DeliveryRow), j ≠ i → board.rows[j]? = some s → s.deliveryNumber = row.deliveryNumber →
      s.departureDate ≠ row.departureDate)
    (hok : RowOk row) (checks : List CheckEntry) : Inv ⟨board.rows.set i row, checks⟩ where
  oneOpen := by
    intro j k r s hj hk hsame hr hs
    replace hj := getElem?_set_cases hj
    replace hk := getElem?_set_cases hk
    rcases hj with ⟨rfl, rfl⟩ | ⟨hne, hj⟩
    · rcases hk with ⟨rfl, rfl⟩ | ⟨-, hk⟩
      · rfl
      · exact h.oneOpen _ _ old s hi hk (hnumber.symm.trans hsame) (hopen hr) hs
    · rcases hk with ⟨rfl, rfl⟩ | ⟨-, hk⟩
      · exact h.oneOpen _ _ r old hj hi (hsame.trans hnumber) hr (hopen hs)
      · exact h.oneOpen _ _ r s hj hk hsame hr hs
  oneDeparture := by
    intro j k r s hj hk hsame hdates
    replace hj := getElem?_set_cases hj
    replace hk := getElem?_set_cases hk
    rcases hj with ⟨rfl, rfl⟩ | ⟨hnej, hj⟩
    · rcases hk with ⟨rfl, rfl⟩ | ⟨hnek, hk⟩
      · rfl
      · exact absurd hdates.symm (hdate k s hnek hk hsame.symm)
    · rcases hk with ⟨rfl, rfl⟩ | ⟨-, hk⟩
      · exact absurd hdates (hdate j r hnej hj hsame)
      · exact h.oneDeparture _ _ r s hj hk hsame hdates
  rowOk := by
    intro j r hj
    rcases getElem?_set_cases hj with ⟨rfl, rfl⟩ | ⟨-, hj⟩
    · exact hok
    · exact h.rowOk j r hj

/-- A row that keeps its departure, too. -/
theorem Inv.set_same (h : Inv board) {i : ℕ} {old : DeliveryRow} (hi : board.rows[i]? = some old)
    (hnumber : row.deliveryNumber = old.deliveryNumber) (hdate : row.departureDate = old.departureDate)
    (hopen : row.status = .open_ → old.status = .open_) (hok : RowOk row) (checks : List CheckEntry) :
    Inv ⟨board.rows.set i row, checks⟩ := by
  refine h.set hi hnumber hopen (fun j s hne hj hsame hdates => hne ?_) hok checks
  exact h.oneDeparture j i s old hj hi (hsame.trans hnumber) (hdates.trans hdate)

/-- A row comes in: no row of its delivery is open or of its departure. -/
theorem Inv.append (h : Inv board)
    (hopen : ∀ (j : ℕ) (s : DeliveryRow), board.rows[j]? = some s → s.deliveryNumber = row.deliveryNumber →
      s.status ≠ .open_)
    (hdate : ∀ (j : ℕ) (s : DeliveryRow), board.rows[j]? = some s → s.deliveryNumber = row.deliveryNumber →
      s.departureDate ≠ row.departureDate)
    (hok : RowOk row) (checks : List CheckEntry) : Inv ⟨board.rows ++ [row], checks⟩ where
  oneOpen := by
    intro j k r s hj hk hsame hr hs
    replace hj := getElem?_snoc_cases hj
    replace hk := getElem?_snoc_cases hk
    rcases hj with ⟨rfl, rfl⟩ | hj
    · rcases hk with ⟨rfl, rfl⟩ | hk
      · rfl
      · exact absurd hs (hopen k s hk hsame.symm)
    · rcases hk with ⟨rfl, rfl⟩ | hk
      · exact absurd hr (hopen j r hj hsame)
      · exact h.oneOpen _ _ r s hj hk hsame hr hs
  oneDeparture := by
    intro j k r s hj hk hsame hdates
    replace hj := getElem?_snoc_cases hj
    replace hk := getElem?_snoc_cases hk
    rcases hj with ⟨rfl, rfl⟩ | hj
    · rcases hk with ⟨rfl, rfl⟩ | hk
      · rfl
      · exact absurd hdates.symm (hdate k s hk hsame.symm)
    · rcases hk with ⟨rfl, rfl⟩ | hk
      · exact absurd hdates (hdate j r hj hsame)
      · exact h.oneDeparture _ _ r s hj hk hsame hdates
  rowOk := by
    intro j r hj
    rcases getElem?_snoc_cases hj with ⟨rfl, rfl⟩ | hj
    · exact hok
    · exact h.rowOk j r hj

/-- An open row may be rewritten, -/
theorem keeps_set {i : ℕ} {old : DeliveryRow} (hi : board.rows[i]? = some old) (hopen : old.status = .open_)
    (checks : List CheckEntry) : Keeps board ⟨board.rows.set i row, checks⟩ := by
  intro j r hj hclosed
  have hne : i ≠ j := by
    rintro rfl
    obtain rfl := Option.some.inj (hi.symm.trans hj)
    exact absurd (hopen.symm.trans hclosed) nofun
  show (board.rows.set i row)[j]? = some r
  rw [List.getElem?_set_ne hne, hj]

/-- and a row may come in. -/
theorem keeps_append (checks : List CheckEntry) : Keeps board ⟨board.rows ++ [row], checks⟩ := by
  intro j r hj _
  show (board.rows ++ [row])[j]? = some r
  rw [List.getElem?_append_left (List.getElem?_eq_some_iff.mp hj).1, hj]

end Changes

/-! ## §3. The tier. -/

/-- What `_write_tier` leaves alone. -/
theorem writeTier_frame (row : DeliveryRow) (tier : Tier) (now : Instant) (minutes : ℚ) (clock : RouteClock)
    (stats : ApplyStats) :
    (writeTier row tier now minutes clock stats).1.deliveryNumber = row.deliveryNumber ∧
      (writeTier row tier now minutes clock stats).1.departureDate = row.departureDate ∧
      (writeTier row tier now minutes clock stats).1.status = row.status := by
  unfold writeTier
  split
  · exact ⟨rfl, rfl, rfl⟩
  · exact ⟨rfl, rfl, rfl⟩

/-- The columns stay those of the history. -/
theorem RowOk.writeTier {row : DeliveryRow} (h : RowOk row) (tier : Tier) (now : Instant) (minutes : ℚ)
    (clock : RouteClock) (stats : ApplyStats) : RowOk (writeTier row tier now minutes clock stats).1 := by
  unfold AtRisk.writeTier
  split
  · exact h
  · next hne =>
    -- the first flag of the history is the old one, or the new entry
    have hfind : (row.tierHistory ++ [historyEntry tier now minutes clock]).find? HistoryEntry.flagged =
        (row.tierHistory.find? HistoryEntry.flagged).or
          (if tier ≠ .none then some (historyEntry tier now minutes clock) else none) := by
      rw [List.find?_append]
      congr 1
      by_cases htier : tier = .none
      · simp [htier, HistoryEntry.flagged, historyEntry]
      · simp [htier, HistoryEntry.flagged, historyEntry]
    have hfirst := h.firstFlaggedAt
    have hfirstTier := h.firstFlaggedTier
    constructor
    · simp [historyEntry]
    · intro entry hentry
      show entry.tier.rank ≤ (if row.maxTier.rank < tier.rank then tier else row.maxTier).rank
      rcases List.mem_append.mp hentry with hentry | hentry
      · have := h.maxTier_le entry hentry
        split <;> omega
      · obtain rfl := List.mem_singleton.mp hentry
        show tier.rank ≤ _
        split <;> omega
    · show (if row.maxTier.rank < tier.rank then tier else row.maxTier) = .none ∨ _
      split
      · exact .inr ⟨_, List.mem_append_right _ List.mem_cons_self, rfl⟩
      · refine h.maxTier_mem.imp_right fun ⟨entry, hentry, heq⟩ => ⟨entry, List.mem_append_left _ hentry, heq⟩
    · show (if (decide (tier ≠ .none) && row.firstFlaggedAt.isNone) = true then some now else row.firstFlaggedAt) = _
      rw [hfind, hfirst]
      cases row.tierHistory.find? HistoryEntry.flagged with
      | none => by_cases htier : tier = .none <;> simp [htier, historyEntry]
      | some entry => simp
    · show (if (decide (tier ≠ .none) && row.firstFlaggedAt.isNone) = true then some tier else row.firstFlaggedTier) = _
      rw [hfind, hfirst, hfirstTier]
      cases row.tierHistory.find? HistoryEntry.flagged with
      | none => by_cases htier : tier = .none <;> simp [htier, historyEntry]
      | some entry => simp

/-! ## §4. Apply. -/

section Apply

variable (e : Evaluation)

theorem evaluate_frame (row : DeliveryRow) (state : DeliveryState) (stats : ApplyStats) :
    (evaluate e row state stats).1.deliveryNumber = row.deliveryNumber ∧
      (evaluate e row state stats).1.departureDate = row.departureDate ∧
      (evaluate e row state stats).1.status = row.status :=
  writeTier_frame (writeClock (writeProgress row state) (e.clockFor state)) _ _ _ _ _

theorem RowOk.evaluate {row : DeliveryRow} (h : RowOk row) (state : DeliveryState) (stats : ApplyStats) :
    RowOk (evaluate e row state stats).1 := by
  have hprogress : RowOk (writeClock (writeProgress row state) (e.clockFor state)) :=
    { h with }
  have htier := hprogress.writeTier (tierFor state e.now (e.clockFor state)) e.now
    (minutesToDeparture (e.clockFor state).usualReadyAt e.now) (e.clockFor state) stats
  exact { htier with }

theorem rowOk_newRow (state : DeliveryState) : RowOk (newRow e state) where
  tier := rfl
  maxTier_le := nofun
  maxTier_mem := .inl rfl
  firstFlaggedAt := rfl
  firstFlaggedTier := rfl

/-- One state. -/
theorem applyState_inv {acc : Board × ApplyStats} (h : Inv acc.1) (state : DeliveryState) :
    Inv (applyState e acc state).1 ∧ Keeps acc.1 (applyState e acc state).1 := by
  obtain ⟨board, stats⟩ := acc
  unfold applyState
  simp only
  split
  · next hfind =>
    -- no row of the delivery is open, so a new one may be
    have hclosed : ∀ (j : ℕ) (s : DeliveryRow), board.rows[j]? = some s → s.deliveryNumber = state.deliveryNumber →
        s.status ≠ .open_ := by
      intro j s hj hsame hopen
      have := List.findIdx?_eq_none_iff.mp hfind s (List.mem_of_getElem? hj)
      simp [isOpenOf, hsame, hopen] at this
    split
    · exact ⟨h, Keeps.refl board⟩
    · next hdate =>
      have hother : ∀ (j : ℕ) (s : DeliveryRow), board.rows[j]? = some s → s.deliveryNumber = state.deliveryNumber →
          s.departureDate ≠ e.localDate state.departureAt := by
        intro j s hj hsame hdates
        refine hdate (List.any_eq_true.mpr ⟨s, List.mem_of_getElem? hj, ?_⟩)
        simp [isDepartureOf, hsame, hdates]
      obtain ⟨hnumber, hday, -⟩ := evaluate_frame e (newRow e state) state { stats with created := stats.created + 1 }
      refine ⟨h.append (fun j s hj hsame => hclosed j s hj (hsame.trans hnumber)) (fun j s hj hsame => ?_)
        ((rowOk_newRow e state).evaluate e state _) _, keeps_append _⟩
      rw [hday]
      exact hother j s hj (hsame.trans hnumber)
  · next i hfind =>
    split
    · exact ⟨h, Keeps.refl board⟩
    · next row hi =>
      -- the row that was found is the open one of the delivery
      have hrow : row.deliveryNumber = state.deliveryNumber ∧ row.status = .open_ := by
        obtain ⟨hlt, hopen, -⟩ := List.findIdx?_eq_some_iff_getElem.mp hfind
        rw [List.getElem?_eq_getElem hlt] at hi
        rw [Option.some.inj hi] at hopen
        simpa [isOpenOf] using hopen
      split
      · split
        · exact ⟨h, Keeps.refl board⟩
        · next hdate =>
          obtain ⟨hnumber, hday, hstatus⟩ := evaluate_frame e { row with departureDate := e.localDate state.departureAt }
            state { stats with moved := stats.moved + 1 }
          have hok := h.rowOk i row hi
          have hmoved : RowOk { row with departureDate := e.localDate state.departureAt } := { hok with }
          refine ⟨h.set hi hnumber (fun _ => hrow.2) (fun j s hne hj hsame hdates => ?_) (hmoved.evaluate e state _) _,
            keeps_set hi hrow.2 _⟩
          refine hdate (List.any_eq_true.mpr ⟨s, List.mem_eraseIdx_iff_getElem?.mpr ⟨j, hne, hj⟩, ?_⟩)
          have hsame' : s.deliveryNumber = state.deliveryNumber := (hsame.trans hnumber).trans hrow.1
          have hdates' : s.departureDate = e.localDate state.departureAt := hdates.trans hday
          simp [isDepartureOf, hsame', hdates']
      · obtain ⟨hnumber, hday, hstatus⟩ := evaluate_frame e row state stats
        exact ⟨h.set_same hi hnumber hday (fun _ => hrow.2) ((h.rowOk i row hi).evaluate e state _) _, keeps_set hi hrow.2 _⟩

theorem apply_inv {board : Board} (h : Inv board) (states : List DeliveryState) :
    Inv (apply e states board).1 ∧ Keeps board (apply e states board).1 := by
  have hrun : ∀ acc : Board × ApplyStats, Inv acc.1 →
      Inv (states.foldl (applyState e) acc).1 ∧ Keeps acc.1 (states.foldl (applyState e) acc).1 := by
    induction states with
    | nil => exact fun acc hacc => ⟨hacc, Keeps.refl _⟩
    | cons state states ih =>
      intro acc hacc
      obtain ⟨hinv, hkeeps⟩ := applyState_inv e hacc state
      obtain ⟨hinv', hkeeps'⟩ := ih (applyState e acc state) hinv
      exact ⟨hinv', hkeeps.trans hkeeps'⟩
  exact hrun (board, {}) h

end Apply

/-! ## §5. Closing. -/

section Closing

/-- A way to close a row: it becomes closed, of the same departure, with its columns in order. -/
structure Closes (close : DeliveryRow → DeliveryRow × List CheckEntry) : Prop where
  deliveryNumber : ∀ row, (close row).1.deliveryNumber = row.deliveryNumber
  departureDate : ∀ row, (close row).1.departureDate = row.departureDate
  status : ∀ row, (close row).1.status = .closed
  rowOk : ∀ row, RowOk row → RowOk (close row).1

theorem closes_closeRow (c : Closing) : Closes (closeRow c) := by
  -- the row whose tier is written: with fresh progress, or as it is
  have hfresh : ∀ row : DeliveryRow, ∃ row' : DeliveryRow, row'.deliveryNumber = row.deliveryNumber ∧
      row'.departureDate = row.departureDate ∧ (RowOk row → RowOk row') ∧ ∃ tier minutes clock lead outcome,
        closeRow c row = ({ (writeTier row' tier c.now minutes clock {}).1 with
          status := .closed, closedAt := some c.now, outcome := some outcome, outcomeLeadMin := lead,
          lastEvaluatedAt := c.now }, (writeTier row' tier c.now minutes clock {}).2.1) := by
    intro row
    unfold closeRow
    cases c.states row.deliveryNumber with
    | none => exact ⟨row, rfl, rfl, id, _, _, _, _, _, rfl⟩
    | some state =>
      by_cases hdate : c.localDate state.departureAt = row.departureDate
      · simp only [if_pos hdate]
        exact ⟨writeProgress row state, rfl, rfl,
          fun h => { h with }, _, _, _, _, _, rfl⟩
      · simp only [if_neg hdate]
        exact ⟨row, rfl, rfl, id, _, _, _, _, _, rfl⟩
  constructor
  · intro row
    obtain ⟨row', hnumber, -, -, tier, minutes, clock, lead, outcome, heq⟩ := hfresh row
    rw [heq]
    exact (writeTier_frame row' tier c.now minutes clock {}).1.trans hnumber
  · intro row
    obtain ⟨row', -, hday, -, tier, minutes, clock, lead, outcome, heq⟩ := hfresh row
    rw [heq]
    exact (writeTier_frame row' tier c.now minutes clock {}).2.1.trans hday
  · intro row
    obtain ⟨row', -, -, -, tier, minutes, clock, lead, outcome, heq⟩ := hfresh row
    rw [heq]
  · intro row hok
    obtain ⟨row', -, -, hok', tier, minutes, clock, lead, outcome, heq⟩ := hfresh row
    rw [heq]
    have h := (hok' hok).writeTier tier c.now minutes clock {}
    exact { h with }

theorem closes_sweepRow (now : Instant) : Closes fun row => (sweepRow now row, []) where
  deliveryNumber _ := rfl
  departureDate _ := rfl
  status _ := rfl
  rowOk _ h := { h with }

variable {close : DeliveryRow → DeliveryRow × List CheckEntry} {now : Instant} {after : Duration}

/-- One row of the loop, if it is open. -/
theorem closeAt_inv (hc : Closes close) {board : Board} (h : Inv board) {i : ℕ}
    (hi : ∀ row, board.rows[i]? = some row → row.status = .open_) :
    Inv (closeAt now after close board i) ∧ Keeps board (closeAt now after close board i) := by
  unfold closeAt
  split
  · exact ⟨h, Keeps.refl board⟩
  · next row hrow =>
    split
    · exact ⟨h, Keeps.refl board⟩
    · exact ⟨h.set_same hrow (hc.deliveryNumber row) (hc.departureDate row) (fun _ => hi row hrow)
        (hc.rowOk row (h.rowOk i row hrow)) _, keeps_set hrow (hi row hrow) _⟩

/-- The other rows stay. -/
theorem closeAt_rows (board : Board) {i j : ℕ} (hne : i ≠ j) :
    (closeAt now after close board i).rows[j]? = board.rows[j]? := by
  unfold closeAt
  split
  · rfl
  · split
    · rfl
    · exact List.getElem?_set_ne hne

theorem mem_openRows {rows : List DeliveryRow} {i : ℕ} (h : i ∈ openRows rows) :
    ∃ row, rows[i]? = some row ∧ row.status = .open_ := by
  obtain ⟨⟨row, j⟩, hmem, rfl⟩ := List.mem_map.mp (List.mem_of_mem_take h)
  have hmem' := (List.perm_insertionSort _ _).mem_iff.mp hmem
  obtain ⟨hz, hopen⟩ := List.mem_filter.mp hmem'
  exact ⟨row, List.mem_zipIdx_iff_getElem?.mp hz, by simpa using hopen⟩

theorem openRows_nodup (rows : List DeliveryRow) : (openRows rows).Nodup := by
  have hzip : (rows.zipIdx.map Prod.snd).Nodup := by
    rw [List.zipIdx_map_snd]
    exact List.nodup_range'
  refine List.Nodup.sublist (List.take_sublist _ _) ?_
  refine (((List.perm_insertionSort _ _).map Prod.snd).nodup_iff).mpr ?_
  exact hzip.sublist (List.Sublist.map _ List.filter_sublist)

/-- A loop over rows that are open when it begins, each of them once. -/
theorem closeLoop_inv (hc : Closes close) (is : List ℕ) (hnodup : is.Nodup) {board : Board} (h : Inv board)
    (hopen : ∀ i ∈ is, ∀ row, board.rows[i]? = some row → row.status = .open_) :
    Inv (is.foldl (closeAt now after close) board) ∧ Keeps board (is.foldl (closeAt now after close) board) := by
  induction is generalizing board with
  | nil => exact ⟨h, Keeps.refl board⟩
  | cons i is ih =>
    obtain ⟨hnot, hnodup⟩ := List.nodup_cons.mp hnodup
    obtain ⟨hinv, hkeeps⟩ : Inv (closeAt now after close board i) ∧ Keeps board (closeAt now after close board i) :=
      closeAt_inv hc h (hopen i List.mem_cons_self)
    obtain ⟨hinv', hkeeps'⟩ := ih hnodup hinv fun j hj row hrow => by
      have hne : i ≠ j := fun hij => hnot (hij ▸ hj)
      rw [closeAt_rows board hne] at hrow
      exact hopen j (List.mem_cons_of_mem i hj) row hrow
    exact ⟨hinv', hkeeps.trans hkeeps'⟩

theorem closeOpen_inv (hc : Closes close) {board : Board} (h : Inv board) :
    Inv ((openRows board.rows).foldl (closeAt now after close) board) ∧
      Keeps board ((openRows board.rows).foldl (closeAt now after close) board) := by
  refine closeLoop_inv hc _ (openRows_nodup _) h fun i hi row hrow => ?_
  obtain ⟨row', hrow', hstatus⟩ := mem_openRows hi
  rwa [Option.some.inj (hrow.symm.trans hrow')]

end Closing

/-! ## §6. Runs. -/

theorem Work.run_inv {board : Board} (h : Inv board) (w : Work) : Inv (w.run board) ∧ Keeps board (w.run board) := by
  cases w with
  | apply e states => exact apply_inv e h states
  | closeDue c => exact closeOpen_inv (closes_closeRow c) h
  | sweep now olderThan => exact closeOpen_inv (closes_sweepRow now) h

theorem mark_inv {board : Board} (h : Inv board) (number : String) (date : Option Day) (action : CheckAction)
    (now : Instant) : Inv (mark number date action now board) := by
  unfold mark
  split
  · exact h
  · next i _ =>
    split
    · exact h
    · next row hi =>
      have hok := h.rowOk i row hi
      have hset : ∀ (checkedAt : Option Instant) (checkedTier : Option Tier) (checks : List CheckEntry),
          Inv ⟨board.rows.set i { row with checkedAt := checkedAt, checkedTier := checkedTier }, checks⟩ := by
        intro checkedAt checkedTier checks
        refine h.set_same hi ?_ ?_ ?_ ?_ checks
        · rfl
        · rfl
        · exact id
        · exact ⟨hok.tier, hok.maxTier_le, hok.maxTier_mem, hok.firstFlaggedAt, hok.firstFlaggedTier⟩
      cases action with
      | checked => exact hset (some now) (some row.tier) _
      | unchecked => exact hset none none _
      | reopened => exact hset none none _

theorem Step.run_inv {board : Board} (h : Inv board) (s : Step) : Inv (s.run board) := by
  cases s with
  | work w => exact (w.run_inv h).1
  | check number date now => exact mark_inv h number date .checked now
  | uncheck number date now => exact mark_inv h number date .unchecked now

theorem run_inv (steps : List Step) {board : Board} (h : Inv board) : Inv (steps.foldl Step.run board) := by
  induction steps generalizing board with
  | nil => exact h
  | cons s steps ih => exact ih (s.run_inv h)

theorem work_inv (work : List Work) {board : Board} (h : Inv board) :
    Inv (work.foldl Work.run board) ∧ Keeps board (work.foldl Work.run board) := by
  induction work generalizing board with
  | nil => exact ⟨h, Keeps.refl board⟩
  | cons w work ih =>
    obtain ⟨hinv, hkeeps⟩ := w.run_inv h
    obtain ⟨hinv', hkeeps'⟩ := ih hinv
    exact ⟨hinv', hkeeps.trans hkeeps'⟩

/-- **Over every run of the worker, and of people who check rows in between**, the board is in order: of a
delivery one row at most is open and one at most is of a departure, and the tiers of a row are those of its
history.  What is closed at some point of it the worker never changes again. -/
theorem board_invariants (before : List Step) (later : List Work) :
    Inv (before.foldl Step.run {}) ∧ Inv (later.foldl Work.run (before.foldl Step.run {})) ∧
      Keeps (before.foldl Step.run {}) (later.foldl Work.run (before.foldl Step.run {})) ∧
      ∀ row ∈ (before.foldl Step.run {}).rows,
        (row.firstFlaggedAt.isSome ↔ ∃ entry ∈ row.tierHistory, entry.tier ≠ .none) := by
  have hbefore := run_inv before inv_empty
  have hlater := work_inv later hbefore
  refine ⟨hbefore, hlater.1, hlater.2, fun row hrow => ?_⟩
  obtain ⟨i, hi⟩ := List.mem_iff_getElem?.mp hrow
  exact (hbefore.rowOk i row hi).flagged_iff

end RagPipeline.AtRisk
