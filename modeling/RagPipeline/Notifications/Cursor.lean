/-
  RagPipeline.Notifications.Cursor — reading `log_transactions` from a bookmark.

  A rule's cursor is an instant of `updated_at`.  A read takes the rules of one customer together, from
  the OLDEST of their cursors to a horizon behind the present, a page at a time and oldest first; each
  rule keeps what is not behind its own cursor, and moves forward.

    * `readWindowForGroup`, `advance`, `advanceRule` — the arithmetic;
    * `IsPage`                — what the SELECT may return: rows with one stamp come in any order;
    * `inv_step`, `inv_run`   — the rows between the start and the cursor have been returned;
    * `cursor_skips_nothing`  — hence no version is skipped, no cursor goes back, and reading goes on
                                until the horizon is reached.
-/
import Mathlib.Data.List.Basic
import Mathlib.Order.MinMax
import RagPipeline.Stage2.Entry

namespace RagPipeline.Notifications

open RagPipeline.Stage2

/-! ## §1. The arithmetic of the cursor. -/

/-- `Window`: from `lo` on, before `hi`. -/
structure Window where
  lo : Instant
  hi : Instant
  deriving DecidableEq, Repr

/-- `notification_cursor_lag_seconds`, `notification_lookback_seconds`. -/
structure CursorSettings where
  lag : Duration := 60 * second
  lookback : Duration := 3600 * second

/-- `_TICK`. -/
def microsecond : Duration := 1

/-- `cursor if cursor is not None else now - lookback`. -/
def CursorSettings.resolve (c : CursorSettings) (now : Instant) (cursor : Option Instant) : Instant :=
  cursor.getD (now - c.lookback)

/-- `read_window`. -/
def readWindow (c : CursorSettings) (now : Instant) (cursor : Option Instant) : Option Window :=
  if c.resolve now cursor < now - c.lag then some ⟨c.resolve now cursor, now - c.lag⟩ else none

/-- `read_window_for_group`. -/
def readWindowForGroup (c : CursorSettings) (now : Instant) (cursors : List (Option Instant)) :
    Option Window :=
  (cursors.map (c.resolve now)).min?.bind fun lo => readWindow c now (some lo)

/-- `is_after`. -/
def isAfter (updatedAt : Instant) (cursor : Option Instant) : Bool :=
  cursor.all fun position => decide (position ≤ updatedAt)

/-- `advance`. -/
def advance (window : Window) (rowsRead limit : ℕ) : Option Instant → Instant
  | none => window.hi
  | some newestSeen =>
      if rowsRead < limit then window.hi
      else if window.lo < newestSeen then newestSeen
      else window.lo + microsecond

/-- `_forward_only`. -/
def forwardOnly (current : Option Instant) (proposed : Instant) : Instant :=
  match current with
  | none => proposed
  | some position => max position proposed

/-- A row version: the transaction, the stamp of the write, and the rest of the row. -/
structure Version (γ : Type) where
  id : ℕ
  updatedAt : Instant
  content : γ
  deriving DecidableEq

section Feed

variable {γ : Type}

/-- `_newest`. -/
def newest (rows : List (Version γ)) : Option Instant := (rows.map Version.updatedAt).max?

/-- `advance_rule`. -/
def advanceRule (window : Window) (rows : List (Version γ)) (limit : ℕ) (cursor : Option Instant) :
    Instant :=
  forwardOnly cursor (advance window rows.length limit (newest rows))

/-- The WHERE clause of `window_stmt`, with the reader's own criteria. -/
def inWindow (extra : Version γ → Bool) (window : Window) (v : Version γ) : Bool :=
  decide (window.lo ≤ v.updatedAt ∧ v.updatedAt < window.hi) && extra v

/-- **`window_stmt`**: the rows of the window by `updated_at`, and no more than `limit`. -/
def IsPage (extra : Version γ → Bool) (window : Window) (limit : ℕ) (table rows : List (Version γ)) :
    Prop :=
  ∃ ordered : List (Version γ), ordered.Perm (table.filter (inWindow extra window)) ∧
    ordered.Pairwise (fun v v' => v.updatedAt ≤ v'.updatedAt) ∧ rows = ordered.take limit

/-! ## §2. The feed. -/

/-- `NotificationRule.id`. -/
abbrev RuleId := ℕ

/-- The table and the cursors of a customer's rules, and beside them the history: all versions committed,
    where each rule began, what was returned to it, and the latest horizon read to. -/
structure Feed (γ : Type) where
  table : List (Version γ)
  committed : List (Version γ)
  cursors : RuleId → Option Instant
  started : RuleId → Option Instant
  returned : RuleId → List (Version γ) := fun _ => []
  horizon : Option Instant := none

/-- An insert or an update, committed. -/
def Feed.commit (s : Feed γ) (v : Version γ) : Feed γ :=
  { s with
    table := s.table.filter (fun w => decide (w.id ≠ v.id)) ++ [v]
    committed := s.committed ++ [v] }

/-- A read of a page for some rules. -/
def Feed.read (s : Feed γ) (c : CursorSettings) (rules : List RuleId) (now : Instant) (limit : ℕ)
    (window : Window) (rows : List (Version γ)) : Feed γ :=
  { s with
    cursors := fun r =>
      if r ∈ rules then some (advanceRule window rows limit (s.cursors r)) else s.cursors r
    started := fun r => if r ∈ rules then some ((s.started r).getD (c.resolve now none)) else s.started r
    returned := fun r =>
      if r ∈ rules then s.returned r ++ rows.filter (fun v => isAfter v.updatedAt (s.cursors r))
      else s.returned r
    horizon := some (s.horizon.elim window.hi (max window.hi)) }

variable (c : CursorSettings) (extra : Version γ → Bool)

/-- A read of the feed for some rules, over a window that is there, with a page limit above the number of
    rows that share a stamp. -/
def Feed.Reads (s : Feed γ) (rules : List RuleId) (now : Instant) (s' : Feed γ) : Prop :=
  ∃ limit window rows, readWindowForGroup c now (rules.map s.cursors) = some window ∧
    IsPage extra window limit s.table rows ∧
    (∀ t, (s.table.filter fun v => decide (v.updatedAt = t)).length < limit) ∧
    s' = s.read c rules now limit window rows

/-- **One step of the feed.** -/
inductive Step : Feed γ → Feed γ → Prop
  /-- a write stamps a new `updated_at`, above every horizon read to so far -/
  | commit (s : Feed γ) (v : Version γ)
      (stamped : ∀ w ∈ s.committed, w.id = v.id → w.updatedAt < v.updatedAt)
      (settled : ∀ horizon, s.horizon = some horizon → horizon < v.updatedAt) : Step s (s.commit v)
  | read {s s' : Feed γ} (rules : List RuleId) (now : Instant) (reads : s.Reads c extra rules now s') :
      Step s s'

/-- Any number of steps. -/
abbrev Reach : Feed γ → Feed γ → Prop := Relation.ReflTransGen (Step c extra)

/-- A feed that nothing has been read of: one version of each row, and rules that begin at their
    cursors. -/
structure Feed.Start (s : Feed γ) : Prop where
  one : (s.table.map Version.id).Nodup
  all : s.committed = s.table
  begin : s.started = s.cursors
  unread : ∀ r, s.returned r = []
  fresh : s.horizon = none

/-! ## §3. A page. -/

variable {c extra}

theorem readWindow_spec {now : Instant} {cursor : Option Instant} {window : Window}
    (h : readWindow c now cursor = some window) :
    window.lo = c.resolve now cursor ∧ window.hi = now - c.lag ∧ window.lo < window.hi := by
  unfold readWindow at h
  split at h
  · next hlt =>
    obtain rfl := Option.some.inj h
    exact ⟨rfl, rfl, hlt⟩
  · exact absurd h (by simp)

/-- The window of a group begins at the oldest of its cursors. -/
theorem readWindowForGroup_spec {now : Instant} {cursors : List (Option Instant)} {window : Window}
    (h : readWindowForGroup c now cursors = some window) :
    (∀ cursor ∈ cursors, window.lo ≤ c.resolve now cursor) ∧
      (∃ cursor ∈ cursors, window.lo = c.resolve now cursor) ∧ window.lo < window.hi := by
  obtain ⟨lo, hlo, hwindow⟩ := Option.bind_eq_some_iff.mp h
  obtain ⟨hmem, hle⟩ := List.min?_eq_some_iff.mp hlo
  obtain ⟨heq, -, hlt⟩ := readWindow_spec hwindow
  have hlo' : window.lo = lo := heq
  rw [hlo']
  refine ⟨?_, ?_, hlo' ▸ hlt⟩
  · intro cursor hcursor
    exact hle _ (List.mem_map_of_mem hcursor)
  · obtain ⟨cursor, hcursor, rfl⟩ := List.mem_map.mp hmem
    exact ⟨cursor, hcursor, rfl⟩

/-- The rows of a page are rows of the window. -/
theorem IsPage.mem {window : Window} {limit : ℕ} {table rows : List (Version γ)}
    (h : IsPage extra window limit table rows) {v : Version γ} (hv : v ∈ rows) :
    v ∈ table ∧ inWindow extra window v = true := by
  obtain ⟨ordered, hperm, -, rfl⟩ := h
  exact List.mem_filter.mp (hperm.mem_iff.mp (List.mem_of_mem_take hv))

/-- A page that is not full has all rows of the window. -/
theorem IsPage.all {window : Window} {limit : ℕ} {table rows : List (Version γ)}
    (h : IsPage extra window limit table rows) (hshort : rows.length < limit) {v : Version γ}
    (hv : v ∈ table) (hin : inWindow extra window v = true) : v ∈ rows := by
  obtain ⟨ordered, hperm, -, rfl⟩ := h
  have hall : ordered.take limit = ordered := by
    rw [List.length_take] at hshort
    exact List.take_of_length_le (by omega)
  rw [hall, hperm.mem_iff]
  exact List.mem_filter.mpr ⟨hv, hin⟩

/-- A page has all rows of the window that are older than its newest one. -/
theorem IsPage.prefix {window : Window} {limit : ℕ} {table rows : List (Version γ)}
    (h : IsPage extra window limit table rows) {n : Instant} (hn : newest rows = some n) {v : Version γ}
    (hv : v ∈ table) (hin : inWindow extra window v = true) (hlt : v.updatedAt < n) : v ∈ rows := by
  obtain ⟨ordered, hperm, hsorted, rfl⟩ := h
  have hmem : v ∈ ordered := hperm.mem_iff.mpr (List.mem_filter.mpr ⟨hv, hin⟩)
  rw [← List.take_append_drop limit ordered] at hmem hsorted
  rcases List.mem_append.mp hmem with htake | hdrop
  · exact htake
  · -- what is not on the page is not older than anything on it
    obtain ⟨newestRow, hrow, rfl⟩ := List.mem_map.mp (List.max?_eq_some_iff.mp hn).1
    have hle := (List.pairwise_append.mp hsorted).2.2 newestRow hrow v hdrop
    exact absurd hle (not_le.mpr hlt)

/-- Of a full page the newest row is not at the lower end, when too few rows share its stamp. -/
theorem IsPage.lo_lt_newest {window : Window} {limit : ℕ} {table rows : List (Version γ)}
    (h : IsPage extra window limit table rows)
    (hties : (table.filter fun v => decide (v.updatedAt = window.lo)).length < limit)
    (hfull : limit ≤ rows.length) {n : Instant} (hn : newest rows = some n) : window.lo < n := by
  by_contra hnot
  have hstamp : ∀ v ∈ rows, v.updatedAt = window.lo := by
    intro v hv
    have hle : v.updatedAt ≤ n := (List.max?_eq_some_iff.mp hn).2 _ (List.mem_map_of_mem hv)
    have hin := (h.mem hv).2
    have hlo := (of_decide_eq_true (Bool.and_eq_true_iff.mp hin).1).1
    exact le_antisymm (hle.trans (not_lt.mp hnot)) hlo
  obtain ⟨ordered, hperm, -, rfl⟩ := h
  have hcount : (ordered.take limit).length ≤
      (table.filter fun v => decide (v.updatedAt = window.lo)).length := by
    calc (ordered.take limit).length
        = ((ordered.take limit).filter fun v => decide (v.updatedAt = window.lo)).length := by
          rw [List.filter_eq_self.mpr fun v hv => decide_eq_true (hstamp v hv)]
      _ ≤ (ordered.filter fun v => decide (v.updatedAt = window.lo)).length :=
          ((List.take_sublist limit ordered).filter _).length_le
      _ = ((table.filter (inWindow extra window)).filter fun v =>
            decide (v.updatedAt = window.lo)).length := (hperm.filter _).length_eq
      _ ≤ (table.filter fun v => decide (v.updatedAt = window.lo)).length :=
          (List.filter_sublist.filter _).length_le
  omega

/-- **Where a read ends**: past the lower end, not past the horizon, and with nothing left behind it. -/
theorem advance_spec {window : Window} {limit : ℕ} {table rows : List (Version γ)}
    (h : IsPage extra window limit table rows)
    (hties : ∀ t, (table.filter fun v => decide (v.updatedAt = t)).length < limit)
    (hwindow : window.lo < window.hi) :
    window.lo < advance window rows.length limit (newest rows) ∧
      advance window rows.length limit (newest rows) ≤ window.hi ∧
      (∀ v ∈ table, inWindow extra window v = true →
        v.updatedAt < advance window rows.length limit (newest rows) → v ∈ rows) ∧
      (advance window rows.length limit (newest rows) = window.hi ∨
        ∃ v ∈ table, v.updatedAt = advance window rows.length limit (newest rows)) := by
  have hpos : 0 < limit := (Nat.zero_le _).trans_lt (hties 0)
  by_cases hshort : rows.length < limit
  · have heq : advance window rows.length limit (newest rows) = window.hi := by
      cases newest rows with
      | none => rfl
      | some n => simp only [advance, if_pos hshort]
    rw [heq]
    exact ⟨hwindow, le_rfl, fun v hv hin _ => h.all hshort hv hin, Or.inl rfl⟩
  · cases hn : newest rows with
    | none =>
      have hnil : rows = [] := List.map_eq_nil_iff.mp (List.max?_eq_none_iff.mp hn)
      rw [hnil] at hshort
      exact absurd hpos hshort
    | some n =>
      -- a full page cannot be all of one stamp, so the newest is past the lower end
      have hlt := h.lo_lt_newest (hties _) (not_lt.mp hshort) hn
      have heq : advance window rows.length limit (some n) = n := by
        simp only [advance, if_neg hshort, if_pos hlt]
      obtain ⟨newestRow, hrow, hstamp⟩ := List.mem_map.mp (List.max?_eq_some_iff.mp hn).1
      obtain ⟨htable, hin⟩ := h.mem hrow
      have hhi := (of_decide_eq_true (Bool.and_eq_true_iff.mp hin).1).2
      rw [heq]
      refine ⟨hlt, ?_, ?_, Or.inr ⟨newestRow, htable, hstamp⟩⟩
      · exact hstamp ▸ hhi.le
      · intro v hv hin hlt
        exact h.prefix hn hv hin hlt

/-! ## §4. What is behind a cursor has been returned. -/

/-- `w` is a later version of the row of `v`. -/
def Feed.Supersedes (s : Feed γ) (w v : Version γ) : Prop :=
  w.id = v.id ∧ v.updatedAt < w.updatedAt ∧
    ∃ before after, s.committed = before ++ v :: after ∧ w ∈ after

variable (extra) in
/-- The invariant of the feed. -/
structure Inv (s : Feed γ) : Prop where
  /-- a rule has begun when it has a cursor -/
  begun : ∀ r, (s.started r).isSome = (s.cursors r).isSome
  /-- a cursor has not moved, or has been moved within a horizon -/
  behind : ∀ r p b, s.cursors r = some p → s.started r = some b →
    p ≤ b ∨ ∃ horizon, s.horizon = some horizon ∧ p ≤ horizon
  /-- the rows between the start and the cursor have been returned -/
  seen : ∀ r p b, s.cursors r = some p → s.started r = some b → ∀ v ∈ s.table, b ≤ v.updatedAt →
    v.updatedAt < p → extra v = true → v ∈ s.returned r
  /-- the table has the last version of each row -/
  kept : ∀ v ∈ s.committed, v ∈ s.table ∨ ∃ w ∈ s.table, s.Supersedes w v

theorem inv_start {s : Feed γ} (h : s.Start) : Inv extra s := by
  constructor
  · intro r
    rw [h.begin]
  · intro r p b hp hb
    rw [h.begin, hp] at hb
    exact Or.inl (Option.some.inj hb).le
  · intro r p b hp hb v _ hlo hhi _
    rw [h.begin, hp] at hb
    obtain rfl := Option.some.inj hb
    exact absurd hlo (not_le.mpr hhi)
  · intro v hv
    exact Or.inl (h.all ▸ hv)

/-- A write keeps the invariant. -/
theorem inv_commit {s : Feed γ} (h : Inv extra s) {v : Version γ}
    (stamped : ∀ w ∈ s.committed, w.id = v.id → w.updatedAt < v.updatedAt)
    (settled : ∀ horizon, s.horizon = some horizon → horizon < v.updatedAt) :
    Inv extra (s.commit v) := by
  have hlater : ∀ {w : Version γ}, w ∈ s.committed → w.id = v.id → (s.commit v).Supersedes v w := by
    intro w hw hid
    obtain ⟨before, after, heq⟩ := List.append_of_mem hw
    refine ⟨hid.symm, stamped w hw hid, before, after ++ [v], ?_, by simp⟩
    simp [Feed.commit, heq]
  -- the log only grows, so what was superseded stays superseded
  have hstill : ∀ {w u : Version γ}, s.Supersedes w u → (s.commit v).Supersedes w u := by
    rintro w u ⟨hid, hlt, before, after, heq, hmem⟩
    refine ⟨hid, hlt, before, after ++ [v], ?_, List.mem_append_left _ hmem⟩
    simp [Feed.commit, heq]
  have hkeep : ∀ {w : Version γ}, w ∈ s.table → w.id ≠ v.id → w ∈ (s.commit v).table := by
    intro w hw hid
    exact List.mem_append_left _ (List.mem_filter.mpr ⟨hw, decide_eq_true hid⟩)
  have hnew : v ∈ (s.commit v).table := List.mem_append_right _ (List.mem_singleton.mpr rfl)
  constructor
  · exact h.begun
  · exact h.behind
  · intro r p b hp hb u hu hlo hhi hextra
    rcases List.mem_append.mp hu with hold | hmem
    · exact h.seen r p b hp hb u (List.mem_filter.mp hold).1 hlo hhi hextra
    · -- the new version is ahead of every cursor
      obtain rfl := List.mem_singleton.mp hmem
      rcases h.behind r p b hp hb with hpb | ⟨horizon, hhorizon, hph⟩
      · exact absurd (hlo.trans_lt hhi) (not_lt.mpr hpb)
      · exact absurd (hhi.trans_le hph) (not_lt.mpr (settled horizon hhorizon).le)
  · intro u hu
    rcases List.mem_append.mp hu with hold | hmem
    · by_cases hid : u.id = v.id
      · exact Or.inr ⟨v, hnew, hlater hold hid⟩
      · rcases h.kept u hold with htable | ⟨w, hw, hsup⟩
        · exact Or.inl (hkeep htable hid)
        · exact Or.inr ⟨w, hkeep hw (hsup.1 ▸ hid), hstill hsup⟩
    · obtain rfl := List.mem_singleton.mp hmem
      exact Or.inl hnew

/-- What a read does to a rule of its group. -/
theorem read_of_mem {s : Feed γ} {rules : List RuleId} {now : Instant} {limit : ℕ} {window : Window}
    {rows : List (Version γ)} {r : RuleId} (hr : r ∈ rules) :
    let s' := s.read c rules now limit window rows
    s'.cursors r = some (forwardOnly (s.cursors r) (advance window rows.length limit (newest rows))) ∧
      s'.started r = some ((s.started r).getD (c.resolve now none)) ∧
      s'.returned r = s.returned r ++ rows.filter (fun v => isAfter v.updatedAt (s.cursors r)) := by
  simp only [Feed.read, if_pos hr, advanceRule, and_self]

/-- And to another one: nothing. -/
theorem read_of_not_mem {s : Feed γ} {rules : List RuleId} {now : Instant} {limit : ℕ} {window : Window}
    {rows : List (Version γ)} {r : RuleId} (hr : r ∉ rules) :
    let s' := s.read c rules now limit window rows
    s'.cursors r = s.cursors r ∧ s'.started r = s.started r ∧ s'.returned r = s.returned r := by
  simp only [Feed.read, if_neg hr, and_self]

/-- The horizon is at the end of the window, and does not go back. -/
theorem read_horizon (s : Feed γ) (c : CursorSettings) (rules : List RuleId) (now : Instant) (limit : ℕ)
    (window : Window) (rows : List (Version γ)) :
    ∃ horizon, (s.read c rules now limit window rows).horizon = some horizon ∧ window.hi ≤ horizon ∧
      ∀ old, s.horizon = some old → old ≤ horizon := by
  refine ⟨_, rfl, ?_, ?_⟩
  · cases s.horizon with
    | none => exact le_rfl
    | some old => exact le_max_left _ _
  · intro old hold
    rw [hold]
    exact le_max_right _ _

theorem Inv.started_none {s : Feed γ} (h : Inv extra s) {r : RuleId} (hold : s.cursors r = none) :
    s.started r = none := by
  have hbegun := h.begun r
  rw [hold] at hbegun
  exact Option.not_isSome_iff_eq_none.mp (by rw [hbegun]; exact Bool.false_ne_true)

theorem Inv.started_some {s : Feed γ} (h : Inv extra s) {r : RuleId} {old : Instant}
    (hold : s.cursors r = some old) : ∃ b, s.started r = some b :=
  Option.isSome_iff_exists.mp ((h.begun r).trans (by rw [hold]; rfl))

/-- A read keeps the invariant. -/
theorem inv_read {s s' : Feed γ} (h : Inv extra s) {rules : List RuleId} {now : Instant}
    (hreads : s.Reads c extra rules now s') : Inv extra s' := by
  obtain ⟨limit, window, rows, hwindow, hpage, hties, rfl⟩ := hreads
  obtain ⟨hlo, -, hlt⟩ := readWindowForGroup_spec hwindow
  obtain ⟨-, hhi, hall, -⟩ := advance_spec hpage hties hlt
  obtain ⟨horizon, hnow, hhorizon, hgrows⟩ := read_horizon s c rules now limit window rows
  have hgroup := fun {r} => @read_of_mem γ c s rules now limit window rows r
  have hothers := fun {r} => @read_of_not_mem γ c s rules now limit window rows r
  generalize advance window rows.length limit (newest rows) = moved at hhi hall hgroup
  constructor
  · intro r
    by_cases hr : r ∈ rules
    · rw [(hgroup hr).1, (hgroup hr).2.1]
      rfl
    · rw [(hothers hr).1, (hothers hr).2.1]
      exact h.begun r
  · intro r p b hp hb
    by_cases hr : r ∈ rules
    · rw [(hgroup hr).1] at hp
      rw [(hgroup hr).2.1] at hb
      obtain rfl := Option.some.inj hp
      have hmovedle : moved ≤ horizon := hhi.trans hhorizon
      cases hold : s.cursors r with
      | none => exact Or.inr ⟨horizon, hnow, hmovedle⟩
      | some old =>
        obtain ⟨b', hb'⟩ := h.started_some hold
        rw [hb'] at hb
        obtain rfl := Option.some.inj hb
        rcases le_total old moved with hle | hle
        · exact Or.inr ⟨horizon, hnow, (max_eq_right hle).le.trans hmovedle⟩
        · have hsame : forwardOnly (some old) moved = old := max_eq_left hle
          rw [hsame]
          rcases h.behind r old b' hold hb' with hpb | ⟨horizon', hh, hph⟩
          · exact Or.inl hpb
          · exact Or.inr ⟨horizon, hnow, hph.trans (hgrows _ hh)⟩
    · rw [(hothers hr).1] at hp
      rw [(hothers hr).2.1] at hb
      rcases h.behind r p b hp hb with hpb | ⟨horizon', hh, hph⟩
      · exact Or.inl hpb
      · exact Or.inr ⟨horizon, hnow, hph.trans (hgrows _ hh)⟩
  · intro r p b hp hb v hv hlow hhigh hextra
    by_cases hr : r ∈ rules
    · rw [(hgroup hr).1] at hp
      rw [(hgroup hr).2.1] at hb
      rw [(hgroup hr).2.2]
      obtain rfl := Option.some.inj hp
      -- a row from the cursor on is on the page
      have hpageRow : window.lo ≤ v.updatedAt → v.updatedAt < moved →
          isAfter v.updatedAt (s.cursors r) = true →
          v ∈ s.returned r ++ rows.filter (fun v => isAfter v.updatedAt (s.cursors r)) := by
        intro hlo' hhi' hafter
        have hin : inWindow extra window v = true := by
          simp only [inWindow, hextra, Bool.and_true, decide_eq_true_eq]
          exact ⟨hlo', hhi'.trans_le hhi⟩
        exact List.mem_append_right _ (List.mem_filter.mpr ⟨hall v hv hin hhi', hafter⟩)
      have hlor := hlo _ (List.mem_map_of_mem hr)
      cases hold : s.cursors r with
      | none =>
        rw [h.started_none hold] at hb
        obtain rfl := Option.some.inj hb
        rw [hold] at hhigh hlor
        rw [hold] at hpageRow
        exact hpageRow (hlor.trans hlow) hhigh rfl
      | some old =>
        obtain ⟨b', hb'⟩ := h.started_some hold
        rw [hb'] at hb
        obtain rfl := Option.some.inj hb
        rw [hold] at hhigh hlor
        rw [hold] at hpageRow
        by_cases hbefore : v.updatedAt < old
        · exact List.mem_append_left _ (h.seen r old b' hold hb' v hv hlow hbefore hextra)
        · have hfrom : old ≤ v.updatedAt := not_lt.mp hbefore
          have hmovedhi : v.updatedAt < moved := by
            rcases lt_max_iff.mp hhigh with hlt' | hlt'
            · exact absurd hlt' hbefore
            · exact hlt'
          exact hpageRow (hlor.trans hfrom) hmovedhi (decide_eq_true hfrom)
    · rw [(hothers hr).1] at hp
      rw [(hothers hr).2.1] at hb
      rw [(hothers hr).2.2]
      exact h.seen r p b hp hb v hv hlow hhigh hextra
  · exact h.kept

/-- **Every step keeps the invariant.** -/
theorem inv_step {s s' : Feed γ} (h : Inv extra s) (hstep : Step c extra s s') : Inv extra s' := by
  cases hstep with
  | commit v stamped settled => exact inv_commit h stamped settled
  | read rules now reads => exact inv_read h reads

theorem inv_run {s s' : Feed γ} (h : Inv extra s) (hreach : Reach c extra s s') : Inv extra s' := by
  induction hreach with
  | refl => exact h
  | tail _ hstep ih => exact inv_step ih hstep

/-! ## §5. Cursors move forward, up to the horizon. -/

/-- A read moves no cursor back. -/
theorem reads_forward {s s' : Feed γ} {rules : List RuleId} {now : Instant}
    (hreads : s.Reads c extra rules now s') {r : RuleId} {p : Instant} (hp : s.cursors r = some p) :
    ∃ p', s'.cursors r = some p' ∧ p ≤ p' := by
  obtain ⟨limit, window, rows, -, -, -, rfl⟩ := hreads
  by_cases hr : r ∈ rules
  · refine ⟨advanceRule window rows limit (s.cursors r), by simp only [Feed.read, if_pos hr], ?_⟩
    rw [hp]
    exact le_max_left _ _
  · exact ⟨p, by simp only [Feed.read, if_neg hr, hp], le_rfl⟩

/-- **No cursor goes back.** -/
theorem cursors_forward {s s' : Feed γ} (hreach : Reach c extra s s') {r : RuleId} {p : Instant}
    (hp : s.cursors r = some p) : ∃ p', s'.cursors r = some p' ∧ p ≤ p' := by
  induction hreach with
  | refl => exact ⟨p, hp, le_rfl⟩
  | tail _ hstep ih =>
    obtain ⟨p₁, hp₁, hle⟩ := ih
    cases hstep with
    | commit v => exact ⟨p₁, hp₁, hle⟩
    | read rules now reads =>
      obtain ⟨p₂, hp₂, hle₂⟩ := reads_forward reads hp₁
      exact ⟨p₂, hp₂, hle.trans hle₂⟩

/-- A tick for some rules at a horizon of at least `t`: a read, or nothing where there is no window. -/
def Feed.Tick (s : Feed γ) (c : CursorSettings) (extra : Version γ → Bool) (rules : List RuleId)
    (t : Instant) (s' : Feed γ) : Prop :=
  ∃ now, t ≤ now - c.lag ∧ (s.Reads c extra rules now s' ∨
    readWindowForGroup c now (rules.map s.cursors) = none ∧ s' = s)

/-- Ticks in a row, with no write between them. -/
def Feed.Ticks (c : CursorSettings) (extra : Version γ → Bool) (rules : List RuleId) (t : Instant) :
    ℕ → Feed γ → Feed γ → Prop
  | 0, s, s' => s' = s
  | n + 1, s, s' => ∃ mid, s.Tick c extra rules t mid ∧ Feed.Ticks c extra rules t n mid s'

theorem ticks_forward {rules : List RuleId} {t : Instant} {n : ℕ} {s s' : Feed γ}
    (h : Feed.Ticks c extra rules t n s s') {r : RuleId} {p : Instant} (hp : s.cursors r = some p) :
    ∃ p', s'.cursors r = some p' ∧ p ≤ p' := by
  induction n generalizing s p with
  | zero =>
    obtain rfl : s' = s := h
    exact ⟨p, hp, le_rfl⟩
  | succ n ih =>
    obtain ⟨mid, ⟨now, -, hread | ⟨-, rfl⟩⟩, hrest⟩ := h
    · obtain ⟨p₁, hp₁, hle⟩ := reads_forward hread hp
      obtain ⟨p₂, hp₂, hle₂⟩ := ih hrest hp₁
      exact ⟨p₂, hp₂, hle.trans hle₂⟩
    · exact ih hrest hp

/-- Without a window every rule is at the horizon. -/
theorem at_horizon_of_none {now : Instant} {cursors : List (Option Instant)}
    (h : readWindowForGroup c now cursors = none) {p : Instant} (hp : some p ∈ cursors) :
    now - c.lag ≤ p := by
  have hmem : p ∈ cursors.map (c.resolve now) := List.mem_map.mpr ⟨some p, hp, rfl⟩
  unfold readWindowForGroup at h
  cases hmin : (cursors.map (c.resolve now)).min? with
  | none =>
    rw [List.min?_eq_none_iff.mp hmin] at hmem
    exact absurd hmem List.not_mem_nil
  | some lo =>
    rw [hmin, Option.bind_some] at h
    unfold readWindow at h
    split at h
    · exact absurd h (by simp)
    · next hnot =>
      have hlo : lo ≤ p := (List.min?_eq_some_iff.mp hmin).2 p hmem
      exact (not_lt.mp hnot).trans hlo

/-- Fewer rows are ahead of a later stamp. -/
theorem ahead_lt {table : List (Version γ)} {x y : Instant} (hlt : x < y) {v : Version γ}
    (hv : v ∈ table) (hstamp : v.updatedAt = y) :
    (table.filter fun w => decide (y < w.updatedAt)).length <
      (table.filter fun w => decide (x < w.updatedAt)).length := by
  have hsub : (table.filter fun w => decide (y < w.updatedAt)).Sublist
      (table.filter fun w => decide (x < w.updatedAt)) := by
    apply List.monotone_filter_right
    intro w hw
    exact decide_eq_true (hlt.trans (of_decide_eq_true hw))
  have hmem : v ∈ table.filter fun w => decide (x < w.updatedAt) :=
    List.mem_filter.mpr ⟨hv, decide_eq_true (hstamp ▸ hlt)⟩
  have hnot : v ∉ table.filter fun w => decide (y < w.updatedAt) := by
    intro hin
    have hself := of_decide_eq_true (List.mem_filter.mp hin).2
    exact absurd hstamp hself.ne'
  by_contra hge
  have heq := hsub.eq_of_length_le (not_lt.mp hge)
  rw [heq] at hnot
  exact hnot hmem

/-- **Reading goes on to the horizon**: with no write between, more ticks than rows ahead are enough. -/
theorem catch_up {rules : List RuleId} {t : Instant} {n : ℕ} {s s' : Feed γ} {x : Instant}
    (hhas : ∀ r ∈ rules, (s.cursors r).isSome)
    (hx : ∀ r ∈ rules, ∀ p, s.cursors r = some p → x ≤ p)
    (hn : (s.table.filter fun v => decide (x < v.updatedAt)).length < n)
    (hticks : Feed.Ticks c extra rules t n s s') :
    ∀ r ∈ rules, ∃ p, s'.cursors r = some p ∧ t ≤ p := by
  induction n generalizing s x with
  | zero => exact absurd hn (Nat.not_lt_zero _)
  | succ n ih =>
    intro r hr
    obtain ⟨p, hp⟩ := Option.isSome_iff_exists.mp (hhas r hr)
    obtain ⟨mid, ⟨now, ht, hread | ⟨hnone, rfl⟩⟩, hrest⟩ := hticks
    · obtain ⟨limit, window, rows, hwindow, hpage, hties, rfl⟩ := hread
      obtain ⟨-, ⟨cursor, hcursor, hlo⟩, hlt⟩ := readWindowForGroup_spec hwindow
      obtain ⟨hprogress, -, -, hend⟩ := advance_spec hpage hties hlt
      obtain ⟨moved, hmoved⟩ : ∃ moved, moved = advance window rows.length limit (newest rows) :=
        ⟨_, rfl⟩
      have hhi : window.hi = now - c.lag := by
        obtain ⟨lo, -, hw⟩ := Option.bind_eq_some_iff.mp hwindow
        exact (readWindow_spec hw).2.1
      rw [← hmoved] at hprogress hend
      -- every rule is moved at least there
      have hall : ∀ r' ∈ rules, ∃ p', (s.read c rules now limit window rows).cursors r' = some p' ∧
          moved ≤ p' := by
        intro r' hr'
        refine ⟨advanceRule window rows limit (s.cursors r'), by simp only [Feed.read, if_pos hr'], ?_⟩
        unfold advanceRule forwardOnly
        rw [← hmoved]
        cases s.cursors r' with
        | none => exact le_rfl
        | some old => exact le_max_right _ _
      rcases hend with heq | ⟨v, hv, hstamp⟩
      · obtain ⟨p', hp', hle⟩ := hall r hr
        obtain ⟨p'', hp'', hle'⟩ := ticks_forward hrest hp'
        refine ⟨p'', hp'', ?_⟩
        rw [heq, hhi] at hle
        exact ht.trans (hle.trans hle')
      · have hxlo : x ≤ window.lo := by
          obtain ⟨r', hr', rfl⟩ := List.mem_map.mp hcursor
          obtain ⟨p', hp'⟩ := Option.isSome_iff_exists.mp (hhas r' hr')
          rw [hlo, hp']
          exact hx r' hr' p' hp'
        have hfewer := ahead_lt (hxlo.trans_lt hprogress) hv hstamp
        refine ih ?_ ?_ (x := moved) ?_ hrest r hr
        · intro r' hr'
          obtain ⟨p', hp', -⟩ := hall r' hr'
          rw [hp']
          rfl
        · intro r' hr' p' hp'
          obtain ⟨p'', hp'', hle⟩ := hall r' hr'
          rw [hp''] at hp'
          exact Option.some.inj hp' ▸ hle
        · exact (hfewer.trans_le (Nat.lt_succ_iff.mp hn) :)
    · have hle := at_horizon_of_none hnone (p := p) (List.mem_map.mpr ⟨r, hr, hp⟩)
      obtain ⟨p', hp', hle'⟩ := ticks_forward hrest hp
      exact ⟨p', hp', ht.trans (hle.trans hle')⟩

/-- **The cursor skips nothing.**  In every run each cursor only moves forward; a version between a rule's
    start and its cursor has been returned to the rule, or is superseded by the version now in the table,
    which has been returned or is still ahead; and reading goes on to any horizon. -/
theorem cursor_skips_nothing {s₀ s : Feed γ} (hstart : s₀.Start) (hreach : Reach c extra s₀ s) :
    (∀ mid, Reach c extra s₀ mid → Reach c extra mid s → ∀ r p, mid.cursors r = some p →
      ∃ p', s.cursors r = some p' ∧ p ≤ p') ∧
    (∀ r p b, s.cursors r = some p → s.started r = some b → ∀ v ∈ s.committed, b ≤ v.updatedAt →
      v.updatedAt < p → extra v = true → v ∈ s.returned r ∨
        ∃ w ∈ s.table, s.Supersedes w v ∧
          (w.updatedAt < p → extra w = true → w ∈ s.returned r)) ∧
    (∀ rules t s', (∀ r ∈ rules, (s.cursors r).isSome) →
      Feed.Ticks c extra rules t (s.table.length + 1) s s' →
        ∀ r ∈ rules, ∃ p, s'.cursors r = some p ∧ t ≤ p) := by
  have hinv : Inv extra s := inv_run (inv_start hstart) hreach
  refine ⟨?_, ?_, ?_⟩
  · intro mid _ hrest r p hp
    exact cursors_forward hrest hp
  · intro r p b hp hb v hv hlo hhi hextra
    rcases hinv.kept v hv with htable | ⟨w, hw, hsup⟩
    · exact Or.inl (hinv.seen r p b hp hb v htable hlo hhi hextra)
    · refine Or.inr ⟨w, hw, hsup, fun hwhi hwextra => ?_⟩
      exact hinv.seen r p b hp hb w hw (hlo.trans hsup.2.1.le) hwhi hwextra
  · intro rules t s' hhas hticks
    -- a position below all the cursors
    obtain ⟨x, hx⟩ : ∃ x : Instant, ∀ r ∈ rules, ∀ p, s.cursors r = some p → x ≤ p := by
      clear hticks
      induction rules with
      | nil => exact ⟨0, fun r hr => absurd hr List.not_mem_nil⟩
      | cons r rules ih =>
        obtain ⟨x, hx⟩ := ih fun r' hr' => hhas r' (List.mem_cons_of_mem _ hr')
        obtain ⟨p, hp⟩ := Option.isSome_iff_exists.mp (hhas r List.mem_cons_self)
        refine ⟨min x p, ?_⟩
        intro r' hr' p' hp'
        rcases List.mem_cons.mp hr' with rfl | hr'
        · obtain rfl := Option.some.inj (hp.symm.trans hp')
          exact min_le_right _ _
        · exact (min_le_left _ _).trans (hx r' hr' p' hp')
    exact catch_up hhas hx (Nat.lt_succ_of_le (List.length_filter_le _ _)) hticks

end Feed

/-! ## §6. Two rules, and a reader with a gate. -/

/-- Four rows, two of one stamp, and two rules that begin at different places. -/
def fourRows : Feed Unit where
  table := [⟨1, 10, ()⟩, ⟨2, 10, ()⟩, ⟨3, 20, ()⟩, ⟨4, 30, ()⟩]
  committed := [⟨1, 10, ()⟩, ⟨2, 10, ()⟩, ⟨3, 20, ()⟩, ⟨4, 30, ()⟩]
  cursors := fun r => if r = 0 then some 0 else if r = 1 then some 15 else none
  started := fun r => if r = 0 then some 0 else if r = 1 then some 15 else none

/-- A full page of three. -/
def firstPage : Feed Unit :=
  fourRows.read {} [0, 1] (60 * second + 40) 3 ⟨0, 40⟩ [⟨2, 10, ()⟩, ⟨1, 10, ()⟩, ⟨3, 20, ()⟩]

/-- The last row is stamped again before it is read. -/
def restamped : Feed Unit := firstPage.commit ⟨4, 50, ()⟩

/-- The rest, from the last stamp of the page on. -/
def secondPage : Feed Unit :=
  restamped.read {} [0, 1] (60 * second + 60) 3 ⟨20, 60⟩ [⟨3, 20, ()⟩, ⟨4, 50, ()⟩]

theorem ties_lt {table : List (Version Unit)} {limit : ℕ}
    (h : ∀ v ∈ table, (table.filter fun w => decide (w.updatedAt = v.updatedAt)).length < limit) (hpos : 0 < limit)
    (t : Instant) : (table.filter fun v => decide (v.updatedAt = t)).length < limit := by
  cases hfilter : table.filter fun v => decide (v.updatedAt = t) with
  | nil => exact hpos
  | cons v vs =>
    have hv : v ∈ table.filter fun v => decide (v.updatedAt = t) := by
      rw [hfilter]
      exact List.mem_cons_self
    obtain ⟨hmem, hstamp⟩ := List.mem_filter.mp hv
    rw [← hfilter, ← of_decide_eq_true hstamp]
    exact h v hmem

theorem secondPage_reached : Reach {} (fun _ => true) fourRows secondPage := by
  have hfirst : Step {} (fun _ => true) fourRows firstPage := by
    refine Step.read [0, 1] (60 * second + 40) ⟨3, ⟨0, 40⟩, _, rfl,
      ⟨[⟨2, 10, ()⟩, ⟨1, 10, ()⟩, ⟨3, 20, ()⟩, ⟨4, 30, ()⟩], by decide, by decide, rfl⟩, ?_, rfl⟩
    exact ties_lt (by decide) (by decide)
  have hcommit : Step {} (fun _ => true) firstPage restamped :=
    Step.commit _ _ (by decide) fun horizon h => Option.some.inj h ▸ by decide
  have hsecond : Step {} (fun _ => true) restamped secondPage := by
    refine Step.read [0, 1] (60 * second + 60) ⟨3, ⟨20, 60⟩, _, rfl,
      ⟨[⟨3, 20, ()⟩, ⟨4, 50, ()⟩], by decide, by decide, rfl⟩, ?_, rfl⟩
    exact ties_lt (by decide) (by decide)
  exact ((Relation.ReflTransGen.single hfirst).tail hcommit).tail hsecond

theorem cursor_skips_nothing_restamped :
    (⟨4, 30, ()⟩ : Version Unit) ∈ secondPage.returned 1 ∨
      ∃ w ∈ secondPage.table, secondPage.Supersedes w ⟨4, 30, ()⟩ ∧
        (w.updatedAt < 60 → true = true → w ∈ secondPage.returned 1) := by
  have hstart : fourRows.Start := ⟨by decide, rfl, rfl, fun _ => rfl, rfl⟩
  exact (cursor_skips_nothing hstart secondPage_reached).2.1 1 60 15 rfl rfl ⟨4, 30, ()⟩ (by decide) (by decide)
    (by decide) rfl

/-- Between its start and its cursor every version has been returned to the rule, or one that supersedes it has. -/
def ReturnsAll (c : CursorSettings) (extra : Version Bool → Bool) : Prop :=
  ∀ s₀ s : Feed Bool, s₀.Start → Reach c extra s₀ s → ∀ r p b, s.cursors r = some p → s.started r = some b →
    ∀ v ∈ s.committed, b ≤ v.updatedAt → v.updatedAt < p →
      v ∈ s.returned r ∨ ∃ w ∈ s.returned r, s.Supersedes w v

/-- The version the gate lets through is superseded, before the read, by one it holds back. -/
theorem gated_not_returned : ¬ ReturnsAll {} fun v => v.content := by
  intro h
  let begun : Feed Bool :=
    { table := [⟨1, 10, true⟩], committed := [⟨1, 10, true⟩],
      cursors := fun r => if r = 0 then some 0 else none, started := fun r => if r = 0 then some 0 else none }
  let rewritten : Feed Bool := begun.commit ⟨1, 20, false⟩
  let read : Feed Bool := rewritten.read {} [0] (60 * second + 30) 2 ⟨0, 30⟩ []
  have hcommit : Step {} (fun v => v.content) begun rewritten :=
    Step.commit _ _ (by decide) fun horizon h => absurd h (by simp [begun])
  have hread : Step {} (fun v => v.content) rewritten read := by
    refine Step.read [0] (60 * second + 30) ⟨2, ⟨0, 30⟩, [], rfl, ⟨[], ?_, List.Pairwise.nil, rfl⟩, fun t => ?_, rfl⟩
    · decide
    · exact (List.length_filter_le _ _).trans_lt (by decide)
  have hstart : begun.Start := ⟨by decide, rfl, rfl, fun _ => rfl, rfl⟩
  have hnothing : read.returned 0 = [] := rfl
  obtain hmem | ⟨w, hmem, -⟩ := h begun read hstart ((Relation.ReflTransGen.single hcommit).tail hread) 0 30 0 rfl rfl
    ⟨1, 10, true⟩ (by decide) (by decide) (by decide)
  · rw [hnothing] at hmem
    exact absurd hmem List.not_mem_nil
  · rw [hnothing] at hmem
    exact absurd hmem List.not_mem_nil

end RagPipeline.Notifications
