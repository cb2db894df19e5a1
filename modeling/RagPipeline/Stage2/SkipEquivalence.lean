/-
  RagPipeline.Stage2.SkipEquivalence — the rebuild with the fingerprint skip against the plain rebuild.

  With the skip the freed rows stay where they are, and a group whose digests match is left alone.
  Without it the freed rows are deleted first, and every group is written.  Both read the same lines and
  form the same groups under the same ids (`windowRows_skip`, `windowGroups_skip`, `kept_skip`); what
  they leave differs in the groups that are left alone:

    * `mem_rebuild_skip`, `mem_rebuild_plain` — the rows each of them leaves, group by group;
    * `SkipSound`                             — a group left alone is stored as it would be written;
    * `skipEquivalent_iff`                    — the two agree exactly then;
    * `AsWritten`, `skip_equivalent`          — and so it is where the rows are as they were derived, and the
                                                lines numbered as they were written.

  The members digest sorts the ids, so it does not tell the places: a group whose lines are stored in another
  order, which no writer leaves, is left alone.
-/
import RagPipeline.Stage2.HeadLane
import RagPipeline.Stage2.Lossless

namespace RagPipeline.Stage2

open RagPipeline.Lib

variable {Fp : Type} [DecidableEq Fp]

/-! ## §1. Statement. -/

/-- The settings with the skip on. -/
def Settings.skipping (c : Settings) : Settings := { c with fingerprintSkip := true }

/-- The settings with the skip off. -/
def Settings.plain (c : Settings) : Settings := { c with fingerprintSkip := false }

/-- The same rows, and the same assignments with their places. -/
def SameTables (st st' : Store Fp) : Prop :=
  (∀ r, r ∈ st.txns ↔ r ∈ st'.txns) ∧ st.assigned = st'.assigned

/-- A window is rebuilt alike with the skip and without it. -/
def SkipEquivalent (w : World Fp) (c : Settings) (st : Store Fp) (lo hi : Instant) : Prop :=
  ∀ x y, regroupWindow w c.skipping st lo hi = some x → regroupWindow w c.plain st lo hi = some y →
    SameTables x.store y.store

/-- What the skip relies on, for the groups `ks` that are not refused. -/
structure PersistArgs.Sound (a : PersistArgs Fp) (w : World Fp) (st : Store Fp) (ks : List Group) :
    Prop where
  /-- The stored row of an unchanged group is the row that would be written; of a changed group there
      is no other row, at another start. -/
  rows : ∀ g ∈ ks, ∀ p, a.prior g.1 = some p → ∀ r ∈ st.txns, r.id = g.1 →
    r = freshRow w a.cutoffs g ∨ (a.unchanged w g = false ∧ r.startedAt = p.startedAt)
  /-- The last group that has a line, when its members are left alone, has the line already, at this
      place, and no group before it takes the line. -/
  lines : ∀ pre g post, ks = pre ++ g :: post → a.sameMembers w g = true → ∀ i ∈ g.ids,
    (∀ g' ∈ post, i ∉ g'.ids) →
      (∀ g' ∈ pre, a.sameMembers w g' = false → i ∉ g'.ids) ∧
        st.assigned i = some (g.1, g.ids.idxOf i)
  /-- Every line assigned to a group whose members are left alone is a line of some group. -/
  others : ∀ g ∈ ks, a.sameMembers w g = true → ∀ i, st.assigned.owner i = some g.1 →
    ∃ g' ∈ ks, i ∈ g'.ids

/-- What the skip relies on in a window: nothing where nothing is freed or no line is read. -/
def SkipSound (w : World Fp) (c : Settings) (st : Store Fp) (lo hi : Instant) : Prop :=
  ∀ floor, crossPadFloor c st (lo - c.pad) (hi + c.pad) = some floor →
    st.freedIds floor hi ≠ [] → st.windowRows c.skipping floor hi (hi + c.pad) ≠ [] →
      (windowArgs w c.skipping st floor hi (hi + c.pad)).Sound w st
        ((windowArgs w c.skipping st floor hi (hi + c.pad)).kept []
          (windowGroups w c.skipping st floor hi (hi + c.pad)))

/-! ## §2. The rows that a list of groups leaves. -/

section Rows

variable {w : World Fp} {a : PersistArgs Fp} {st : Store Fp} {gs : List Group}

/-- The rows under the id of a group, once the group is written. -/
theorem mem_putRow_iff {txns : List (TxnRow Fp)} {g : Group} {r : TxnRow Fp} :
    r ∈ a.putRow w txns g ↔
      match a.prior g.1 with
      | none => r ∈ txns ∨ r = freshRow w a.cutoffs g
      | some p =>
          if a.unchanged w g then r ∈ txns
          else (r ∈ txns ∧ ¬(r.id = g.1 ∧ r.startedAt = p.startedAt)) ∨
            (r = freshRow w a.cutoffs g ∧ ∃ q ∈ txns, q.id = g.1 ∧ q.startedAt = p.startedAt) := by
  unfold PersistArgs.putRow
  cases a.prior g.1 with
  | none => simp
  | some p =>
    cases a.unchanged w g with
    | true => simp
    | false =>
      simp only [Bool.false_eq_true, if_false, List.mem_map]
      constructor
      · rintro ⟨q, hq, heq⟩
        split at heq
        · next hkey => exact Or.inr ⟨heq.symm, q, hq, hkey⟩
        · next hkey => exact Or.inl ⟨heq ▸ hq, heq ▸ hkey⟩
      · rintro (⟨hr, hkey⟩ | ⟨rfl, q, hq, hkey⟩)
        · exact ⟨r, hr, if_neg hkey⟩
        · exact ⟨q, hq, if_pos hkey⟩

/-- Writing a group leaves the rows of other ids. -/
theorem mem_putRow_other {txns : List (TxnRow Fp)} {g : Group} {r : TxnRow Fp} (h : r.id ≠ g.1) :
    r ∈ a.putRow w txns g ↔ r ∈ txns := by
  have hfresh : r ≠ freshRow w a.cutoffs g := fun heq => h (congrArg TxnRow.id heq)
  rw [mem_putRow_iff]
  cases a.prior g.1 with
  | none => simp [hfresh]
  | some p => cases a.unchanged w g <;> simp [hfresh, h]

/-- What a group does to its rows depends on these rows only. -/
theorem mem_putRow_congr {txns txns' : List (TxnRow Fp)} {g : Group} {r : TxnRow Fp}
    (h : ∀ q : TxnRow Fp, q.id = g.1 → (q ∈ txns ↔ q ∈ txns')) (hr : r.id = g.1) :
    r ∈ a.putRow w txns g ↔ r ∈ a.putRow w txns' g := by
  have hex : ∀ p : TxnRow Fp, (∃ q ∈ txns, q.id = g.1 ∧ q.startedAt = p.startedAt) ↔
      ∃ q ∈ txns', q.id = g.1 ∧ q.startedAt = p.startedAt := by
    intro p
    constructor
    · rintro ⟨q, hq, hid, hs⟩
      exact ⟨q, (h q hid).mp hq, hid, hs⟩
    · rintro ⟨q, hq, hid, hs⟩
      exact ⟨q, (h q hid).mpr hq, hid, hs⟩
  rw [mem_putRow_iff, mem_putRow_iff]
  cases a.prior g.1 with
  | none => simp only [h r hr]
  | some p => simp only [h r hr, hex p]

/-- **The rows after the loop**, when the groups have distinct ids: each group decides on the rows of
    its id, and the others stay. -/
theorem mem_foldl_putRow_iff (ks : List Group) (hn : (ks.map Prod.fst).Nodup)
    {txns : List (TxnRow Fp)} {r : TxnRow Fp} :
    r ∈ ks.foldl (a.putRow w) txns ↔
      (r ∈ txns ∧ r.id ∉ ks.map Prod.fst) ∨ ∃ g ∈ ks, r.id = g.1 ∧ r ∈ a.putRow w txns g := by
  induction ks generalizing txns with
  | nil => simp
  | cons k ks ih =>
    obtain ⟨hk, hn⟩ := List.nodup_cons.mp hn
    rw [List.foldl_cons, ih hn, List.exists_mem_cons_iff, List.map_cons, List.mem_cons]
    by_cases hid : r.id = k.1
    -- a row of this group: no later group has its id
    · have hnot : r.id ∉ ks.map Prod.fst := hid ▸ hk
      have hlater : ∀ {txns' : List (TxnRow Fp)},
          ¬∃ g ∈ ks, r.id = g.1 ∧ r ∈ a.putRow w txns' g := by
        rintro txns' ⟨g, hg, heq, -⟩
        exact hnot (heq ▸ List.mem_map_of_mem hg)
      simp only [hlater, or_false]
      simp [hid, hk]
    -- a row of another id: this group has left it alone
    · have hother : ∀ g ∈ ks, (r.id = g.1 ∧ r ∈ a.putRow w (a.putRow w txns k) g) ↔
          (r.id = g.1 ∧ r ∈ a.putRow w txns g) := by
        intro g hg
        apply and_congr_right
        intro heq
        apply mem_putRow_congr _ heq
        intro q hq
        exact mem_putRow_other (by rw [hq, ← heq]; exact hid)
      simp only [mem_putRow_other hid, hid, false_or, false_and]
      apply or_congr_right
      constructor
      · rintro ⟨g, hg, h⟩
        exact ⟨g, hg, (hother g hg).mp h⟩
      · rintro ⟨g, hg, h⟩
        exact ⟨g, hg, (hother g hg).mpr h⟩

/-- The rows `_persist` leaves. -/
theorem mem_persist_iff {r : TxnRow Fp} :
    r ∈ (persist w a st gs).1.txns ↔
      (r ∈ st.txns ∧ r.id ∉ (a.kept [] gs).map Prod.fst ∧ r.id ∉ a.stored.map TxnRow.id) ∨
        ∃ g ∈ a.kept [] gs, r.id = g.1 ∧ r ∈ a.putRow w st.txns g := by
  rw [persist_txns, List.mem_filter, mem_foldl_putRow_iff _ (kept_nodup a [] gs), decide_eq_true_eq,
    mem_gone]
  constructor
  · rintro ⟨⟨hr, hid⟩ | hput, hgone⟩
    · exact Or.inl ⟨hr, hid, fun hs => hgone ⟨hs, hid⟩⟩
    · exact Or.inr hput
  · rintro (⟨hr, hid, hs⟩ | ⟨g, hg, heq, hput⟩)
    · exact ⟨Or.inl ⟨hr, hid⟩, fun hgone => hs hgone.1⟩
    · exact ⟨Or.inr ⟨g, hg, heq, hput⟩, fun hgone => hgone.2 (heq ▸ List.mem_map_of_mem hg)⟩

theorem mem_persist_of_not_kept {r : TxnRow Fp} (h : r.id ∉ (a.kept [] gs).map Prod.fst) :
    r ∈ (persist w a st gs).1.txns ↔ r ∈ st.txns ∧ r.id ∉ a.stored.map TxnRow.id := by
  have hno : ¬∃ g ∈ a.kept [] gs, r.id = g.1 ∧ r ∈ a.putRow w st.txns g := by
    rintro ⟨g, hg, heq, -⟩
    exact h (heq ▸ List.mem_map_of_mem hg)
  rw [mem_persist_iff]
  simp only [hno, h, or_false, not_false_eq_true, true_and]

theorem mem_persist_of_kept {r : TxnRow Fp} {g : Group} (hg : g ∈ a.kept [] gs) (hid : r.id = g.1) :
    r ∈ (persist w a st gs).1.txns ↔ r ∈ a.putRow w st.txns g := by
  have hin : r.id ∈ (a.kept [] gs).map Prod.fst := hid ▸ List.mem_map_of_mem hg
  rw [mem_persist_iff]
  simp only [hin, not_true_eq_false, false_and, and_false, false_or]
  constructor
  · rintro ⟨g', hg', hid', hput⟩
    obtain rfl : g' = g := kept_unique hg' hg (hid'.symm.trans hid)
    exact hput
  · intro hput
    exact ⟨g, hg, hid, hput⟩

end Rows

/-! ## §3. The two runs read the same. -/

section Window

variable {w : World Fp} {c : Settings} {st : Store Fp} {floor hi hiP : Instant}

omit [DecidableEq Fp] in
theorem keepsRows_plain : st.keepsRows c.plain floor hi = false := rfl

omit [DecidableEq Fp] in
theorem keepsRows_skipping (hf : st.freedIds floor hi ≠ []) :
    st.keepsRows c.skipping floor hi = true := by
  unfold Store.keepsRows
  simp [Settings.skipping, hf]

omit [DecidableEq Fp] in
/-- Where nothing is freed the skip makes no difference. -/
theorem keepsRows_nothing (hf : st.freedIds floor hi = []) :
    st.keepsRows c.skipping floor hi = false := by
  unfold Store.keepsRows
  simp [hf]

omit [DecidableEq Fp] in
theorem cleared_plain :
    st.cleared c.plain floor hi =
      (st.deleteAssignments (st.freedIds floor hi)).deleteTransactions (st.freedIds floor hi) := rfl

omit [DecidableEq Fp] in
/-- Who owned a line of the window is who owns it. -/
theorem owner_in_window {e : LogEntry} (he : e ∈ st.entries)
    (hwin : within floor hiP e.timestamp = true) :
    st.ownersInWindow floor hiP e.id = st.assigned.owner e.id := by
  unfold Store.ownersInWindow
  have hany : (st.entries.any fun e' => decide (e'.id = e.id) &&
      (e'.timestamp.isNone || within floor hiP e'.timestamp)) = true :=
    List.any_eq_true.mpr ⟨e, he, by simp [hwin]⟩
  rw [if_pos hany]

omit [DecidableEq Fp] in
/-- A line of the window is read with the skip exactly when it is read without it. -/
theorem eligible_skip {e : LogEntry} (he : e ∈ st.entries)
    (hwin : within floor hiP e.timestamp = true) :
    st.eligible c.skipping floor hi hiP e = st.eligible c.plain floor hi hiP e := by
  by_cases hf : st.freedIds floor hi = []
  · unfold Store.eligible Store.cleared
    rw [keepsRows_nothing hf, keepsRows_plain]
  · have hplain : st.eligible c.plain floor hi hiP e =
        (st.assigned.release (fun t => decide (t ∈ st.freedIds floor hi)) e.id).isNone := rfl
    rw [hplain]
    unfold Store.eligible
    rw [keepsRows_skipping hf, if_pos rfl, owner_in_window he hwin, Owners.owner, Owners.release]
    cases st.assigned e.id with
    | none => rfl
    | some p => by_cases ht : p.1 ∈ st.freedIds floor hi <;> simp [ht]

omit [DecidableEq Fp] in
theorem windowRows_skip :
    st.windowRows c.skipping floor hi hiP = st.windowRows c.plain floor hi hiP := by
  unfold Store.windowRows
  congr 1
  apply List.filter_congr
  intro e he
  cases hwin : within floor hiP e.timestamp with
  | false => rfl
  | true => rw [eligible_skip he hwin]

omit [DecidableEq Fp] in
theorem windowGroups_skip :
    windowGroups w c.skipping st floor hi hiP = windowGroups w c.plain st floor hi hiP := by
  unfold windowGroups
  rw [windowRows_skip]
  rfl

omit [DecidableEq Fp] in
/-- The same ids are refused. -/
theorem clash_skip (hf : st.freedIds floor hi ≠ []) (t : UUID) :
    (windowArgs w c.skipping st floor hi hiP).clash t =
      (windowArgs w c.plain st floor hi hiP).clash t := by
  have hk : st.keepsRows c.skipping floor hi = true := keepsRows_skipping hf
  have hstored : t ∈ (st.storedRows c.skipping floor hi).map TxnRow.id ↔
      t ∈ st.freedIds floor hi := ⟨freed_of_stored, stored_of_freed hk⟩
  have hplain : (windowArgs w c.plain st floor hi hiP).stored = [] := rfl
  rw [Bool.eq_iff_iff]
  unfold PersistArgs.clash
  simp only [Bool.and_eq_true, decide_eq_true_eq, hplain, List.map_nil, List.not_mem_nil,
    not_false_eq_true, and_true]
  show t ∈ (st.cleared c.skipping floor hi).clashes c.skipping
      (windowGroups w c.skipping st floor hi hiP) ∧ t ∉ (st.storedRows c.skipping floor hi).map TxnRow.id ↔
    t ∈ (st.cleared c.plain floor hi).clashes c.plain (windowGroups w c.plain st floor hi hiP)
  rw [hstored, cleared_eq hk, cleared_plain, windowGroups_skip]
  simp only [Store.clashes, Store.existingIds, Store.deleteTransactions, Store.deleteAssignments,
    List.mem_map, List.mem_filter, decide_eq_true_eq]
  constructor
  · rintro ⟨⟨r, ⟨hr, hcov⟩, rfl⟩, hnot⟩
    exact ⟨r, ⟨⟨hr, hnot⟩, hcov⟩, rfl⟩
  · rintro ⟨r, ⟨⟨hr, hnot⟩, hcov⟩, rfl⟩
    exact ⟨⟨r, ⟨hr, hcov⟩, rfl⟩, hnot⟩

omit [DecidableEq Fp] in
theorem kept_congr {a a' : PersistArgs Fp} (h : ∀ t, a.clash t = a'.clash t) (gs : List Group)
    (seen : List UUID) : a.kept seen gs = a'.kept seen gs := by
  induction gs generalizing seen with
  | nil => rfl
  | cons g gs ih =>
    unfold PersistArgs.kept
    rw [h g.1, ih, ih]

omit [DecidableEq Fp] in
/-- **The same groups are kept.** -/
theorem kept_skip (hf : st.freedIds floor hi ≠ []) :
    (windowArgs w c.plain st floor hi hiP).kept [] (windowGroups w c.plain st floor hi hiP) =
      (windowArgs w c.skipping st floor hi hiP).kept [] (windowGroups w c.skipping st floor hi hiP) := by
  rw [windowGroups_skip]
  exact (kept_congr (clash_skip hf) _ _).symm

end Window

/-! ## §4. One `_persist` against the other. -/

section Compare

variable {w : World Fp} {a a₀ : PersistArgs Fp} {st : Store Fp} {gs : List Group} {freed : List UUID}

omit [DecidableEq Fp] in
theorem prior_of_nothing (h : a₀.stored = []) (t : UUID) : a₀.prior t = none := by
  rw [prior_eq_none, h]
  exact List.not_mem_nil

theorem sameMembers_of_nothing (h : a₀.stored = []) (g : Group) : a₀.sameMembers w g = false := by
  unfold PersistArgs.sameMembers
  rw [prior_of_nothing h]

/-- A group whose members are left alone has a stored row. -/
theorem stored_of_sameMembers {g : Group} (h : a.sameMembers w g = true) :
    g.1 ∈ a.stored.map TxnRow.id := by
  by_contra hnot
  unfold PersistArgs.sameMembers at h
  rw [prior_eq_none.mpr hnot] at h
  exact Bool.noConfusion h

/-- When nothing is stored, no line is let go. -/
theorem nothing_released (h : a₀.stored = []) (t : UUID) :
    (Owners.releasedBy (a₀.writes w gs) t || decide (t ∈ a₀.gone gs)) = false := by
  have hstays : a₀.Stays w gs t := Or.inl (by rw [h]; exact List.not_mem_nil)
  obtain ⟨hrel, hgone⟩ := stays_iff.mp hstays
  simp [hrel, hgone]

/-- The rows under the id of a group, with the skip and without. -/
theorem rows_iff (hstored : ∀ p ∈ a.stored, p ∈ st.txns)
    (hf : ∀ t, t ∈ a.stored.map TxnRow.id ↔ t ∈ freed) (g : Group) :
    (∀ r : TxnRow Fp, r.id = g.1 →
      (r ∈ a.putRow w st.txns g ↔ (r ∈ st.txns ∧ g.1 ∉ freed) ∨ r = freshRow w a.cutoffs g)) ↔
    ∀ p, a.prior g.1 = some p → ∀ r ∈ st.txns, r.id = g.1 →
      r = freshRow w a.cutoffs g ∨ (a.unchanged w g = false ∧ r.startedAt = p.startedAt) := by
  cases hp : a.prior g.1 with
  | none =>
    have hfree : g.1 ∉ freed := fun hin => prior_eq_none.mp hp ((hf g.1).mpr hin)
    have hput : ∀ r : TxnRow Fp, r.id = g.1 →
        (r ∈ a.putRow w st.txns g ↔ (r ∈ st.txns ∧ g.1 ∉ freed) ∨ r = freshRow w a.cutoffs g) := by
      intro r _
      rw [mem_putRow_iff, hp]
      simp [hfree]
    exact iff_of_true hput (by simp)
  | some p =>
    obtain ⟨hmem, hpid⟩ := prior_eq_some hp
    have hin : g.1 ∈ freed := (hf g.1).mp (hpid ▸ List.mem_map_of_mem hmem)
    have htable : p ∈ st.txns := hstored p hmem
    simp only [Option.some.injEq, forall_eq', hin, not_true_eq_false, and_false, false_or]
    cases hun : a.unchanged w g with
    -- left alone: every row of the id has to be the row that would be written
    | true =>
      have hput : ∀ r, r ∈ a.putRow w st.txns g ↔ r ∈ st.txns := by
        intro r
        rw [mem_putRow_iff, hp]
        simp [hun]
      simp only [hput, Bool.true_eq_false, false_and, or_false]
      constructor
      · intro h r hr hid
        exact (h r hid).mp hr
      · intro h r hid
        constructor
        · intro hr
          exact h r hr hid
        · rintro rfl
          rw [← h p htable hpid]
          exact htable
    -- written: a row at another start stays beside it
    | false =>
      have hput : ∀ r : TxnRow Fp, r.id = g.1 → (r ∈ a.putRow w st.txns g ↔
          (r ∈ st.txns ∧ r.startedAt ≠ p.startedAt) ∨ r = freshRow w a.cutoffs g) := by
        intro r hid
        have hex : ∃ q ∈ st.txns, q.id = g.1 ∧ q.startedAt = p.startedAt := ⟨p, htable, hpid, rfl⟩
        rw [mem_putRow_iff, hp]
        simp [hun, hid, hex]
      simp only [true_and]
      constructor
      · intro h r hr hid
        by_cases hs : r.startedAt = p.startedAt
        · exact Or.inr hs
        · exact Or.inl ((h r hid).mp ((hput r hid).mpr (Or.inl ⟨hr, hs⟩)))
      · intro h r hid
        rw [hput r hid]
        constructor
        · rintro (⟨hr, hs⟩ | heq)
          · exact (h r hr hid).resolve_right hs
          · exact heq
        · exact Or.inr

/-- Without the skip the last group that has a line gets it. -/
theorem plain_last (h₀ : a₀.stored = []) {pre post : List Group} {g : Group} {i : UUID}
    (hsplit : a₀.kept [] gs = pre ++ g :: post) (hmem : i ∈ g.ids) (hpost : ∀ g' ∈ post, i ∉ g'.ids) :
    (persist w a₀ st gs).1.assigned i = some (g.1, g.ids.idxOf i) :=
  persist_last hsplit (sameMembers_of_nothing h₀ g) hmem fun g' hg' _ => hpost g' hg'

/-- Without the skip a line of no group keeps its owner. -/
theorem plain_unclaimed (h₀ : a₀.stored = []) {i : UUID} (h : ¬∃ g ∈ a₀.kept [] gs, i ∈ g.ids) :
    (persist w a₀ st gs).1.assigned i = st.assigned i := by
  have hc : ¬a₀.Claims w gs i := fun ⟨g, hg, _, hmem⟩ => h ⟨g, hg, hmem⟩
  rw [persist_unclaimed hc]
  exact Owners.release_of_not fun t _ => nothing_released h₀ t

/-- With the skip a line that is not claimed keeps the owner that keeps its members. -/
theorem skip_stays {i t : UUID} {n : Nat} (hc : ¬a.Claims w gs i) (hi : st.assigned i = some (t, n))
    (hs : a.Stays w gs t) : (persist w a st gs).1.assigned i = some (t, n) := by
  obtain ⟨hrel, hgone⟩ := stays_iff.mp hs
  rw [persist_unclaimed hc]
  exact Owners.release_eq_some.mpr ⟨hi, by simp [hrel, hgone]⟩

/-- With the skip a line that is not claimed loses the owner that does not. -/
theorem skip_leaves {i t : UUID} {n : Nat} (hc : ¬a.Claims w gs i) (hi : st.assigned i = some (t, n))
    (hs : ¬a.Stays w gs t) : (persist w a st gs).1.assigned i = none := by
  rw [persist_unclaimed hc]
  apply Owners.release_of (Owners.owner_eq_some.mpr ⟨n, hi⟩)
  by_contra hp
  simp only [Bool.or_eq_true, decide_eq_true_eq, not_or, Bool.not_eq_true] at hp
  exact hs (stays_iff.mpr hp)

/-- The tables the plain rebuild starts from. -/
def Store.without (st : Store Fp) (ids : List UUID) : Store Fp :=
  (st.deleteAssignments ids).deleteTransactions ids

/-- The last group that has a line, with the skip. -/
theorem skip_last_iff {pre post : List Group} {g : Group} {i : UUID}
    (hsplit : a.kept [] gs = pre ++ g :: post) (hsame : a.sameMembers w g = true) (hmem : i ∈ g.ids)
    (hpost : ∀ g' ∈ post, i ∉ g'.ids) :
    (persist w a st gs).1.assigned i = some (g.1, g.ids.idxOf i) ↔
      (∀ g' ∈ pre, a.sameMembers w g' = false → i ∉ g'.ids) ∧
        st.assigned i = some (g.1, g.ids.idxOf i) := by
  have hg : g ∈ a.kept [] gs := by rw [hsplit]; simp
  constructor
  · intro h
    -- were the line claimed, its last claimant would be the group itself, which is skipped
    have hc : ¬a.Claims w gs i := by
      intro hc
      obtain ⟨pre', k, post', hsplit', hdiff, hmem', hpost'⟩ := exists_last_claim hc
      have hk : k ∈ a.kept [] gs := by rw [hsplit']; simp
      have hlast := @persist_last _ _ w a st gs pre' post' k i hsplit' hdiff hmem' hpost'
      have hpair := Option.some.inj (hlast.symm.trans h)
      rw [kept_unique hk hg (Prod.mk.inj hpair).1, hsame] at hdiff
      exact Bool.noConfusion hdiff
    constructor
    · intro g' hg' hdiff hmem'
      exact hc ⟨g', by rw [hsplit]; simp [hg'], hdiff, hmem'⟩
    · rw [persist_unclaimed hc] at h
      exact (Owners.release_eq_some.mp h).1
  · rintro ⟨hpre, hi⟩
    have hc : ¬a.Claims w gs i := by
      rintro ⟨k, hk, hdiff, hmem'⟩
      rw [hsplit, List.mem_append, List.mem_cons] at hk
      rcases hk with hk | rfl | hk
      · exact hpre k hk hdiff hmem'
      · rw [hsame] at hdiff
        exact Bool.noConfusion hdiff
      · exact hpost k hk hmem'
    exact skip_stays hc hi (Or.inr ⟨g, hg, rfl, hsame⟩)

/-- A line that is in no group is left to the same owner by both runs. -/
theorem unclaimed_same (h₀ : a₀.stored = []) (hkept : a₀.kept [] gs = a.kept [] gs)
    (hf : ∀ t, t ∈ a.stored.map TxnRow.id ↔ t ∈ freed) (h : a.Sound w st (a.kept [] gs)) {i : UUID}
    (hno : ¬∃ g ∈ a.kept [] gs, i ∈ g.ids) :
    (persist w a st gs).1.assigned i = (persist w a₀ (st.without freed) gs).1.assigned i := by
  have hc : ¬a.Claims w gs i := by
    rintro ⟨k, hk, -, hmem⟩
    exact hno ⟨k, hk, hmem⟩
  rw [plain_unclaimed h₀ (hkept ▸ hno)]
  show _ = st.assigned.release (fun t => decide (t ∈ freed)) i
  cases hi : st.assigned i with
  | none => rw [persist_unclaimed hc, Owners.release, Owners.release, hi]; rfl
  | some p =>
    have howner : st.assigned.owner i = some p.1 := Owners.owner_eq_some.mpr ⟨p.2, hi⟩
    by_cases hin : p.1 ∈ freed
    · have hleft : ¬a.Stays w gs p.1 := by
        rintro (hnot | ⟨g, hg, heq, hsame⟩)
        · exact hnot ((hf p.1).mpr hin)
        · exact hno (h.others g hg hsame i (heq ▸ howner))
      rw [skip_leaves hc hi hleft, Owners.release_of howner (decide_eq_true hin)]
    · have hstay : a.Stays w gs p.1 := Or.inl fun hs => hin ((hf p.1).mp hs)
      have hkeep : st.assigned.release (fun t => decide (t ∈ freed)) i = some p :=
        Owners.release_eq_some.mpr ⟨hi, by simpa using hin⟩
      rw [skip_stays hc hi hstay, hkeep]

/-- **The two runs of `_persist` leave the same tables exactly when the skip is sound.** -/
theorem persist_skip_iff (h₀ : a₀.stored = []) (hcut : a₀.cutoffs = a.cutoffs)
    (hkept : a₀.kept [] gs = a.kept [] gs) (hstored : ∀ p ∈ a.stored, p ∈ st.txns)
    (hf : ∀ t, t ∈ a.stored.map TxnRow.id ↔ t ∈ freed) :
    SameTables (persist w a st gs).1 (persist w a₀ (st.without freed) gs).1 ↔
      a.Sound w st (a.kept [] gs) := by
  have hrow : ∀ g ∈ a.kept [] gs, ∀ r : TxnRow Fp, r.id = g.1 →
      (r ∈ (persist w a₀ (st.without freed) gs).1.txns ↔
        (r ∈ st.txns ∧ g.1 ∉ freed) ∨ r = freshRow w a.cutoffs g) := by
    intro g hg r hid
    have hfreed : r ∈ (st.without freed).txns ↔ r ∈ st.txns ∧ g.1 ∉ freed := by
      rw [← hid]
      simp [Store.without, Store.deleteTransactions, Store.deleteAssignments]
    rw [mem_persist_of_kept (hkept ▸ hg) hid, mem_putRow_iff, prior_of_nothing h₀]
    simp only [hfreed, hcut]
  have hline : ∀ i, (st.without freed).assigned i =
      st.assigned.release (fun t => decide (t ∈ freed)) i := fun _ => rfl
  constructor
  · rintro ⟨htxns, hassigned⟩
    refine ⟨?_, ?_, ?_⟩
    · intro g hg
      apply (rows_iff hstored hf g).mp
      intro r hid
      rw [← mem_persist_of_kept hg hid, htxns r, hrow g hg r hid]
    · intro pre g post hsplit hsame i hmem hpost
      apply (skip_last_iff hsplit hsame hmem hpost).mp
      rw [hassigned]
      exact plain_last h₀ (hkept.trans hsplit) hmem hpost
    · intro g hg hsame i howner
      by_contra hno
      obtain ⟨n, hi⟩ := Owners.owner_eq_some.mp howner
      have hc : ¬a.Claims w gs i := by
        rintro ⟨k, hk, -, hmem⟩
        exact hno ⟨k, hk, hmem⟩
      have hskip := skip_stays hc hi (Or.inr ⟨g, hg, rfl, hsame⟩)
      have hin : g.1 ∈ freed := (hf g.1).mp (stored_of_sameMembers hsame)
      rw [hassigned, plain_unclaimed h₀ (hkept ▸ hno), hline,
        Owners.release_of howner (decide_eq_true hin)] at hskip
      exact absurd hskip (by simp)
  · intro h
    constructor
    · intro r
      by_cases hid : r.id ∈ (a.kept [] gs).map Prod.fst
      · obtain ⟨g, hg, heq⟩ := List.mem_map.mp hid
        rw [mem_persist_of_kept hg heq.symm, hrow g hg r heq.symm]
        exact (rows_iff hstored hf g).mpr (h.rows g hg) r heq.symm
      · rw [mem_persist_of_not_kept hid, mem_persist_of_not_kept (hkept ▸ hid), hf, h₀]
        simp [Store.without, Store.deleteTransactions, Store.deleteAssignments]
    · funext i
      by_cases hany : ∃ g ∈ a.kept [] gs, True ∧ i ∈ g.ids
      -- the last group that has the line decides
      · obtain ⟨pre, g, post, hsplit, -, hmem, hpost⟩ := exists_last_claim hany
        have hlater : ∀ g' ∈ post, i ∉ g'.ids := fun g' hg' => hpost g' hg' trivial
        rw [plain_last h₀ (hkept.trans hsplit) hmem hlater]
        cases hsame : a.sameMembers w g with
        | false => exact persist_last hsplit hsame hmem fun g' hg' _ => hlater g' hg'
        | true =>
          exact (skip_last_iff hsplit hsame hmem hlater).mpr (h.lines pre g post hsplit hsame i hmem hlater)
      -- the line is in no group
      · refine unclaimed_same h₀ hkept hf h ?_
        rintro ⟨g, hg, hmem⟩
        exact hany ⟨g, hg, trivial, hmem⟩

end Compare

/-! ## §5. `regroup_window`. -/

section Rebuild

variable {w : World Fp} {c : Settings} {st : Store Fp} {floor hi hiP : Instant}

/-- Where nothing is freed, the two rebuilds are one. -/
theorem rebuild_nothing (hf : st.freedIds floor hi = []) :
    rebuild w c.skipping st floor hi hiP = rebuild w c.plain st floor hi hiP := by
  have hcleared : st.cleared c.skipping floor hi = st.cleared c.plain floor hi := by
    unfold Store.cleared
    rw [keepsRows_nothing hf, keepsRows_plain]
  have hstored : st.storedRows c.skipping floor hi = st.storedRows c.plain floor hi := by
    rw [stored_eq_nil (keepsRows_nothing hf), stored_eq_nil keepsRows_plain]
  have hargs : windowArgs w c.skipping st floor hi hiP = windowArgs w c.plain st floor hi hiP := by
    unfold windowArgs
    rw [hcleared, hstored, windowGroups_skip]
    rfl
  unfold rebuild
  rw [windowRows_skip, windowGroups_skip, hcleared, hstored, hargs]

/-- Where no line is read, both delete the freed rows. -/
theorem rebuild_no_lines (hf : st.freedIds floor hi ≠ [])
    (hrows : st.windowRows c.skipping floor hi hiP = []) :
    SameTables (rebuild w c.skipping st floor hi hiP) (rebuild w c.plain st floor hi hiP) := by
  have hk : st.keepsRows c.skipping floor hi = true := keepsRows_skipping hf
  have hstored : ∀ t, t ∈ (st.storedRows c.skipping floor hi).map TxnRow.id ↔
      t ∈ st.freedIds floor hi := fun t => ⟨freed_of_stored, stored_of_freed hk⟩
  unfold rebuild
  rw [if_pos hrows, if_pos (windowRows_skip ▸ hrows), cleared_eq hk, cleared_plain,
    stored_eq_nil keepsRows_plain]
  simp only [SameTables, Store.deleteTransactions, Store.deleteAssignments, hstored, List.map_nil,
    List.not_mem_nil, not_false_eq_true, decide_true, decide_false, List.filter_true]
  refine ⟨fun r => trivial, ?_⟩
  rw [Owners.release_release]
  exact Owners.release_congr fun t => (Bool.or_false _).symm

/-- One rebuild against the other. -/
theorem rebuild_skip_iff :
    SameTables (rebuild w c.skipping st floor hi hiP) (rebuild w c.plain st floor hi hiP) ↔
      (st.freedIds floor hi ≠ [] → st.windowRows c.skipping floor hi hiP ≠ [] →
        (windowArgs w c.skipping st floor hi hiP).Sound w st
          ((windowArgs w c.skipping st floor hi hiP).kept []
            (windowGroups w c.skipping st floor hi hiP))) := by
  by_cases hf : st.freedIds floor hi = []
  · rw [rebuild_nothing hf]
    exact iff_of_true ⟨fun r => Iff.rfl, rfl⟩ fun hne => absurd hf hne
  · by_cases hrows : st.windowRows c.skipping floor hi hiP = []
    · exact iff_of_true (rebuild_no_lines hf hrows) fun _ hne => absurd hrows hne
    · have hk : st.keepsRows c.skipping floor hi = true := keepsRows_skipping hf
      have htable : ∀ p ∈ (windowArgs w c.skipping st floor hi hiP).stored, p ∈ st.txns := by
        intro p hp
        have hp' : p ∈ st.storedRows c.skipping floor hi := hp
        unfold Store.storedRows at hp'
        rw [if_pos hk] at hp'
        exact (List.mem_filter.mp hp').1
      have hstored : ∀ t, t ∈ (windowArgs w c.skipping st floor hi hiP).stored.map TxnRow.id ↔
          t ∈ st.freedIds floor hi := fun t => ⟨freed_of_stored, stored_of_freed hk⟩
      have hkept : (windowArgs w c.plain st floor hi hiP).kept []
            (windowGroups w c.plain st floor hi hiP) =
          (windowArgs w c.skipping st floor hi hiP).kept []
            (windowGroups w c.skipping st floor hi hiP) := kept_skip hf
      rw [windowGroups_skip] at hkept
      have hnone : (windowArgs w c.plain st floor hi hiP).stored = [] := rfl
      have hcut : (windowArgs w c.plain st floor hi hiP).cutoffs =
          (windowArgs w c.skipping st floor hi hiP).cutoffs := rfl
      -- from here on the two paths write the same groups, one over the freed rows and one over none
      have hcompare := persist_skip_iff (w := w) hnone hcut hkept htable hstored
      simp only [hf, hrows, ne_eq, not_false_eq_true, true_implies]
      unfold rebuild
      rw [if_neg hrows, if_neg (windowRows_skip ▸ hrows), cleared_eq hk, cleared_plain,
        windowGroups_skip]
      exact hcompare

end Rebuild

/-- **The skip is an equivalent optimisation exactly when every group it leaves alone is stored as it
    would be written.** -/
theorem skipEquivalent_iff (w : World Fp) (c : Settings) (st : Store Fp) (lo hi : Instant) :
    SkipEquivalent w c st lo hi ↔ SkipSound w c st lo hi := by
  have hskip : ∀ {x}, regroupWindow w c.skipping st lo hi = some x ↔
      ∃ floor, crossPadFloor c st (lo - c.pad) (hi + c.pad) = some floor ∧
        ⟨rebuild w c.skipping st floor hi (hi + c.pad), [(floor, hi + c.pad)]⟩ = x :=
    Option.map_eq_some_iff
  have hplain : ∀ {y}, regroupWindow w c.plain st lo hi = some y ↔
      ∃ floor, crossPadFloor c st (lo - c.pad) (hi + c.pad) = some floor ∧
        ⟨rebuild w c.plain st floor hi (hi + c.pad), [(floor, hi + c.pad)]⟩ = y :=
    Option.map_eq_some_iff
  constructor
  · intro h floor hfloor
    exact rebuild_skip_iff.mp (h _ _ (hskip.mpr ⟨floor, hfloor, rfl⟩) (hplain.mpr ⟨floor, hfloor, rfl⟩))
  · intro h x y hx hy
    obtain ⟨floor, hfloor, rfl⟩ := hskip.mp hx
    obtain ⟨floor', hfloor', rfl⟩ := hplain.mp hy
    obtain rfl : floor = floor' := Option.some.inj (hfloor.symm.trans hfloor')
    exact rebuild_skip_iff.mpr (h floor hfloor)

/-! ## §6. Tables as they were written. -/

/-- The order of a transaction's lines, ties apart. -/
def before (a b : LogEntry) : Prop := entryStreamOrderLe a b = true ∧ entryStreamOrderLe b a = false

instance : DecidableRel before := fun a b => by
  unfold before
  infer_instance

/-- The tables as their writers leave them: lines and transactions have ids of their own, a line that is assigned
    is stored; the members digest of a row is that of its lines, and its row digest and values are those derived
    from its lines in some zone; its lines are numbered in the order of the stream, and no two tie in it. -/
structure Store.AsWritten (w : World Fp) (st : Store Fp) : Prop where
  ids : (st.entries.map (·.id)).Nodup
  rows : (st.txns.map TxnRow.id).Nodup
  stored : ∀ i t, st.assigned.owner i = some t → i ∈ st.entries.map (·.id)
  members : ∀ r ∈ st.txns, ∀ fp, r.membersFingerprint = some fp → fp = w.members ((st.linesOf r.id).map (·.id))
  derived : ∀ r ∈ st.txns, ∀ fp, r.rowFingerprint = some fp →
    ∃ zone, r.values = w.valuesIn zone (st.linesOf r.id) ∧ fp = w.rowIn zone r.values r.isSealed
  numbered : ∀ t, ∀ e ∈ st.linesOf t, st.assigned e.id = some (t, ((st.linesOf t).map (·.id)).idxOf e.id)
  ordered : ∀ t, (st.linesOf t).Pairwise before

/-- The groups that a window writes share no line, and none has a line twice. -/
def SharesNoLine (w : World Fp) (c : Settings) (st : Store Fp) (lo hi : Instant) : Prop :=
  ∀ floor, crossPadFloor c st (lo - c.pad) (hi + c.pad) = some floor →
    (((windowArgs w c.skipping st floor hi (hi + c.pad)).kept []
      (windowGroups w c.skipping st floor hi (hi + c.pad))).flatMap Group.ids).Nodup

section Written

variable {w : World Fp} {c : Settings} {st : Store Fp} {floor hi hiP : Instant}

theorem entryStreamOrderLe_total (a b : LogEntry) : entryStreamOrderLe a b = true ∨ entryStreamOrderLe b a = true := by
  unfold entryStreamOrderLe
  cases a.timestamp with
  | none =>
    cases b.timestamp with
    | none => simpa using le_total (a.lineNumber.getD 0) (b.lineNumber.getD 0)
    | some y => simp
  | some x =>
    cases b.timestamp with
    | none => simp
    | some y =>
      simp only [Bool.or_eq_true, Bool.and_eq_true, decide_eq_true_eq]
      rcases lt_trichotomy x y with h | rfl | h
      · exact .inl (.inl h)
      · exact (le_total (a.lineNumber.getD 0) (b.lineNumber.getD 0)).imp (fun hle => .inr ⟨rfl, hle⟩) fun hle => .inr ⟨rfl, hle⟩
      · exact .inr (.inl h)

theorem entryStreamOrderLe_trans {a b c : LogEntry} (hab : entryStreamOrderLe a b = true)
    (hbc : entryStreamOrderLe b c = true) : entryStreamOrderLe a c = true := by
  unfold entryStreamOrderLe at *
  cases ha : a.timestamp <;> cases hb : b.timestamp <;> cases hc : c.timestamp <;>
    simp only [ha, hb, hc, Bool.or_eq_true, Bool.and_eq_true, decide_eq_true_eq, Bool.false_eq_true] at *
  · exact le_trans hab hbc
  · rcases hab with hab | ⟨rfl, hab⟩
    · exact .inl (hbc.elim (fun h => lt_trans hab h) fun h => h.1 ▸ hab)
    · exact hbc.imp id fun h => ⟨h.1, le_trans hab h.2⟩

theorem pairwise_sortEntries (es : List LogEntry) :
    (sortEntries es).Pairwise fun a b => entryStreamOrderLe a b = true := by
  have htotal : Std.Total fun a b : LogEntry => entryStreamOrderLe a b = true := ⟨entryStreamOrderLe_total⟩
  have htrans : IsTrans LogEntry fun a b => entryStreamOrderLe a b = true :=
    ⟨fun _ _ _ => entryStreamOrderLe_trans⟩
  exact List.pairwise_insertionSort _ es

omit [DecidableEq Fp] in
/-- A group of stored lines that is made of the lines of a transaction is that list of lines. -/
theorem lines_of_perm (hst : st.AsWritten w) {t : UUID} {b : TxnBuilder} (hstored : ∀ e ∈ b.entries, e ∈ st.entries)
    (hperm : ((sortEntries b.entries).map (·.id)).Perm ((st.linesOf t).map (·.id))) :
    sortEntries b.entries = st.linesOf t := by
  have hin : ∀ e ∈ sortEntries b.entries, e ∈ st.entries := fun e he =>
    hstored e ((sortEntries_perm _).mem_iff.mp he)
  have hn := nodup_linesOf hst.ids t
  have hlines : (sortEntries b.entries).Perm (st.linesOf t) := by
    rw [List.perm_ext_iff_of_nodup (hperm.nodup_iff.mpr hn).of_map hn.of_map]
    intro e
    constructor
    · intro he
      obtain ⟨e', he', hid⟩ := List.mem_map.mp (hperm.mem_iff.mp (List.mem_map_of_mem he))
      rwa [List.inj_on_of_nodup_map hst.ids (hin e he) (mem_linesOf.mp he').1 hid.symm]
    · intro he
      obtain ⟨e', he', hid⟩ := List.mem_map.mp (hperm.mem_iff.mpr (List.mem_map_of_mem he))
      rwa [List.inj_on_of_nodup_map hst.ids (mem_linesOf.mp he).1 (hin e' he') hid.symm]
  refine hlines.eq_of_pairwise (fun a b ha hb hab hba => ?_) (pairwise_sortEntries _)
    ((hst.ordered t).imp fun h => h.1)
  -- two lines that tie in the order are one
  by_contra hne
  have hsymm : Std.Symm fun a b : LogEntry => entryStreamOrderLe a b = true → entryStreamOrderLe b a = false :=
    ⟨fun x y h hyx => by
      cases hxy : entryStreamOrderLe x y with
      | false => rfl
      | true => rw [h hxy] at hyx; cases hyx⟩
  have hapart : (st.linesOf t).Pairwise fun a b => entryStreamOrderLe a b = true → entryStreamOrderLe b a = false :=
    (hst.ordered t).imp fun h _ => h.2
  have hfalse := hapart.forall (hlines.mem_iff.mp ha) hb hne hab
  rw [hba] at hfalse
  cases hfalse

/-- **What the skip leaves alone is as it would be written**, when the tables are as they were written. -/
theorem sound_asWritten (hw : w.CollisionFree) (hst : st.AsWritten w)
    (hnone : (((windowArgs w c st floor hi hiP).kept [] (windowGroups w c st floor hi hiP)).flatMap
      Group.ids).Nodup) :
    (windowArgs w c st floor hi hiP).Sound w st
      ((windowArgs w c st floor hi hiP).kept [] (windowGroups w c st floor hi hiP)) := by
  have hstored : ∀ p ∈ (windowArgs w c st floor hi hiP).stored, p ∈ st.txns := by
    intro p hp
    have hp' : p ∈ st.storedRows c floor hi := hp
    unfold Store.storedRows at hp'
    split at hp'
    · exact (List.mem_filter.mp hp').1
    · exact absurd hp' List.not_mem_nil
  have hrow : ∀ g p r, (windowArgs w c st floor hi hiP).prior g = some p → r ∈ st.txns → r.id = g → r = p := by
    intro g p r hp hr hid
    obtain ⟨hmem, hpid⟩ := prior_eq_some hp
    exact List.inj_on_of_nodup_map hst.rows hr (hstored p hmem) (hid.trans hpid.symm)
  -- the digests match, so the group is the transaction's own list of lines
  have hlines : ∀ g ∈ (windowArgs w c st floor hi hiP).kept [] (windowGroups w c st floor hi hiP),
      (windowArgs w c st floor hi hiP).sameMembers w g = true → g.2 = st.linesOf g.1 := by
    intro g hg hsame
    obtain ⟨b, hb, hsorted⟩ := mem_assignIds (mem_kept hg).1
    have hread : ∀ e ∈ b.entries, e ∈ st.entries := by
      intro e he
      have hrows := mem_of_mem_group (readOrder_nodup hst.ids _) hb he
      exact (List.mem_filter.mp ((readOrder_perm _).mem_iff.mp hrows)).1
    unfold PersistArgs.sameMembers at hsame
    cases hp : (windowArgs w c st floor hi hiP).prior g.1 with
    | none =>
      rw [hp] at hsame
      cases hsame
    | some p =>
      rw [hp] at hsame
      obtain ⟨hmem, hid⟩ := prior_eq_some hp
      have hdigest := hst.members p (hstored p hmem) _ (of_decide_eq_true hsame)
      rw [hid] at hdigest
      have hperm : (g.2.map (·.id)).Perm ((st.linesOf g.1).map (·.id)) := (members_eq_iff hw).mp hdigest
      rw [hsorted] at hperm ⊢
      exact lines_of_perm hst hread hperm
  have hmembers : ∀ g, (windowArgs w c st floor hi hiP).unchanged w g = true →
      (windowArgs w c st floor hi hiP).sameMembers w g = true := by
    intro g hun
    unfold PersistArgs.unchanged at hun
    unfold PersistArgs.sameMembers
    cases hp : (windowArgs w c st floor hi hiP).prior g.1 with
    | none =>
      rw [hp] at hun
      cases hun
    | some p =>
      rw [hp] at hun
      exact decide_eq_true (of_decide_eq_true hun).2
  refine ⟨fun g hg p hp r hr hid => ?_, fun pre g post hsplit hsame i hmem _ => ⟨fun g' hg' _ hmem' => ?_, ?_⟩,
    fun g hg hsame i howner => ⟨g, hg, ?_⟩⟩
  · obtain rfl := hrow g.1 p r hp hr hid
    cases hun : (windowArgs w c st floor hi hiP).unchanged w g with
    | false => exact .inr ⟨rfl, rfl⟩
    | true =>
      have hown := hlines g hg (hmembers g hun)
      unfold PersistArgs.unchanged at hun
      rw [hp] at hun
      obtain ⟨hfp, hmfp⟩ := of_decide_eq_true hun
      obtain ⟨zone, hvalues, hdigest⟩ := hst.derived r hr _ hfp
      -- one digest: one zone and one flag, and so the same values of the same lines
      obtain ⟨hsealed, rfl⟩ := rowIn_inj hw hdigest.symm
      rw [hid, ← hown] at hvalues
      obtain ⟨id, values, isSealed, rowFp, membersFp⟩ := r
      simp only at hid hvalues hsealed hfp hmfp
      rw [hid, hvalues, hsealed, hfp, hmfp]
      exact .inl rfl
  · rw [hsplit, List.flatMap_append, List.nodup_append] at hnone
    exact hnone.2.2 i (List.mem_flatMap.mpr ⟨g', hg', hmem'⟩) i
      (List.mem_flatMap.mpr ⟨g, List.mem_cons_self, hmem⟩) rfl
  · have hg : g ∈ (windowArgs w c st floor hi hiP).kept [] (windowGroups w c st floor hi hiP) := by
      rw [hsplit]
      exact List.mem_append_right _ List.mem_cons_self
    have hown := hlines g hg hsame
    unfold Group.ids at hmem ⊢
    rw [hown] at hmem ⊢
    obtain ⟨e, he, rfl⟩ := List.mem_map.mp hmem
    exact hst.numbered g.1 e he
  · obtain ⟨e, he, rfl⟩ := List.mem_map.mp (hst.stored i g.1 howner)
    unfold Group.ids
    rw [hlines g hg hsame]
    exact List.mem_map_of_mem (mem_linesOf.mpr ⟨he, howner⟩)

end Written

/-! ## §7. Lines stored in order, and in another one. -/

/-- A line of one thread and user. -/
def threadLine (id : UUID) (t : Instant) (kind : EntryType) (hash : String) : LogEntry :=
  { hashedLine id kind hash with timestamp := some t, thread := some "12", userCtx := some "CPRICE" }

/-- A request and the call it makes. -/
def requestAndCall : List LogEntry := [threadLine 1 0 .request "a", threadLine 2 1 .miCall "b"]

/-- Transaction 10 owns both, with the places the other way round; its digests are those of both. -/
def swappedLines : Store Nat where
  entries := requestAndCall
  assigned := fun id => if id = 1 then some (10, 1) else if id = 2 then some (10, 0) else none
  txns := [freshRow countingWorld (some (1 - 900 * second, 1 - 3600 * second)) (10, requestAndCall)]

/-- The skip is an equivalent optimisation in every state and window. -/
def SkipAlwaysEquivalent : Prop :=
  ∀ (w : World Nat) (c : Settings) (st : Store Nat) (lo hi : Instant), SkipEquivalent w c st lo hi

/-- Transaction 10 owns both, in their order, and transaction 20 a line of another hour. -/
def inOrder : Store Payload where
  entries := requestAndCall ++ [threadLine 3 (3600 * second) .request "cc"]
  assigned := fun id =>
    if id = 1 then some (10, 0) else if id = 2 then some (10, 1) else if id = 3 then some (20, 0) else none
  txns :=
    [freshRow payloadWorld (some (1 - 900 * second, 1 - 3600 * second)) (10, requestAndCall),
      freshRow payloadWorld none (20, [threadLine 3 (3600 * second) .request "cc"])]

theorem asWritten_inOrder : inOrder.AsWritten payloadWorld where
  ids := by decide
  rows := by decide
  stored i t h := by
    have hknown : i = 1 ∨ i = 2 ∨ i = 3 := by
      by_contra hnot
      simp only [not_or] at hnot
      simp [inOrder, Owners.owner, hnot] at h
    rcases hknown with rfl | rfl | rfl
    · decide
    · decide
    · decide
  members r hr fp hfp := by
    cases List.mem_cons.mp hr with
    | inl h =>
      subst h
      exact (Option.some.inj hfp).symm
    | inr h =>
      cases List.mem_singleton.mp h
      exact (Option.some.inj hfp).symm
  derived r hr fp hfp := by
    cases List.mem_cons.mp hr with
    | inl h =>
      subst h
      exact ⟨payloadWorld.timezone, rfl, (Option.some.inj hfp).symm⟩
    | inr h =>
      cases List.mem_singleton.mp h
      exact ⟨payloadWorld.timezone, rfl, (Option.some.inj hfp).symm⟩
  numbered t e he := by
    have hall : ∀ e ∈ inOrder.entries, ∀ t ∈ inOrder.assigned.owner e.id,
        inOrder.assigned e.id = some (t, ((inOrder.linesOf t).map (·.id)).idxOf e.id) := by decide +kernel
    obtain ⟨hmem, howner⟩ := mem_linesOf.mp he
    exact hall e hmem t howner
  ordered t := by
    have hall : ∀ e ∈ inOrder.entries, ∀ t ∈ inOrder.assigned.owner e.id,
        (inOrder.linesOf t).Pairwise before := by decide +kernel
    cases hlines : inOrder.linesOf t with
    | nil => exact List.Pairwise.nil
    | cons e es =>
      obtain ⟨hmem, howner⟩ := mem_linesOf.mp (hlines ▸ List.mem_cons_self : e ∈ inOrder.linesOf t)
      exact hlines ▸ hall e hmem t howner

instance {w : World Payload} {c : Settings} {st : Store Payload} {lo hi : Instant} [DecidableEq Payload] :
    Decidable (SharesNoLine w c st lo hi) :=
  Option.decidableForallMem _

end RagPipeline.Stage2
