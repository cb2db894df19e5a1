/-
  RagPipeline.Stage2.Lossless — what a windowed rebuild does to the ownership of lines.

  The transactions a window frees are selected by their START; the lines it reads again by their own
  TIMESTAMP.  A line that a freed transaction owns and the window does not read, or reads and does not
  put into a group that is written, has no owner afterwards — and no exception says so.

    * `Rehomed`           — the line is in a written group, or its transaction keeps its members;
    * `rebuild_owned_iff` — an owned line is owned afterwards exactly when its transaction was not freed
                            or the line is rehomed;
    * `lossless_iff`      — the same for `regroup_window`, with its floor;
    * `FitWindow`         — timestamps inside the padded window, lines the grouper keeps, ids that are free:
                            then nothing is lost (`lossless_of_fit`).
-/
import RagPipeline.Stage2.Identity
import RagPipeline.Stage2.Regroup

namespace RagPipeline.Stage2

open RagPipeline.Lib

variable {Fp : Type} [DecidableEq Fp]

/-! ## §1. Statement. -/

/-- Every line that was owned and is still there is owned by exactly one transaction. -/
def KeepsOwners (st st' : Store Fp) : Prop :=
  ∀ e ∈ st'.entries, (∃ t, st.Owns t e) → ∃! t, st'.Owns t e

/-- A run of `regroup_window` that commits keeps the owners; one that raises commits nothing. -/
def LosslessWindow (w : World Fp) (c : Settings) (st : Store Fp) (lo hi : Instant) : Prop :=
  ∀ done, regroupWindow w c st lo hi = some done → KeepsOwners st done.store

/-- The line is in a group that is kept and written, or its transaction is the id of a kept group whose
    members have the stored digest. -/
def Rehomed (w : World Fp) (c : Settings) (st : Store Fp) (floor hi hiP : Instant) (t : UUID)
    (e : LogEntry) : Prop :=
  ∃ g ∈ (windowArgs w c st floor hi hiP).kept [] (windowGroups w c st floor hi hiP),
    ((windowArgs w c st floor hi hiP).sameMembers w g = false ∧ e.id ∈ g.ids) ∨
      ((windowArgs w c st floor hi hiP).sameMembers w g = true ∧ g.1 = t)

/-! ## §2. The tables of a rebuild. -/

section Rebuild

variable {w : World Fp} {c : Settings} {st : Store Fp} {floor hi hiP : Instant}

omit [DecidableEq Fp] in
/-- The stored rows have freed ids. -/
theorem freed_of_stored {t : UUID} (h : t ∈ (st.storedRows c floor hi).map TxnRow.id) :
    t ∈ st.freedIds floor hi := by
  obtain ⟨r, hr, rfl⟩ := List.mem_map.mp h
  unfold Store.storedRows at hr
  split at hr
  · exact of_decide_eq_true (List.mem_filter.mp hr).2
  · exact absurd hr List.not_mem_nil

omit [DecidableEq Fp] in
/-- When the rows stay, every freed id is stored. -/
theorem stored_of_freed {t : UUID} (hk : st.keepsRows c floor hi = true)
    (h : t ∈ st.freedIds floor hi) : t ∈ (st.storedRows c floor hi).map TxnRow.id := by
  obtain ⟨r, hr, rfl⟩ := List.mem_map.mp h
  unfold Store.storedRows
  rw [if_pos hk]
  exact List.mem_map_of_mem (List.mem_filter.mpr ⟨(List.mem_filter.mp hr).1, decide_eq_true h⟩)

omit [DecidableEq Fp] in
theorem stored_eq_nil (hk : st.keepsRows c floor hi = false) : st.storedRows c floor hi = [] := by
  unfold Store.storedRows
  rw [hk]
  rfl

omit [DecidableEq Fp] in
theorem cleared_eq (hk : st.keepsRows c floor hi = true) : st.cleared c floor hi = st := by
  unfold Store.cleared
  rw [if_pos hk]

omit [DecidableEq Fp] in
/-- What is not freed is not touched by the clearing. -/
theorem cleared_owns {t : UUID} {e : LogEntry} (ht : t ∉ st.freedIds floor hi) (ho : st.Owns t e) :
    (st.cleared c floor hi).Owns t e := by
  unfold Store.cleared
  split
  · exact ho
  · obtain ⟨howner, r, hr, rfl⟩ := ho
    constructor
    · obtain ⟨n, hn⟩ := Owners.owner_eq_some.mp howner
      have hkept : st.assigned.release (fun t => decide (t ∈ st.freedIds floor hi)) e.id =
          some (r.id, n) := Owners.release_eq_some.mpr ⟨hn, by simpa using ht⟩
      exact Owners.owner_eq_some.mpr ⟨n, hkept⟩
    · exact ⟨r, List.mem_filter.mpr ⟨hr, by simpa using ht⟩, rfl⟩

omit [DecidableEq Fp] in
/-- Without the skip the lines of a freed transaction have no owner any more. -/
theorem cleared_unassigned {t : UUID} {e : LogEntry} (hk : st.keepsRows c floor hi = false)
    (ht : t ∈ st.freedIds floor hi) (ho : st.Owns t e) :
    (st.cleared c floor hi).assigned e.id = none := by
  unfold Store.cleared
  rw [hk]
  have hgone : st.assigned.release (fun t => decide (t ∈ st.freedIds floor hi)) e.id = none :=
    Owners.release_of ho.1 (decide_eq_true ht)
  exact hgone

omit [DecidableEq Fp] in
/-- The rows the rebuild compares with are rows of the table. -/
theorem windowArgs_reads :
    (windowArgs w c st floor hi hiP).Reads (st.cleared c floor hi) := by
  intro t ht
  cases hk : st.keepsRows c floor hi with
  | true =>
    rw [cleared_eq hk]
    obtain ⟨r, hr, rfl⟩ := List.mem_map.mp (freed_of_stored ht)
    exact ⟨r, (List.mem_filter.mp hr).1, rfl⟩
  | false =>
    have hnil : (windowArgs w c st floor hi hiP).stored = [] := stored_eq_nil hk
    rw [hnil] at ht
    exact absurd ht List.not_mem_nil

omit [DecidableEq Fp] in
/-- No line, no group. -/
theorem windowGroups_nil (h : st.windowRows c floor hi hiP = []) :
    windowGroups w c st floor hi hiP = [] := by
  unfold windowGroups
  rw [h]
  rfl

/-- **Ownership after a rebuild.** -/
theorem rebuild_owned_iff {t : UUID} {e : LogEntry} (ho : st.Owns t e) :
    (∃ t', (rebuild w c st floor hi hiP).Owns t' e) ↔
      t ∉ st.freedIds floor hi ∨ Rehomed w c st floor hi hiP t e := by
  have hstored : ∀ {t}, t ∈ (st.storedRows c floor hi).map TxnRow.id → t ∈ st.freedIds floor hi :=
    freed_of_stored
  unfold rebuild
  split
  · next hrows =>
    -- nothing is read: what is freed is deleted, and nothing is written
    have hno : ¬Rehomed w c st floor hi hiP t e := by
      rintro ⟨g, hg, -⟩
      rw [windowGroups_nil hrows] at hg
      exact absurd hg List.not_mem_nil
    simp only [hno, or_false]
    constructor
    · rintro ⟨t', howner, -⟩ ht
      have hnone : (st.cleared c floor hi).assigned.release
          (fun t => decide (t ∈ (st.storedRows c floor hi).map TxnRow.id)) e.id = none := by
        cases hk : st.keepsRows c floor hi with
        | true =>
          rw [cleared_eq hk]
          exact Owners.release_of ho.1 (decide_eq_true (stored_of_freed hk ht))
        | false =>
          rw [Owners.release, cleared_unassigned hk ht ho]
          rfl
      exact absurd (howner.symm.trans (Owners.owner_eq_none.mpr hnone)) (by simp)
    · intro ht
      obtain ⟨howner, r, hr, rfl⟩ := cleared_owns (c := c) ht ho
      obtain ⟨n, hn⟩ := Owners.owner_eq_some.mp howner
      have hfree : r.id ∉ (st.storedRows c floor hi).map TxnRow.id := fun hs => ht (hstored hs)
      have hkept : (st.cleared c floor hi).assigned.release
          (fun t => decide (t ∈ (st.storedRows c floor hi).map TxnRow.id)) e.id = some (r.id, n) :=
        Owners.release_eq_some.mpr ⟨hn, by simpa using hfree⟩
      exact ⟨r.id, Owners.owner_eq_some.mpr ⟨n, hkept⟩, r,
        List.mem_filter.mpr ⟨hr, decide_eq_true hfree⟩, rfl⟩
  · by_cases ht : t ∈ st.freedIds floor hi
    -- the transaction is freed; with the skip it is a stored row, without it its lines are unassigned
    · simp only [ht, not_true_eq_false, false_or]
      cases hk : st.keepsRows c floor hi with
      | true =>
        have hin : (st.cleared c floor hi).Owns t e := by
          rw [cleared_eq hk]
          exact ho
        rw [persist_owned_iff windowArgs_reads hin]
        constructor
        · rintro (⟨g, hg, hdiff, hmem⟩ | hnot | ⟨g, hg, heq, hsame⟩)
          · exact ⟨g, hg, Or.inl ⟨hdiff, hmem⟩⟩
          · exact absurd (stored_of_freed hk ht) hnot
          · exact ⟨g, hg, Or.inr ⟨hsame, heq⟩⟩
        · rintro ⟨g, hg, ⟨hdiff, hmem⟩ | ⟨hsame, heq⟩⟩
          · exact Or.inl ⟨g, hg, hdiff, hmem⟩
          · exact Or.inr (Or.inr ⟨g, hg, heq, hsame⟩)
      | false =>
        rw [persist_unowned_iff windowArgs_reads (cleared_unassigned hk ht ho)]
        constructor
        · rintro ⟨g, hg, hdiff, hmem⟩
          exact ⟨g, hg, Or.inl ⟨hdiff, hmem⟩⟩
        · rintro ⟨g, hg, ⟨hdiff, hmem⟩ | ⟨hsame, -⟩⟩
          · exact ⟨g, hg, hdiff, hmem⟩
          · -- nothing is stored, so no digest is compared
            have hprior : (windowArgs w c st floor hi hiP).prior g.1 = none := by
              rw [prior_eq_none]
              show g.1 ∉ (st.storedRows c floor hi).map TxnRow.id
              rw [stored_eq_nil hk]
              exact List.not_mem_nil
            simp [PersistArgs.sameMembers, hprior] at hsame
    · simp only [ht, not_false_eq_true, true_or, iff_true]
      exact (persist_owned_iff windowArgs_reads (cleared_owns ht ho)).mpr
        (Or.inr (Or.inl fun hs => ht (hstored hs)))

end Rebuild

/-! ## §3. `regroup_window`. -/

/-- What a lossless window does with a line of a freed transaction. -/
theorem rehomed_of_lossless {w : World Fp} {c : Settings} {st : Store Fp} {lo hi floor : Instant}
    (h : LosslessWindow w c st lo hi) (hfloor : crossPadFloor c st (lo - c.pad) (hi + c.pad) = some floor)
    {e : LogEntry} (he : e ∈ st.entries) {t : UUID} (ht : t ∈ st.freedIds floor hi)
    (howner : st.assigned.owner e.id = some t) : Rehomed w c st floor hi (hi + c.pad) t e := by
  have hlive : st.Live t := by
    obtain ⟨r, hr, rfl⟩ := List.mem_map.mp ht
    exact ⟨r, (List.mem_filter.mp hr).1, rfl⟩
  have hdone : regroupWindow w c st lo hi = some
      { store := rebuild w c st floor hi (hi + c.pad), published := [(floor, hi + c.pad)] } := by
    unfold regroupWindow
    rw [hfloor]
    rfl
  have ho : st.Owns t e := ⟨howner, hlive⟩
  obtain ⟨t', ht', -⟩ := h _ hdone e (by rw [rebuild_entries]; exact he) ⟨t, ho⟩
  rcases (rebuild_owned_iff ho).mp ⟨t', ht'⟩ with hnot | hre
  · exact absurd ht hnot
  · exact hre

/-- A window that rehomes every line of a freed transaction is lossless. -/
theorem lossless_of_rehomed {w : World Fp} {c : Settings} {st : Store Fp} {lo hi : Instant}
    (h : ∀ floor, crossPadFloor c st (lo - c.pad) (hi + c.pad) = some floor →
      ∀ e ∈ st.entries, ∀ t ∈ st.freedIds floor hi, st.assigned.owner e.id = some t →
        Rehomed w c st floor hi (hi + c.pad) t e) : LosslessWindow w c st lo hi := by
  intro done hdone e he ⟨t, ho⟩
  obtain ⟨floor, hfloor, rfl⟩ := Option.map_eq_some_iff.mp hdone
  have hin : e ∈ st.entries := by rwa [rebuild_entries] at he
  have hafter : ∃ t', (rebuild w c st floor hi (hi + c.pad)).Owns t' e := by
    rw [rebuild_owned_iff ho]
    by_cases ht : t ∈ st.freedIds floor hi
    · exact Or.inr (h floor hfloor e hin t ht ho.1)
    · exact Or.inl ht
  obtain ⟨t', ht'⟩ := hafter
  exact ⟨t', ht', fun u hu => Store.owns_unique hu ht'⟩

omit [DecidableEq Fp] in
/-- What is rehomed by a written group was read again: it has a timestamp, inside the padded window. -/
theorem read_of_rehomed {w : World Fp} {c : Settings} {st : Store Fp} {floor hi hiP : Instant}
    (hids : (st.entries.map (·.id)).Nodup) {g : Group}
    (hg : g ∈ (windowArgs w c st floor hi hiP).kept [] (windowGroups w c st floor hi hiP))
    {e : LogEntry} (he : e ∈ st.entries) (hmem : e.id ∈ g.ids) :
    ∃ t, e.timestamp = some t ∧ floor ≤ t ∧ t ≤ hiP := by
  obtain ⟨b, hb, hlines⟩ := mem_assignIds (mem_kept hg).1
  obtain ⟨e', he', heq⟩ := List.mem_map.mp hmem
  rw [hlines] at he'
  have hread := mem_of_mem_group (readOrder_nodup hids _) hb
    ((sortEntries_perm _).mem_iff.mp he')
  obtain ⟨hin, hwin⟩ := List.mem_filter.mp ((readOrder_perm _).mem_iff.mp hread)
  obtain rfl : e' = e := List.inj_on_of_nodup_map hids hin he heq
  rw [Bool.and_eq_true] at hwin
  exact within_iff.mp hwin.1

/-- A window that loses nothing reads every line of a freed transaction again, or finds the stored digest of
    that transaction. -/
theorem read_of_lossless {w : World Fp} {c : Settings} {st : Store Fp} {lo hi floor : Instant}
    (hids : (st.entries.map (·.id)).Nodup) (h : LosslessWindow w c st lo hi)
    (hfloor : crossPadFloor c st (lo - c.pad) (hi + c.pad) = some floor) {e : LogEntry} (he : e ∈ st.entries)
    {t : UUID} (ht : t ∈ st.freedIds floor hi) (howner : st.assigned.owner e.id = some t) :
    (∃ x, e.timestamp = some x ∧ floor ≤ x ∧ x ≤ hi + c.pad) ∨
      ∃ g ∈ windowGroups w c st floor hi (hi + c.pad),
        (windowArgs w c st floor hi (hi + c.pad)).sameMembers w g = true ∧ g.1 = t := by
  obtain ⟨g, hg, ⟨-, hmem⟩ | ⟨hsame, hid⟩⟩ := rehomed_of_lossless h hfloor he ht howner
  · exact .inl (read_of_rehomed hids hg he hmem)
  · exact .inr ⟨g, (mem_kept hg).1, hsame, hid⟩

/-! ## §4. Windows that are fit. -/

omit [DecidableEq Fp] in
/-- Where no id is taken or comes twice, every group is kept. -/
theorem kept_of_fresh {a : PersistArgs Fp} {seen : List UUID} {gs : List Group} (hnodup : (gs.map Prod.fst).Nodup)
    (hseen : ∀ g ∈ gs, g.1 ∉ seen) (hclash : ∀ g ∈ gs, a.clash g.1 = false) : a.kept seen gs = gs := by
  induction gs generalizing seen with
  | nil => rfl
  | cons g gs ih =>
    rw [List.map_cons, List.nodup_cons] at hnodup
    obtain ⟨hg, hrest⟩ := List.forall_mem_cons.mp hclash
    have hfree : ¬(g.1 ∈ seen ∨ a.clash g.1 = true) := by
      rintro (hin | htrue)
      · exact hseen g List.mem_cons_self hin
      · rw [hg] at htrue
        exact absurd htrue (by simp)
    unfold PersistArgs.kept
    rw [if_neg hfree, ih hnodup.2 ?_ hrest]
    intro g' hg' hin
    rcases List.mem_cons.mp hin with heq | hin
    · exact hnodup.1 (heq ▸ List.mem_map_of_mem hg')
    · exact hseen g' (List.mem_cons_of_mem _ hg') hin

omit [DecidableEq Fp] in
theorem exists_assignIds {w : World Fp} (cont : Continuity) {bs : List TxnBuilder} {b : TxnBuilder} (h : b ∈ bs) :
    ∃ g ∈ assignIds w cont bs, g.2 = sortEntries b.entries := by
  have hlen : (assignIds w cont bs).map Prod.snd = bs.map fun b => sortEntries b.entries := by
    unfold assignIds
    rw [List.map_snd_zip]
    simp
  have hmem : sortEntries b.entries ∈ (assignIds w cont bs).map Prod.snd := by
    rw [hlen]
    exact List.mem_map_of_mem h
  obtain ⟨g, hg, heq⟩ := List.mem_map.mp hmem
  exact ⟨g, hg, heq⟩

/-- The members digest of a stored row is that of lines it owns. -/
def Store.DigestsTrue (w : World Fp) (st : Store Fp) : Prop :=
  ∀ r ∈ st.txns, ∀ ids, r.membersFingerprint = some (w.members ids) → ∀ id ∈ ids, st.assigned.owner id = some r.id

/-- What a window has to be given: the ids its groups get are new and come once, and every line of a freed
    transaction lies in the padded window and is kept by the grouper. -/
structure FitWindow (w : World Fp) (c : Settings) (st : Store Fp) (floor hi hiP : Instant) : Prop where
  once : ((windowGroups w c st floor hi hiP).map Prod.fst).Nodup
  fresh : ∀ g ∈ windowGroups w c st floor hi hiP, (windowArgs w c st floor hi hiP).clash g.1 = false
  read : ∀ e ∈ st.entries, ∀ t ∈ st.freedIds floor hi, st.assigned.owner e.id = some t →
    within floor hiP e.timestamp = true
  grouped : ∀ e ∈ st.windowRows c floor hi hiP,
    ∃ b ∈ group c.logOpenGap {} (st.windowRows c floor hi hiP), e ∈ b.entries

omit [DecidableEq Fp] in
/-- A line of a freed transaction inside the padded window is read again. -/
theorem mem_windowRows {c : Settings} {st : Store Fp} {floor hi hiP : Instant} {e : LogEntry} {t : UUID}
    (he : e ∈ st.entries) (ht : t ∈ st.freedIds floor hi) (howner : st.assigned.owner e.id = some t)
    (hwithin : within floor hiP e.timestamp = true) : e ∈ st.windowRows c floor hi hiP := by
  have heligible : st.eligible c floor hi hiP e = true := by
    unfold Store.eligible
    cases hk : st.keepsRows c floor hi with
    | true =>
      have hany : (st.entries.any fun e' => decide (e'.id = e.id) &&
          (e'.timestamp.isNone || within floor hiP e'.timestamp)) = true := by
        refine List.any_eq_true.mpr ⟨e, he, ?_⟩
        rw [hwithin]
        simp
      have howners : st.ownersInWindow floor hiP e.id = some t := by
        unfold Store.ownersInWindow
        rw [if_pos hany, howner]
      simp [howners, ht]
    | false =>
      obtain ⟨r, hr, rfl⟩ := List.mem_map.mp ht
      have hnone := cleared_unassigned hk ht ⟨howner, r, (List.mem_filter.mp hr).1, rfl⟩
      simp [Store.isUnassigned, hnone]
  refine (readOrder_perm _).mem_iff.mpr (List.mem_filter.mpr ⟨he, ?_⟩)
  rw [hwithin, heligible]
  rfl

/-- **A window that is fit loses nothing.** -/
theorem lossless_of_fit {w : World Fp} {c : Settings} {st : Store Fp} {lo hi : Instant} (htrue : st.DigestsTrue w)
    (h : ∀ floor, crossPadFloor c st (lo - c.pad) (hi + c.pad) = some floor →
      FitWindow w c st floor hi (hi + c.pad)) : LosslessWindow w c st lo hi := by
  refine lossless_of_rehomed fun floor hfloor e he t ht howner => ?_
  obtain ⟨honce, hfresh, hread, hgrouped⟩ := h floor hfloor
  have hin := mem_windowRows (c := c) he ht howner (hread e he t ht howner)
  obtain ⟨b, hb, hmem⟩ := hgrouped e hin
  obtain ⟨g, hg, hlines⟩ := exists_assignIds (w := w)
    ⟨st.ownersInWindow floor (hi + c.pad), st.freedIds floor hi⟩ hb
  have hids : e.id ∈ g.ids := by
    refine List.mem_map_of_mem ?_
    rw [hlines]
    exact (sortEntries_perm _).mem_iff.mpr hmem
  have hkept : g ∈ (windowArgs w c st floor hi (hi + c.pad)).kept [] (windowGroups w c st floor hi (hi + c.pad)) := by
    rw [kept_of_fresh honce (fun _ _ => List.not_mem_nil) hfresh]
    exact hg
  refine ⟨g, hkept, ?_⟩
  cases hsame : (windowArgs w c st floor hi (hi + c.pad)).sameMembers w g with
  | false => exact .inl ⟨rfl, hids⟩
  | true =>
    -- the stored row with this digest owns the line, so it is the transaction's own
    refine .inr ⟨rfl, ?_⟩
    unfold PersistArgs.sameMembers at hsame
    cases hprior : (windowArgs w c st floor hi (hi + c.pad)).prior g.1 with
    | none => simp [hprior] at hsame
    | some r =>
      rw [hprior] at hsame
      obtain ⟨hr, hid⟩ := prior_eq_some hprior
      have hstored : r ∈ st.txns := by
        have hr : r ∈ st.storedRows c floor hi := hr
        unfold Store.storedRows at hr
        split at hr
        · exact (List.mem_filter.mp hr).1
        · exact absurd hr List.not_mem_nil
      have howns := htrue r hstored g.ids (of_decide_eq_true hsame) e.id hids
      rw [← hid]
      exact Option.some.inj (howns.symm.trans howner)

/-! ## §5. A line without a timestamp. -/

/-- A line of transaction 10 that starts it. -/
def timedLine : LogEntry := hashedLine 1 .request "a"

/-- A line of transaction 10 without a timestamp. -/
def untimedLine : LogEntry := { hashedLine 2 .miCall "b" with timestamp := none }

/-- A world whose members digest counts the members. -/
def countingWorld : World Nat where
  digest
    | .members ids => ids.length
    | _ => 0
  uuid5 := String.length
  displayDay := fun _ _ => 0
  millis := fun d => d / 1000
  timezone := plainWorld.timezone

/-- Transaction 10 owns both. -/
def halfTimed : Store Nat where
  entries := [timedLine, untimedLine]
  assigned := fun id => if id = 1 then some (10, 0) else if id = 2 then some (10, 1) else none
  txns := [freshRow countingWorld none (10, [timedLine, untimedLine])]

/-- Every window of every state is lossless. -/
def EveryWindowLossless : Prop :=
  ∀ (w : World Nat) (c : Settings) (st : Store Nat) (lo hi : Instant), LosslessWindow w c st lo hi

end RagPipeline.Stage2
