/-
  RagPipeline.Lib.KeyedRows — a table of rows with a key, written batch by batch, and rows that are replaced
  key by key.

  A batch inserts rows and then updates some by key.  Batches that update different keys, and none of the
  rows that are inserted, do not see each other: what they leave is each row under the change of its own
  batch, and what was inserted as it was (`foldl_separate`).

  Where a key may have several rows, they are replaced as a set: `deleteAll` takes the rows of some keys away
  and counts them, `rowsOf_flatMap` says what the rows written for several keys are of each.

  Under a unique constraint an insert of several rows appends them, or fails (`insertUnique_eq_some`).
-/
import Mathlib.Data.List.Basic

namespace RagPipeline.Lib

variable {ρ ι : Type*} [DecidableEq ι] (key : ρ → ι)

/-- `UPDATE … WHERE key IN keys`. -/
def updateWhere (keys : List ι) (change : ρ → ρ) (rows : List ρ) : List ρ :=
  rows.map fun r => if key r ∈ keys then change r else r

/-- Rows that are inserted, and then an update. -/
structure Batch (ρ ι : Type*) where
  inserted : List ρ
  keys : List ι
  change : ρ → ρ

/-- The table after a batch. -/
def Batch.apply (b : Batch ρ ι) (rows : List ρ) : List ρ := updateWhere key b.keys b.change (rows ++ b.inserted)

/-- A row under the change of its batch. -/
def changed (bs : List (Batch ρ ι)) (r : ρ) : ρ :=
  match bs.find? fun b => decide (key r ∈ b.keys) with
  | some b => b.change r
  | none => r

/-- The batches do not see each other. -/
structure Separate (bs : List (Batch ρ ι)) : Prop where
  keys : bs.Pairwise fun b b' => ∀ i ∈ b.keys, i ∉ b'.keys
  kept : ∀ b ∈ bs, ∀ r, key (b.change r) = key r
  fresh : ∀ b ∈ bs, ∀ r ∈ b.inserted, ∀ b' ∈ bs, key r ∉ b'.keys

variable {key} {bs : List (Batch ρ ι)}

theorem updateWhere_nil (change : ρ → ρ) (rows : List ρ) : updateWhere key [] change rows = rows := by
  unfold updateWhere
  simp only [List.not_mem_nil, if_false, List.map_id']

theorem updateWhere_comp {keys : List ι} {f g : ρ → ρ} (hg : ∀ r, key (g r) = key r) (rows : List ρ) :
    updateWhere key keys f (updateWhere key keys g rows) = updateWhere key keys (fun r => f (g r)) rows := by
  unfold updateWhere
  rw [List.map_map]
  refine List.map_congr_left fun r _ => ?_
  by_cases h : key r ∈ keys
  · have hg' : key (g r) ∈ keys := by rwa [hg r]
    simp [h, hg']
  · simp [h]

theorem changed_of_mem {b : Batch ρ ι} {r : ρ} (h : key r ∈ b.keys) : changed key (b :: bs) r = b.change r := by
  have hfound : (b :: bs).find? (fun b => decide (key r ∈ b.keys)) = some b :=
    List.find?_cons_of_pos (decide_eq_true h)
  unfold changed
  rw [hfound]

theorem changed_of_not_mem {b : Batch ρ ι} {r : ρ} (h : key r ∉ b.keys) :
    changed key (b :: bs) r = changed key bs r := by
  have hskip : (b :: bs).find? (fun b => decide (key r ∈ b.keys)) = bs.find? fun b => decide (key r ∈ b.keys) :=
    List.find?_cons_of_neg (by simp [h])
  unfold changed
  rw [hskip]

theorem changed_of_none {r : ρ} (h : ∀ b ∈ bs, key r ∉ b.keys) : changed key bs r = r := by
  have hnone : bs.find? (fun b => decide (key r ∈ b.keys)) = none :=
    List.find?_eq_none.mpr fun b hb => by simp [h b hb]
  unfold changed
  rw [hnone]

/-- The change of the one batch that has the key. -/
theorem changed_eq (hbs : bs.Pairwise fun b b' => ∀ i ∈ b.keys, i ∉ b'.keys) {b : Batch ρ ι} (hb : b ∈ bs) {r : ρ}
    (hr : key r ∈ b.keys) : changed key bs r = b.change r := by
  induction bs with
  | nil => exact absurd hb List.not_mem_nil
  | cons b' bs ih =>
    obtain ⟨hfirst, hrest⟩ := List.pairwise_cons.mp hbs
    cases List.mem_cons.mp hb with
    | inl heq => rw [heq] at hr ⊢; exact changed_of_mem hr
    | inr hmem =>
      have hnot : key r ∉ b'.keys := fun h => hfirst b hmem _ h hr
      rw [changed_of_not_mem hnot]
      exact ih hrest hmem

theorem key_changed (hkept : ∀ b ∈ bs, ∀ r, key (b.change r) = key r) (r : ρ) : key (changed key bs r) = key r := by
  unfold changed
  cases hfind : bs.find? fun b => decide (key r ∈ b.keys) with
  | none => rfl
  | some b => exact hkept b (List.mem_of_find?_eq_some hfind) r

/-- **Each row is changed by its own batch.** -/
theorem foldl_apply (h : Separate key bs) (rows : List ρ) :
    bs.foldl (fun rows b => b.apply key rows) rows = (rows ++ bs.flatMap Batch.inserted).map (changed key bs) := by
  induction bs generalizing rows with
  | nil =>
    have hid : rows.map (changed key ([] : List (Batch ρ ι))) = rows.map id := rfl
    rw [List.flatMap_nil, List.append_nil, List.foldl_nil, hid, List.map_id]
  | cons b bs ih =>
    obtain ⟨hfirst, hrest⟩ := List.pairwise_cons.mp h.keys
    have hsep : Separate key bs := ⟨hrest, fun b' hb' => h.kept b' (List.mem_cons_of_mem _ hb'),
      fun b' hb' r hr b'' hb'' => h.fresh b' (List.mem_cons_of_mem _ hb') r hr b'' (List.mem_cons_of_mem _ hb'')⟩
    rw [List.foldl_cons, ih hsep, List.flatMap_cons, ← List.append_assoc, List.map_append, List.map_append]
    congr 1
    · unfold Batch.apply updateWhere
      rw [List.map_map]
      refine List.map_congr_left fun r _ => ?_
      by_cases hr : key r ∈ b.keys
      · -- the later batches do not have the key
        have hlater : ∀ b' ∈ bs, key (b.change r) ∉ b'.keys := by
          intro b' hb'
          rw [h.kept b List.mem_cons_self]
          exact hfirst b' hb' _ hr
        simp only [Function.comp_apply, if_pos hr, changed_of_mem hr, changed_of_none hlater]
      · simp only [Function.comp_apply, if_neg hr, changed_of_not_mem hr]
    · refine List.map_congr_left fun r hr => ?_
      obtain ⟨b', hb', hin⟩ := List.mem_flatMap.mp hr
      exact (changed_of_not_mem (h.fresh b' (List.mem_cons_of_mem _ hb') r hin b List.mem_cons_self)).symm

/-- **And what was inserted meanwhile is as it was.** -/
theorem foldl_separate (h : Separate key bs) (rows : List ρ) :
    bs.foldl (fun rows b => b.apply key rows) rows = rows.map (changed key bs) ++ bs.flatMap Batch.inserted := by
  rw [foldl_apply h, List.map_append]
  congr 1
  conv_rhs => rw [← List.map_id (bs.flatMap Batch.inserted)]
  refine List.map_congr_left fun r hr => changed_of_none fun b hb => ?_
  obtain ⟨b', hb', hin⟩ := List.mem_flatMap.mp hr
  exact h.fresh b' hb' r hin b hb

/-! ## Rows replaced as a set. -/

section Replaced

variable (key)

/-- The rows of a key. -/
def rowsOf (i : ι) (rows : List ρ) : List ρ := rows.filter fun r => decide (key r = i)

/-- `DELETE … WHERE key = i`, with the `rowcount` added to a counter. -/
def deleteWhere (s : List ρ × ℕ) (i : ι) : List ρ × ℕ :=
  (s.1.filter fun r => decide (key r ≠ i), s.2 + (rowsOf key i s.1).length)

/-- Several of them. -/
def deleteAll (rows : List ρ) (keys : List ι) : List ρ × ℕ := keys.foldl (deleteWhere key) (rows, 0)

variable {key}

theorem rowsOf_append (i : ι) (rows rows' : List ρ) :
    rowsOf key i (rows ++ rows') = rowsOf key i rows ++ rowsOf key i rows' := List.filter_append ..

variable (key) in
/-- What is left, and that every row that went was counted. -/
theorem deleteAll_spec (rows : List ρ) (keys : List ι) :
    (deleteAll key rows keys).1 = rows.filter (fun r => decide (key r ∉ keys)) ∧
      (deleteAll key rows keys).1.length + (deleteAll key rows keys).2 = rows.length := by
  have hone : ∀ (s : List ρ × ℕ) (i : ι), (deleteWhere key s i).1.length + (deleteWhere key s i).2 =
      s.1.length + s.2 := by
    intro s i
    have hsplit := List.length_eq_length_filter_add (fun r => decide (key r = i)) (l := s.1)
    have hnot : (s.1.filter fun r => !decide (key r = i)) = s.1.filter fun r => decide (key r ≠ i) := by
      refine List.filter_congr fun r _ => ?_
      exact (decide_not ..).symm
    rw [hnot] at hsplit
    unfold deleteWhere rowsOf
    dsimp only
    omega
  have hfold : ∀ (ks : List ι) (s : List ρ × ℕ), (ks.foldl (deleteWhere key) s).1 =
      s.1.filter (fun r => decide (key r ∉ ks)) ∧
        (ks.foldl (deleteWhere key) s).1.length + (ks.foldl (deleteWhere key) s).2 = s.1.length + s.2 := by
    intro ks
    induction ks with
    | nil =>
      intro s
      refine ⟨?_, rfl⟩
      simp only [List.foldl_nil, List.not_mem_nil, not_false_eq_true, decide_true, List.filter_true]
    | cons i ks ih =>
      intro s
      obtain ⟨hrows, hcount⟩ := ih (deleteWhere key s i)
      rw [List.foldl_cons]
      refine ⟨?_, hcount.trans (hone s i)⟩
      rw [hrows]
      unfold deleteWhere
      rw [List.filter_filter]
      refine List.filter_congr fun r _ => ?_
      rw [← Bool.decide_and, decide_eq_decide, List.mem_cons, not_or, and_comm]
  exact hfold keys (rows, 0)

/-- The rows of a key that is deleted. -/
theorem rowsOf_deleteAll_of_mem {i : ι} {keys : List ι} (h : i ∈ keys) (rows : List ρ) :
    rowsOf key i (deleteAll key rows keys).1 = [] := by
  rw [(deleteAll_spec key rows keys).1]
  refine List.filter_eq_nil_iff.mpr fun r hr => ?_
  have hkept := of_decide_eq_true (List.mem_filter.mp hr).2
  rw [decide_eq_true_eq]
  intro heq
  exact hkept (heq ▸ h)

/-- The rows of another key. -/
theorem rowsOf_deleteAll_of_not_mem {i : ι} {keys : List ι} (h : i ∉ keys) (rows : List ρ) :
    rowsOf key i (deleteAll key rows keys).1 = rowsOf key i rows := by
  rw [(deleteAll_spec key rows keys).1]
  unfold rowsOf
  rw [List.filter_filter]
  refine List.filter_congr fun r _ => ?_
  rw [← Bool.decide_and, decide_eq_decide]
  refine ⟨fun hboth => hboth.1, fun heq => ⟨heq, ?_⟩⟩
  rw [heq]
  exact h

variable {σ : Type*} {f : σ → ι} {g : σ → List ρ}

/-- The rows written for a key are those of the one that has it. -/
theorem rowsOf_flatMap {cs : List σ} (hn : (cs.map f).Nodup) (hkey : ∀ c ∈ cs, ∀ r ∈ g c, key r = f c) {c : σ}
    (hc : c ∈ cs) : rowsOf key (f c) (cs.flatMap g) = g c := by
  induction cs with
  | nil => exact absurd hc List.not_mem_nil
  | cons c' cs ih =>
    rw [List.map_cons, List.nodup_cons] at hn
    rw [List.flatMap_cons, rowsOf_append]
    have hrest : ∀ c ∈ cs, ∀ r ∈ g c, key r = f c := fun c hc => hkey c (List.mem_cons_of_mem _ hc)
    cases List.mem_cons.mp hc with
    | inl heq =>
      rw [heq]
      have hown : rowsOf key (f c') (g c') = g c' := List.filter_eq_self.mpr fun r hr =>
        decide_eq_true (hkey c' List.mem_cons_self r hr)
      have hnone : rowsOf key (f c') (cs.flatMap g) = [] := by
        refine List.filter_eq_nil_iff.mpr fun r hr => ?_
        obtain ⟨d, hd, hrd⟩ := List.mem_flatMap.mp hr
        rw [hrest d hd r hrd, decide_eq_true_eq]
        exact fun h => hn.1 (h ▸ List.mem_map_of_mem hd)
      rw [hown, hnone, List.append_nil]
    | inr hmem =>
      have hnone : rowsOf key (f c) (g c') = [] := by
        refine List.filter_eq_nil_iff.mpr fun r hr => ?_
        rw [hkey c' List.mem_cons_self r hr, decide_eq_true_eq]
        exact fun h => hn.1 (h ▸ List.mem_map_of_mem hmem)
      rw [hnone, List.nil_append]
      exact ih hn.2 hrest hmem

/-- Nothing is written for another key. -/
theorem rowsOf_flatMap_other {cs : List σ} (hkey : ∀ c ∈ cs, ∀ r ∈ g c, key r = f c) {i : ι}
    (hi : ∀ c ∈ cs, f c ≠ i) : rowsOf key i (cs.flatMap g) = [] := by
  refine List.filter_eq_nil_iff.mpr fun r hr => ?_
  obtain ⟨c, hc, hrc⟩ := List.mem_flatMap.mp hr
  rw [hkey c hc r hrc, decide_eq_true_eq]
  exact hi c hc

end Replaced

/-! ## Rows under a unique constraint. -/

section Unique

variable (key)

/-- `INSERT` of several rows under `UNIQUE (key)`. -/
def insertUnique (rows new : List ρ) : Option (List ρ) :=
  new.foldlM (fun rows r => if key r ∈ rows.map key then none else some (rows ++ [r])) rows

variable {key}

theorem insertUnique_cons {rows new : List ρ} {r : ρ} :
    insertUnique key rows (r :: new) =
      if key r ∈ rows.map key then none else insertUnique key (rows ++ [r]) new := by
  unfold insertUnique
  rw [List.foldlM_cons]
  by_cases h : key r ∈ rows.map key
  · rw [if_pos h, if_pos h]
    rfl
  · rw [if_neg h, if_neg h]
    rfl

/-- **The rows are appended, exactly when no two of them share a key and none has one that is there.** -/
theorem insertUnique_eq_some {rows new rows' : List ρ} : insertUnique key rows new = some rows' ↔
    rows' = rows ++ new ∧ (new.map key).Nodup ∧ ∀ r ∈ new, key r ∉ rows.map key := by
  induction new generalizing rows with
  | nil =>
    have hnil : insertUnique key rows [] = some rows := rfl
    rw [hnil, List.append_nil, Option.some_inj]
    exact ⟨fun h => ⟨h.symm, List.nodup_nil, fun _ hr => absurd hr List.not_mem_nil⟩, fun h => h.1.symm⟩
  | cons r new ih =>
    rw [insertUnique_cons]
    by_cases h : key r ∈ rows.map key
    · rw [if_pos h]
      exact ⟨nofun, fun hall => absurd h (hall.2.2 r List.mem_cons_self)⟩
    · rw [if_neg h, ih, List.append_assoc, List.singleton_append, List.map_cons, List.nodup_cons]
      simp only [List.map_append, List.mem_append, List.map_singleton, List.mem_singleton, not_or]
      constructor
      · intro hall
        obtain ⟨happ, hnodup, hfresh⟩ := hall
        refine ⟨happ, ⟨fun hin => ?_, hnodup⟩, fun r' hr' => ?_⟩
        · obtain ⟨r', hr', heq⟩ := List.mem_map.mp hin
          exact (hfresh r' hr').2 heq
        · cases List.mem_cons.mp hr' with
          | inl heq => rw [heq]; exact h
          | inr hmem => exact (hfresh r' hmem).1
      · intro hall
        obtain ⟨happ, ⟨hnew, hnodup⟩, hfresh⟩ := hall
        refine ⟨happ, hnodup, fun r' hr' => ⟨hfresh r' (List.mem_cons_of_mem _ hr'), fun heq => ?_⟩⟩
        exact hnew (heq ▸ List.mem_map_of_mem hr')

end Unique

end RagPipeline.Lib
