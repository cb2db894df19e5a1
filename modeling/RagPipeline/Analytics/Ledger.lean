/-
  RagPipeline.Analytics.Ledger — the ledger the fold writes beside the facts.

  Every verdict that writes a fact appends the version it wrote, a reversal the version it took away, in the
  transaction of the fold.  A version has the fact's columns, a revision and a reason; the order of the list
  is the order of writing.

    * `Run.record`           — one run, with its ledger;
    * `ledgered_record`      — the facts stay the replay of the ledger;
    * `ledger_replays_iff`   — over every sequence of runs.  The revisions of a key increase until the key
                               comes back after a reversal: it is inserted at revision 1 again.
-/
import RagPipeline.Analytics.Capture
import RagPipeline.Lib.Ledger

namespace RagPipeline.Analytics

open RagPipeline.Stage2 RagPipeline.Lib

variable {Fp : Type} [DecidableEq Fp] {fw : FoldWorld Fp}

/-! ## §1. One run. -/

/-- A fact that is taken away, as the ledger records it. -/
def Fact.retire (f : Fact fw) : Fact fw := { f with revision := f.revision + 1 }

/-- How the fold numbers versions. -/
def numbering (fw : FoldWorld Fp) : Numbering (folding fw) where
  revision := Fact.revision
  retire := Fact.retire
  key_retire _ := rfl
  revision_fresh _ := rfl
  revision_revise _ _ := rfl
  revision_retire _ := rfl

/-- `analytics_facts` and `analytics_fact_ledger`. -/
structure Recorded (fw : FoldWorld Fp) where
  facts : Facts fw := Table.empty
  ledger : List (Version (Fact fw)) := []

/-- **One run**, with what `_apply` appends to the ledger; a run that fails is rolled back. -/
def Run.record (j : Run Fp) (b : Recorded fw) : Recorded fw :=
  match j.fold b.facts with
  | some facts => ⟨facts, b.ledger ++ versionsOfAll (numbering fw) (j.outcomes b.facts)⟩
  | none => b

/-- A sequence of runs. -/
def recordAll (b : Recorded fw) (js : List (Run Fp)) : Recorded fw := js.foldl (fun b j => j.record b) b

/-- Facts and ledger belong together. -/
def Recorded.Sound (b : Recorded fw) : Prop := Ledgered (numbering fw) b.facts b.ledger

/-- Unless the run fails, it builds no fact for a key that is not stored now and has been recorded before. -/
def NoReturn (j : Run Fp) (b : Recorded fw) : Prop :=
  NoHiddenNamesake j b.facts →
    ∀ x ∈ j.facts b.facts, b.facts.find x.key = none → ∀ v ∈ b.ledger, v.row.key ≠ x.key

/-- No run of a sequence meets a fact that comes back. -/
def NeverReturns : Recorded fw → List (Run Fp) → Prop
  | _, [] => True
  | b, j :: js => NoReturn j b ∧ NeverReturns (j.record b) js

/-- The versions of a run fit the facts, when it does not fail. -/
theorem outcomes_fit {j : Run Fp} {facts facts' : Facts fw} (h : j.fold facts = some facts') :
    ∀ o ∈ j.outcomes facts, o.Fits facts := by
  refine diff_fits (stored_within j facts) fun k hk hs => ?_
  by_contra hthere
  have hnone := (applyAll_diff_eq_none (F := folding fw) (stored_within j facts) (want_keyed j facts)).mpr
    ⟨k, hk, hs, hthere⟩
  have hfold : j.fold facts = none := hnone
  rw [hfold] at h
  cases h

/-- The keys a run inserts are those it builds a fact for and that are free. -/
theorem inserted_iff {j : Run Fp} {facts facts' : Facts fw} (h : j.fold facts = some facts') {k : FactKey} :
    (∃ b, Outcome.insert k b ∈ j.outcomes facts) ↔ (∃ x ∈ j.facts facts, x.key = k) ∧ facts.find k = none := by
  constructor
  · rintro ⟨b, hb⟩
    obtain ⟨hw, -⟩ := mem_diff_insert.mp hb
    obtain ⟨hmem, hkey⟩ := byKey_sound hw
    exact ⟨⟨b, hmem, hkey⟩, insert_free h hb⟩
  · rintro ⟨⟨x, hx, rfl⟩, hfree⟩
    obtain ⟨b, hb⟩ := Option.ne_none_iff_exists'.mp (byKey_complete (f := Built.key) hx)
    refine ⟨b, mem_diff_insert.mpr ⟨hb, ?_⟩⟩
    cases hs : (byKey Fact.key (j.storedRows facts)).get? x.key with
    | none => rfl
    | some f =>
      rw [(stored_get?.mp hs).1] at hfree
      cases hfree

/-- **One run keeps facts and ledger together**, and the revisions increasing exactly when no fact of it
    comes back. -/
theorem ledgered_record {j : Run Fp} {b : Recorded fw} (h : b.Sound) :
    (j.record b).Sound ∧
      (Increasing (numbering fw) (j.record b).ledger ↔ Increasing (numbering fw) b.ledger ∧ NoReturn j b) := by
  unfold Run.record
  cases hfold : j.fold b.facts with
  | none =>
    refine ⟨h, fun hinc => ⟨hinc, fun hno => ?_⟩, fun hinc => hinc.1⟩
    exact absurd hno (fold_eq_none_iff.mp hfold)
  | some facts =>
    have hno : NoHiddenNamesake j b.facts := by
      by_contra hnot
      rw [fold_eq_none_iff.mpr hnot] at hfold
      cases hfold
    obtain ⟨hsound, hinc⟩ := increasing_applyAll h diff_nodup (diff_keyed (want_keyed j b.facts))
      (outcomes_fit hfold) hfold
    refine ⟨hsound, hinc.trans (and_congr_right fun _ => ?_)⟩
    have hunseen : ∀ k, versionsOf Fact.key k b.ledger = [] ↔ ∀ v ∈ b.ledger, v.row.key ≠ k := by
      intro k
      unfold versionsOf
      rw [List.filter_eq_nil_iff]
      simp only [decide_eq_true_eq, ne_eq]
    constructor
    · intro hfree _ x hx hnone v hv
      obtain ⟨w, hw⟩ := (inserted_iff hfold).mpr ⟨⟨x, hx, rfl⟩, hnone⟩
      exact (hunseen x.key).mp (hfree x.key w hw) v hv
    · intro hret k w hw
      obtain ⟨⟨x, hx, rfl⟩, hnone⟩ := (inserted_iff hfold).mp ⟨w, hw⟩
      exact (hunseen x.key).mpr (hret hno x hx hnone)

/-! ## §2. Every sequence of runs. -/

variable (fw) in
theorem sound_start : (⟨Table.empty, []⟩ : Recorded fw).Sound := ledgered_empty

/-- A sequence of runs, from facts and a ledger that belong together. -/
theorem recordAll_sound {b : Recorded fw} (h : b.Sound) (js : List (Run Fp)) :
    (recordAll b js).Sound ∧
      (Increasing (numbering fw) (recordAll b js).ledger ↔
        Increasing (numbering fw) b.ledger ∧ NeverReturns b js) := by
  induction js generalizing b with
  | nil => exact ⟨h, fun hinc => ⟨hinc, trivial⟩, fun hinc => hinc.1⟩
  | cons j js ih =>
    obtain ⟨hsound, hinc⟩ := ledgered_record (j := j) h
    obtain ⟨hsound', hinc'⟩ := ih hsound
    refine ⟨hsound', hinc'.trans ?_⟩
    rw [hinc, and_assoc]
    exact Iff.rfl

/-- **The ledger replays to the facts**, after every sequence of runs; and the revisions of every key
    increase exactly when no fact comes back. -/
theorem ledger_replays_iff (js : List (Run Fp)) :
    (∀ k, replay Fact.key (recordAll ⟨(Table.empty : Facts fw), []⟩ js).ledger k =
        (recordAll ⟨Table.empty, []⟩ js).facts.find k) ∧
      (Increasing (numbering fw) (recordAll ⟨Table.empty, []⟩ js).ledger ↔
        NeverReturns (⟨Table.empty, []⟩ : Recorded fw) js) := by
  obtain ⟨hsound, hinc⟩ := recordAll_sound (sound_start fw) js
  refine ⟨hsound.replayed, hinc.trans ⟨fun h => h.2, fun h => ⟨fun k => ?_, h⟩⟩⟩
  exact List.Pairwise.nil

/-- The tenant without transactions. -/
def noTransactions : Source Print where
  store := { entries := [], txns := [], assigned := fun _ => none }
  unique := List.nodup_nil

/-- A transaction that is folded, deleted, and there again. -/
def comesBack : List (Run Print) :=
  [foldNamed "A" 0 [], { foldNamed "A" 0 [] with source := noTransactions }, foldNamed "A" 0 []]

/-- Its revisions are 1, 2 and 1. -/
theorem comesBack_not_increasing :
    ¬ Increasing (numbering printWorld) (recordAll ⟨Table.empty, []⟩ comesBack).ledger := by
  have hrevisions : (versionsOf Fact.key (1, some 5)
      (recordAll (⟨Table.empty, []⟩ : Recorded printWorld) comesBack).ledger).map
        (fun v => (numbering printWorld).revision v.row) = [1, 2, 1] := by
    decide +kernel
  intro hinc
  have hpair := hinc (1, some 5)
  rw [hrevisions] at hpair
  revert hpair
  decide

end RagPipeline.Analytics
