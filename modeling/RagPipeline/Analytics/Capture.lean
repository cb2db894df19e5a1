/-
  RagPipeline.Analytics.Capture — the capture gate, and what a fold does to the facts it cannot see.

  The gate filters the source by the transaction's name TODAY and the facts by the name they were
  STORED under.  A fact that is filtered out is out of the diff: not compared, not reversed.  What is
  not covered is a conversation renamed from a suppressed name to a captured one: its source row is
  seen, its fact is not, and the diff inserts a key that is taken.

    * `hidden_untouched`    — a run that succeeds leaves every hidden fact as it is;
    * `neutral_iff`         — a run succeeds and is neutral exactly when no row it normalises has the
                              key of a hidden fact;
    * `neutralThroughout_iff` — the same for every run of runs.
-/
import RagPipeline.Analytics.Fold

namespace RagPipeline.Analytics

open RagPipeline.Stage2 RagPipeline.Lib

variable {Fp : Type} [DecidableEq Fp] {fw : FoldWorld Fp}

/-! ## §1. Neutrality. -/

/-- The fact's stored name is suppressed. -/
def Run.Hidden (j : Run Fp) (f : Fact fw) : Prop :=
  isCaptured j.suppressed f.content.transactionName = false

/-- The run does not fail on the constraint, leaves every hidden fact as it is, and inserts no key that
    is there. -/
def Neutral (j : Run Fp) (facts : Facts fw) : Prop :=
  ∃ facts', j.fold facts = some facts' ∧
    (∀ f ∈ facts.rows, j.Hidden f → facts'.find f.key = some f) ∧
    ∀ k b, Outcome.insert k b ∈ j.outcomes facts → facts.find k = none

/-- No row of the window that the gate lets through, that is normalised and that is mappable, has the
    key of a hidden fact. -/
def NoHiddenNamesake (j : Run Fp) (facts : Facts fw) : Prop :=
  ∀ r ∈ j.sourceRows, j.needs facts r.id = true → ∀ c, j.normalised fw r = .ok c →
    ∀ f, facts.find (rowKey r) = some f → ¬j.Hidden f

/-- Every run of a sequence is neutral; a run that fails is rolled back. -/
def NeutralThroughout : Facts fw → List (Run Fp) → Prop
  | _, [] => True
  | facts, j :: js => Neutral j facts ∧ NeutralThroughout (j.after facts) js

/-- No run of a sequence meets a namesake. -/
def NoHiddenNamesakes : Facts fw → List (Run Fp) → Prop
  | _, [] => True
  | facts, j :: js => NoHiddenNamesake j facts ∧ NoHiddenNamesakes (j.after facts) js

/-! ## §2. One run. -/

omit [DecidableEq Fp] in
/-- A hidden fact is not on the stored side. -/
theorem stored_get?_of_hidden {j : Run Fp} {facts : Facts fw} {f : Fact fw} (hf : f ∈ facts.rows)
    (hh : j.Hidden f) : (byKey Fact.key (j.storedRows facts)).get? f.key = none := by
  cases hs : (byKey Fact.key (j.storedRows facts)).get? f.key with
  | none => rfl
  | some g =>
      obtain ⟨hg, -, hc⟩ := stored_get?.mp hs
      rw [Table.find_of_mem hf] at hg
      obtain rfl := Option.some.inj hg
      exact absurd hh (by simp [Run.Hidden, hc])

/-- **A run that succeeds leaves every hidden fact as it is.** -/
theorem hidden_untouched {j : Run Fp} {facts facts' : Facts fw} (h : j.fold facts = some facts')
    {f : Fact fw} (hf : f ∈ facts.rows) (hh : j.Hidden f) : facts'.find f.key = some f := by
  have hnone := stored_get?_of_hidden hf hh
  have hfind : facts.find f.key = some f := Table.find_of_mem hf
  rw [find_fold h, resolved, hnone]
  cases hw : (byKey Built.key (j.facts facts)).get? f.key with
  | none => exact hfind
  | some b =>
      -- the key would have been inserted, and the insert would have failed
      obtain ⟨hb, hbk⟩ := byKey_sound hw
      have hfail : j.fold facts = none :=
        fold_eq_none.mpr ⟨b, hb, by rw [hbk, hnone], by rw [hbk, hfind]; simp⟩
      rw [hfail] at h
      exact absurd h (by simp)

/-- A key is inserted only when it is free, or the run fails. -/
theorem insert_free {j : Run Fp} {facts facts' : Facts fw} (h : j.fold facts = some facts') {k : FactKey}
    {b : Built fw} (hi : Outcome.insert k b ∈ j.outcomes facts) : facts.find k = none := by
  obtain ⟨hw, hs⟩ := mem_diff_insert.mp hi
  obtain ⟨hb, rfl⟩ := byKey_sound hw
  by_contra hf
  rw [fold_eq_none.mpr ⟨b, hb, hs, hf⟩] at h
  exact absurd h (by simp)

/-- **When a run fails**: some mappable row that it normalises has the key of a hidden fact. -/
theorem fold_eq_none_iff {j : Run Fp} {facts : Facts fw} :
    j.fold facts = none ↔ ¬NoHiddenNamesake j facts := by
  rw [fold_eq_none]
  constructor
  · rintro ⟨b, hb, hs, hf⟩ hno
    obtain ⟨f, hf'⟩ := Option.ne_none_iff_exists'.mp hf
    have hcov := covers_of_mem_facts hb
    have hhid : j.Hidden f := by
      cases hc : isCaptured j.suppressed f.content.transactionName with
      | false => exact hc
      | true =>
          rw [stored_get?.mpr ⟨hf', hcov, hc⟩] at hs
          exact absurd hs (by simp)
    obtain ⟨r, hr, hbr⟩ := mem_facts.mp hb
    cases hn : j.needs facts r.id with
    | false =>
        -- a fact that is carried on is one the stored side shows
        obtain ⟨p, hp, -⟩ := prior_of_not_needs hr hn
        rw [build_of_carried hn hp] at hbr
        obtain rfl := Except.ok.inj hbr
        obtain ⟨hrow, hw, hc⟩ := mem_storedRows.mp (storedByTxn_eq_some hp).1
        have hshown := stored_get?.mpr ⟨Table.find_of_mem hrow, hw, hc⟩
        have hsame : (byKey Fact.key (j.storedRows facts)).get? p.key = none := hs
        rw [hshown] at hsame
        exact absurd hsame (by simp)
    | true =>
        rw [build_of_needs hn] at hbr
        cases hnr : j.normalised fw r with
        | error i => simp [hnr, Except.map] at hbr
        | ok c =>
            simp only [hnr, Except.map, Except.ok.injEq] at hbr
            subst hbr
            have hkey : c.key = rowKey r := (normalise_ok hnr).1
            exact hno r hr hn c hnr f (hkey ▸ hf') hhid
  · intro hno
    unfold NoHiddenNamesake at hno
    push Not at hno
    obtain ⟨r, hr, hn, c, hnr, f, hf, hhid⟩ := hno
    have hkey : c.key = rowKey r := (normalise_ok hnr).1
    have hfk : f.key = c.key := (Table.find_eq_some.mp hf).2.trans hkey.symm
    refine ⟨fw.build c, mem_facts.mpr ⟨r, hr, ?_⟩, ?_, ?_⟩
    · rw [build_of_needs hn, hnr]
      rfl
    · show (byKey Fact.key (j.storedRows facts)).get? c.key = none
      rw [← hfk]
      exact stored_get?_of_hidden (Table.find_eq_some.mp hf).1 hhid
    · show facts.find c.key ≠ none
      rw [hkey, hf]
      simp

/-- **One run is neutral exactly when it meets no namesake of a hidden fact.** -/
theorem neutral_iff {j : Run Fp} {facts : Facts fw} : Neutral j facts ↔ NoHiddenNamesake j facts := by
  constructor
  · rintro ⟨facts', h, -, -⟩
    by_contra hno
    rw [fold_eq_none_iff.mpr hno] at h
    exact absurd h (by simp)
  · intro hno
    have hsome : j.fold facts ≠ none := fun hnone => fold_eq_none_iff.mp hnone hno
    obtain ⟨facts', h⟩ := Option.ne_none_iff_exists'.mp hsome
    exact ⟨facts', h, fun f hf hh => hidden_untouched h hf hh, fun k b hi => insert_free h hi⟩

/-! ## §3. Every run. -/

/-- **Whatever is suppressed and renamed between the runs**: they are all neutral exactly when none of
    them meets a namesake of a hidden fact. -/
theorem neutralThroughout_iff (facts : Facts fw) (js : List (Run Fp)) :
    NeutralThroughout facts js ↔ NoHiddenNamesakes facts js := by
  induction js generalizing facts with
  | nil => exact Iff.rfl
  | cons j js ih =>
      show Neutral j facts ∧ _ ↔ NoHiddenNamesake j facts ∧ _
      rw [neutral_iff, ih]

/-! ## §4. A conversation renamed across the boundary. -/

/-- The fold of one transaction of this name, under these suppressed names. -/
def foldNamed (name : String) (fp : Nat) (suppressed : List String) : Run Print where
  source := oneTransaction (namedRow 1 name 5 fp) []
  window := ⟨0, 10⟩
  suppressed := suppressed
  zone := ⟨"UTC", utc_named⟩
  config := requestOnly

/-- Captured as "A"; then "A" is switched off and the conversation is rebuilt as "B". -/
def renamedAway : List (Run Print) := [foldNamed "A" 0 [], foldNamed "B" 1 ["A"]]

/-- The second run finds the key taken by the fact it does not see, and fails. -/
theorem renamedAway_not_neutral :
    ¬∀ facts : Facts printWorld, NeutralThroughout facts renamedAway := by
  intro h
  obtain ⟨facts', hfold, -⟩ := (h Table.empty).2.1
  have hnone : (foldNamed "B" 1 ["A"]).fold ((foldNamed "A" 0 []).after (Table.empty : Facts printWorld)) =
      none := by
    decide +kernel
  rw [hnone] at hfold
  exact absurd hfold (by simp)

end RagPipeline.Analytics
