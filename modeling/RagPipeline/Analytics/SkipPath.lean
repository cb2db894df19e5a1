/-
  RagPipeline.Analytics.SkipPath — the fold that carries facts on, against the fold that reads every line.

  A fact whose transaction has the digest it was built from is carried on without normalising the
  transaction again.  The digest covers the row; it covers neither the tenant's zone nor the approved fields
  nor the `mi` switch, nor which response lines the window shows.

    * `Run.readingAll`     — the same run with every transaction among those to read;
    * `Run.origins`        — which run built the fact of a key, and from which row;
    * `Agrees`             — what else `normalise` reads is as it was in that run;
    * `sameFacts_iff`      — one run leaves the facts of the full path exactly when that holds of all it carries;
    * `skip_exact_iff`     — over every history of windows, sources and configurations.
-/
import RagPipeline.Analytics.Exactness
import RagPipeline.Analytics.Records

namespace RagPipeline.Analytics

open RagPipeline.Stage2 RagPipeline.Lib

variable {Fp : Type} [DecidableEq Fp] {fw : FoldWorld Fp}

/-! ## §1. Two paths. -/

/-- The run without the skip: the lines of every transaction are read. -/
def Run.readingAll (j : Run Fp) : Run Fp := { j with refresh := j.sourceRows.map TxnRow.id }

/-- Both paths leave the same facts. -/
def SameFacts (j : Run Fp) (facts : Facts fw) : Prop :=
  ∀ k, contentAt (j.after facts) k = contentAt (j.readingAll.after facts) k

/-- The run that built a fact, and the row it was built from. -/
abbrev Origin (Fp : Type) := Run Fp × TxnRow Fp

/-- The row a run normalises for a key. -/
def Run.normalises (fw : FoldWorld Fp) (j : Run Fp) (facts : Facts fw) (k : FactKey) : Option (TxnRow Fp) :=
  j.sourceRows.find? fun r => decide (rowKey r = k) && j.needs facts r.id && (j.normalised fw r).toOption.isSome

/-- The facts, and where each was built. -/
structure Traced (fw : FoldWorld Fp) where
  facts : Facts fw := Table.empty
  origins : FactKey → Option (Origin Fp) := fun _ => none

/-- **One run**, with what it builds; a run that fails builds nothing. -/
def Run.trace (j : Run Fp) (t : Traced fw) : Traced fw :=
  match j.fold t.facts with
  | none => t
  | some facts =>
      { facts := facts
        origins := fun k => match j.normalises fw t.facts k with
          | some r => some (j, r)
          | none => t.origins k }

/-- What `normalise` makes of the lines of a row in a run. -/
def Run.lineAttributes (j : Run Fp) (r : TxnRow Fp) : JObject :=
  mergedAttributes r.values.attributes (j.config.responseAttributes r.values.transactionName (j.responses r.id))

/-- What `normalise` takes of the attributes, as the fingerprint spells it. -/
@[ext] structure Taken where
  spelled : JObject
  lotNumber : Option String
  fromLocation : Option String
  toLocation : Option String
  quantity : Option Rat
  classification : Classification

/-- What it takes of these, for a transaction of this method. -/
def FoldWorld.taken (fw : FoldWorld Fp) (method : Option String) (attributes : JObject) : Taken :=
  let quantity := (quantityField (asText method)).bind fun f => fw.parseQuantity (JObject.get? attributes f)
  { spelled := canonicalAttributes attributes
    lotNumber := capText 64 (asText (jsonText (JObject.get? attributes "LotNumber")))
    fromLocation := capText 32 (asText (jsonText (JObject.get? attributes "FromLocation")))
    toLocation := capText 32 (asText (jsonText (JObject.get? attributes "ToLocation")))
    quantity := quantity.map canonicalQuantity
    classification := classify (asText method) quantity }

/-- Beside the row, what `normalise` reads of it is the same in both runs: the local day of its start, what it
    takes of its attributes with the approved fields of the lines the window shows, and the number of records in
    them. -/
structure Agrees (fw : FoldWorld Fp) (o : Origin Fp) (j : Run Fp) (r : TxnRow Fp) : Prop where
  day : o.2.startedAt.map (fw.localDate o.1.zone) = r.startedAt.map (fw.localDate j.zone)
  attributes : fw.taken o.2.values.method (o.1.lineAttributes o.2) = fw.taken r.values.method (j.lineAttributes r)
  records : o.1.config.recordTotal (o.1.responses o.2.id) = j.config.recordTotal (j.responses r.id)

/-- Unless the run fails: every row it carries on agrees with the run that built its fact. -/
def CarriesCurrent (j : Run Fp) (t : Traced fw) : Prop :=
  NoHiddenNamesake j t.facts →
    ∀ r ∈ j.sourceRows, j.needs t.facts r.id = false → ∀ o, t.origins (rowKey r) = some o → Agrees fw o j r

/-- Both paths leave the same facts in every run of a history. -/
def SameThroughout : Traced fw → List (Run Fp) → Prop
  | _, [] => True
  | t, j :: js => SameFacts j t.facts ∧ SameThroughout (j.trace t) js

/-- Every run of a history carries current facts only. -/
def CurrentThroughout : Traced fw → List (Run Fp) → Prop
  | _, [] => True
  | t, j :: js => CarriesCurrent j t ∧ CurrentThroughout (j.trace t) js

/-- The digest covers the row: over a history, a transaction with one digest has one row, as Stage 2 spells it. -/
def Digested (js : List (Run Fp)) : Prop :=
  ∀ j ∈ js, ∀ j' ∈ js, ∀ r ∈ j.source.store.txns, ∀ r' ∈ j'.source.store.txns, r.id = r'.id →
    r.rowFingerprint ≠ none → r.rowFingerprint = r'.rowFingerprint → r.values.canonical = r'.values.canonical

/-! ## §2. What a fact says of its run. -/

/-- `normalise` quarantines a row whose method carries a quantity that it cannot read. -/
def Unreadable (method : Option String) (t : Taken) : Prop := quantityField (asText method) ≠ none ∧ t.quantity = none

/-- The payload of a row's fact, from what `normalise` takes of the attributes. -/
def payloadOf (row : TxnRow Fp) (businessDate : Option Day) (t : Taken) (miRecords : ℕ) : FactContent Fp :=
  let v := row.values
  let type := asText v.transactionType
  { sourceTransactionId := row.id
    sourceStartedAt := v.startedAt
    eventTime := v.startedAt
    businessDate := businessDate
    durationMs := v.durationMs
    method := capText 128 (asText v.method)
    transactionName := capText 128 (asText v.transactionName)
    transactionType := capText 32 (if usableDimensionValue type then type else none)
    status := v.status
    itemNumber := capText 128 (asText v.itemNumber)
    lotNumber := t.lotNumber
    orderNumber := capText 64 (asText v.orderNumber)
    deliveryNumber := capText 64 (asText v.deliveryNumber)
    warehouse := capText 16 (asText v.warehouse)
    warehouseId := capText 16 (asText v.warehouseId)
    fromLocation := t.fromLocation
    toLocation := t.toLocation
    userName := capText 64 (asText v.userName)
    deviceId := capText 64 (asText v.deviceId)
    deviceName := capText 64 (asText v.deviceName)
    quantity := t.quantity
    classification := t.classification
    attributes := t.spelled
    srcFp := row.rowFingerprint
    normVersion := some normaliseVersion
    miRecords := miRecords }

/-- What `normalise` takes of a row's attributes in a run. -/
def Run.taken (fw : FoldWorld Fp) (j : Run Fp) (r : TxnRow Fp) : Taken :=
  fw.taken r.values.method (j.lineAttributes r)

/-- The payload of a row's fact in a run. -/
def Run.payload (fw : FoldWorld Fp) (j : Run Fp) (r : TxnRow Fp) : FactContent Fp :=
  payloadOf r (r.startedAt.map (fw.localDate j.zone)) (j.taken fw r) (j.config.recordTotal (j.responses r.id))

omit [DecidableEq Fp] in
/-- **What a run makes of a row**: the fact of its payload, unless the quantity is unreadable. -/
theorem normalised_iff {j : Run Fp} {r : TxnRow Fp} {payload : FactContent Fp} :
    (∃ c, j.normalised fw r = .ok c ∧ c.canonical = payload) ↔
      ¬Unreadable r.values.method (j.taken fw r) ∧ j.payload fw r = payload := by
  unfold Run.normalised FoldWorld.normalise Unreadable
  dsimp only
  have hquantity : (j.taken fw r).quantity = ((quantityField (asText r.values.method)).bind fun f =>
      fw.parseQuantity (JObject.get? (j.lineAttributes r) f)).map canonicalQuantity := rfl
  unfold Run.lineAttributes at hquantity
  split
  · next field hfield hnone =>
    -- quarantined
    rw [hfield] at hnone hquantity ⊢
    rw [hnone] at hquantity
    constructor
    · rintro ⟨c, h, -⟩
      cases h
    · rintro ⟨h, -⟩
      exact absurd ⟨Option.some_ne_none field, hquantity⟩ h
  · next hread =>
    have hreadable : ¬(quantityField (asText r.values.method) ≠ none ∧ (j.taken fw r).quantity = none) := by
      rintro ⟨hfield, hnone⟩
      obtain ⟨field, hfield⟩ := Option.ne_none_iff_exists'.mp hfield
      rw [hquantity, Option.map_eq_none_iff] at hnone
      exact hread field hfield hnone
    refine ⟨fun ⟨c, h, hc⟩ => ⟨hreadable, ?_⟩, fun ⟨_, h⟩ => ⟨_, rfl, h⟩⟩
    rw [← hc, ← Except.ok.inj h]
    rfl

/-- The columns of a row without its attributes. -/
def bareValues (v : TxnValues) : TxnValues := { v with attributes := [] }

omit [DecidableEq Fp] in
/-- Stage 2's spelling of a row keeps its columns. -/
theorem bareValues_of_canonical {v v' : TxnValues} (h : v.canonical = v'.canonical) : bareValues v = bareValues v' :=
  (congrArg bareValues h :)

omit [DecidableEq Fp] in
/-- **Two runs that agree on a row normalise it alike**, and conversely. -/
theorem normalised_like_iff {j₀ j : Run Fp} {r₀ r : TxnRow Fp} {c₀ : FactContent Fp} (hid : r₀.id = r.id)
    (hvalues : r₀.values.canonical = r.values.canonical) (hfp : r₀.rowFingerprint = r.rowFingerprint)
    (h : j₀.normalised fw r₀ = .ok c₀) :
    (∃ c, j.normalised fw r = .ok c ∧ c.canonical = c₀.canonical) ↔ Agrees fw (j₀, r₀) j r := by
  obtain ⟨hreadable, hpayload⟩ := normalised_iff.mp ⟨c₀, h, rfl⟩
  have hcolumns := bareValues_of_canonical hvalues
  have hmethod : r₀.values.method = r.values.method := (congrArg TxnValues.method hcolumns :)
  rw [normalised_iff, ← hpayload]
  constructor
  · rintro ⟨-, hsame⟩
    refine ⟨(congrArg FactContent.businessDate hsame).symm, ?_, (congrArg FactContent.miRecords hsame).symm⟩
    exact Taken.ext (congrArg FactContent.attributes hsame).symm (congrArg FactContent.lotNumber hsame).symm
      (congrArg FactContent.fromLocation hsame).symm (congrArg FactContent.toLocation hsame).symm
      (congrArg FactContent.quantity hsame).symm (congrArg FactContent.classification hsame).symm
  · intro hagree
    have htaken : j₀.taken fw r₀ = j.taken fw r := hagree.attributes
    rw [hmethod, htaken] at hreadable
    refine ⟨hreadable, ?_⟩
    have hday := hagree.day
    have hrecords := hagree.records
    dsimp only at hday hrecords
    unfold Run.payload
    rw [htaken, hday, hrecords]
    -- the other columns are those of the row
    have hrow : ∀ d t m, payloadOf r d t m = payloadOf r₀ d t m := by
      intro d t m
      have hbare : payloadOf r d t m =
          payloadOf { r with values := bareValues r.values } d t m := rfl
      rw [hbare, ← hcolumns, ← hid, ← hfp]
      rfl
    exact hrow _ _ _

/-! ## §3. What a run builds, key by key. -/

section Built

variable {j : Run Fp} {facts facts' : Facts fw}

omit [DecidableEq Fp] in
/-- A row of the window is the only one of its key. -/
theorem row_of_key {r r' : TxnRow Fp} (hr : r ∈ j.sourceRows) (hr' : r' ∈ j.sourceRows) (h : rowKey r = rowKey r') :
    r = r' := by
  have hrows : (j.sourceRows.map rowKey).Nodup := j.source.unique.sublist (List.filter_sublist.map _)
  exact List.inj_on_of_nodup_map hrows hr hr' h

/-- A row is built under its own key. -/
def BuildsOwn (j : Run Fp) (facts : Facts fw) : Prop :=
  ∀ r ∈ j.sourceRows, ∀ b, j.build facts r = .ok b → b.key = rowKey r

/-- What the run wants of the key of a row is what it builds of the row. -/
theorem want_rowKey (hown : BuildsOwn j facts) {r : TxnRow Fp} (hr : r ∈ j.sourceRows) :
    (byKey Built.key (j.facts facts)).get? (rowKey r) = (j.build facts r).toOption := by
  cases hw : (byKey Built.key (j.facts facts)).get? (rowKey r) with
  | some b =>
    obtain ⟨hb, hkey⟩ := byKey_sound hw
    obtain ⟨r', hr', hbr⟩ := mem_facts.mp hb
    have hsame := row_of_key hr' hr ((hown r' hr' b hbr).symm.trans hkey)
    rw [← hsame, hbr]
    rfl
  | none =>
    cases hbr : j.build facts r with
    | error i => rfl
    | ok b =>
      have hbound := byKey_complete (f := Built.key) (mem_facts.mpr ⟨r, hr, hbr⟩)
      rw [hown r hr b hbr] at hbound
      exact absurd hw hbound

/-- Nothing is wanted of a key without a row. -/
theorem want_other (hown : BuildsOwn j facts) {k : FactKey} (hk : ∀ r ∈ j.sourceRows, rowKey r ≠ k) :
    (byKey Built.key (j.facts facts)).get? k = none := by
  cases hw : (byKey Built.key (j.facts facts)).get? k with
  | none => rfl
  | some b =>
    obtain ⟨hb, hkey⟩ := byKey_sound hw
    obtain ⟨r, hr, hbr⟩ := mem_facts.mp hb
    exact absurd ((hown r hr b hbr).symm.trans hkey) (hk r hr)

/-- **What a key says after a run**: what was built of it, over what was shown; else nothing if it was shown, and
    what it said if it was not. -/
theorem contentAt_run (h : j.fold facts = some facts') (k : FactKey) :
    contentAt facts' k =
      match (byKey Built.key (j.facts facts)).get? k, (byKey Fact.key (j.storedRows facts)).get? k with
      | some b, f => some (b.over f).content
      | none, some _ => none
      | none, none => contentAt facts k := by
  unfold contentAt
  rw [find_fold h]
  cases hw : (byKey Built.key (j.facts facts)).get? k with
  | none =>
    unfold resolved
    rw [hw]
    cases (byKey Fact.key (j.storedRows facts)).get? k <;> rfl
  | some b =>
    rw [resolved_some hw]
    rfl

end Built

/-! ## §4. One run. -/

/-- Every fact was built by a run of the past, from a row of its key; it may be an older one's that is spelled
    alike. -/
def Founded (past : List (Run Fp)) (t : Traced fw) : Prop :=
  ∀ p ∈ t.facts.rows, ∃ j₀ ∈ past, ∃ r₀ ∈ j₀.source.store.txns, t.origins p.key = some (j₀, r₀) ∧
    rowKey r₀ = p.key ∧ ∃ c, j₀.normalised fw r₀ = .ok c ∧ c.canonical = p.content.canonical

section Step

variable {past : List (Run Fp)} {j : Run Fp} {t : Traced fw}

/-- **A row that is carried on**: its fact has its key, and was built from the same row. -/
theorem carried_founded (hfound : Founded past t) (hdig : Digested (j :: past)) {r : TxnRow Fp}
    (hr : r ∈ j.sourceRows) (hn : j.needs t.facts r.id = false) :
    ∃ p, j.storedByTxn t.facts r.id = some p ∧ p.key = rowKey r ∧
      (byKey Fact.key (j.storedRows t.facts)).get? (rowKey r) = some p ∧
      ∃ o, t.origins (rowKey r) = some o ∧
        ((∃ c, j.normalised fw r = .ok c ∧ c.canonical = p.content.canonical) ↔ Agrees fw o j r) := by
  obtain ⟨p, hp, hfp, hsrc, -⟩ := prior_of_not_needs hr hn
  obtain ⟨hstored, hid⟩ := storedByTxn_eq_some hp
  obtain ⟨hrow, hwin, hcap⟩ := mem_storedRows.mp hstored
  obtain ⟨j₀, hj₀, r₀, hr₀, horigin, hkey₀, c₀, hnorm₀, hlike⟩ := hfound p hrow
  have hid₀ : r₀.id = r.id := (congrArg Prod.fst hkey₀).trans hid
  have hsrc₀ : c₀.srcFp = p.content.srcFp := (congrArg FactContent.srcFp hlike :)
  have hfp₀ : r₀.rowFingerprint = r.rowFingerprint := (normalise_ok hnorm₀).2.1.symm.trans (hsrc₀.trans hsrc)
  have hvalues : r₀.values.canonical = r.values.canonical :=
    hdig j₀ (List.mem_cons_of_mem _ hj₀) j List.mem_cons_self r₀ hr₀ r (mem_sourceRows.mp hr).1 hid₀
      (by rw [hfp₀]; exact hfp) hfp₀
  have hkey : p.key = rowKey r := by
    rw [← hkey₀]
    exact Prod.ext hid₀ (congrArg TxnValues.startedAt hvalues :)
  refine ⟨p, hp, hkey, ?_, (j₀, r₀), by rw [← hkey]; exact horigin, ?_⟩
  · rw [← hkey]
    exact stored_get?.mpr ⟨Table.find_of_mem hrow, hwin, hcap⟩
  · rw [← hlike]
    exact normalised_like_iff hid₀ hvalues hfp₀ hnorm₀

theorem needs_readingAll {facts : Facts fw} {r : TxnRow Fp} (hr : r ∈ j.sourceRows) :
    j.readingAll.needs facts r.id = true := by
  unfold Run.needs
  have hin : r.id ∈ j.readingAll.refresh := List.mem_map_of_mem hr
  rw [decide_eq_true hin, Bool.or_true]

/-- The full path builds the normalisation. -/
theorem build_readingAll {facts : Facts fw} {r : TxnRow Fp} (hr : r ∈ j.sourceRows) :
    j.readingAll.build facts r = (j.normalised fw r).map fw.build := build_of_needs (needs_readingAll hr)

theorem buildsOwn_readingAll {facts : Facts fw} : BuildsOwn j.readingAll facts := by
  intro r hr b hb
  rw [build_readingAll (j := j) hr] at hb
  cases hc : j.normalised fw r with
  | error i =>
    rw [hc] at hb
    cases hb
  | ok c =>
    rw [hc] at hb
    cases hb
    exact (normalise_ok hc).1

theorem buildsOwn_of_founded (hfound : Founded past t) (hdig : Digested (j :: past)) : BuildsOwn j t.facts := by
  intro r hr b hb
  cases hn : j.needs t.facts r.id with
  | true =>
    refine (buildsOwn_readingAll : BuildsOwn j.readingAll t.facts) r hr b ?_
    rw [build_readingAll (j := j) hr, ← build_of_needs hn]
    exact hb
  | false =>
    obtain ⟨p, hp, hkey, -⟩ := carried_founded hfound hdig hr hn
    rw [build_of_carried hn hp] at hb
    cases hb
    exact hkey

/-- Both paths fail alike. -/
theorem fold_readingAll_eq_none (hfound : Founded past t) (hdig : Digested (j :: past)) :
    j.readingAll.fold t.facts = none ↔ j.fold t.facts = none := by
  -- a row that is carried on has its fact shown, and is no insert on either path
  have hshown : ∀ r ∈ j.sourceRows, j.needs t.facts r.id = false →
      (byKey Fact.key (j.storedRows t.facts)).get? (rowKey r) ≠ none := by
    intro r hr hn
    obtain ⟨p, -, -, hstored, -⟩ := carried_founded hfound hdig hr hn
    rw [hstored]
    exact Option.some_ne_none p
  have hown := buildsOwn_of_founded hfound hdig
  rw [fold_eq_none, fold_eq_none]
  constructor
  · rintro ⟨b, hb, hs, hf⟩
    obtain ⟨r, hr, hbr⟩ := mem_facts.mp hb
    have hkey := buildsOwn_readingAll r hr b hbr
    cases hn : j.needs t.facts r.id with
    | false => exact absurd (hkey ▸ hs) (hshown r hr hn)
    | true =>
      refine ⟨b, mem_facts.mpr ⟨r, hr, ?_⟩, hs, hf⟩
      rw [build_of_needs hn, ← build_readingAll (j := j) hr]
      exact hbr
  · rintro ⟨b, hb, hs, hf⟩
    obtain ⟨r, hr, hbr⟩ := mem_facts.mp hb
    have hkey := hown r hr b hbr
    cases hn : j.needs t.facts r.id with
    | false => exact absurd (hkey ▸ hs) (hshown r hr hn)
    | true =>
      refine ⟨b, mem_facts.mpr ⟨r, hr, ?_⟩, hs, hf⟩
      rw [build_readingAll (j := j) hr, ← build_of_needs hn]
      exact hbr

/-- **Key by key**: both paths say the same of a key exactly when what is carried on under it is what its
    transaction normalises to now. -/
theorem contentAt_paths_iff (hfw : fw.CollisionFree) (hfound : Founded past t) (hdig : Digested (j :: past))
    {facts' facts'' : Facts fw} (hfold : j.fold t.facts = some facts')
    (hfold' : j.readingAll.fold t.facts = some facts'') (k : FactKey) :
    contentAt facts' k = contentAt facts'' k ↔
      ∀ r ∈ j.sourceRows, rowKey r = k → j.needs t.facts r.id = false → ∀ p, j.storedByTxn t.facts r.id = some p →
        ∃ c, j.normalised fw r = .ok c ∧ c.canonical = p.content.canonical := by
  have hown := buildsOwn_of_founded hfound hdig
  rw [contentAt_run hfold, contentAt_run hfold']
  by_cases hrow : ∃ r ∈ j.sourceRows, rowKey r = k
  · obtain ⟨r, hr, hk⟩ := hrow
    have honly : ∀ r' ∈ j.sourceRows, rowKey r' = rowKey r → r' = r := fun r' hr' hk' => row_of_key hr' hr hk'
    have hfull : (byKey Built.key (j.readingAll.facts t.facts)).get? (rowKey r) =
        ((j.normalised fw r).map fw.build).toOption := by
      rw [want_rowKey buildsOwn_readingAll hr, build_readingAll hr]
    rw [← hk, want_rowKey hown hr, hfull]
    cases hn : j.needs t.facts r.id with
    | true =>
      -- a row that is read is the same on both paths
      rw [build_of_needs hn]
      refine ⟨fun _ r' hr' hk' hn' => ?_, fun _ => rfl⟩
      rw [honly r' hr' hk', hn] at hn'
      cases hn'
    | false =>
      obtain ⟨p, hp, -, hstored, -⟩ := carried_founded hfound hdig hr hn
      have hstored' : (byKey Fact.key (j.readingAll.storedRows t.facts)).get? (rowKey r) = some p := hstored
      rw [build_of_carried hn hp, hstored, hstored']
      have hthis : (∀ r' ∈ j.sourceRows, rowKey r' = rowKey r → j.needs t.facts r'.id = false →
          ∀ p, j.storedByTxn t.facts r'.id = some p →
            ∃ c, j.normalised fw r' = .ok c ∧ c.canonical = p.content.canonical) ↔
          ∃ c, j.normalised fw r = .ok c ∧ c.canonical = p.content.canonical := by
        refine ⟨fun h => h r hr rfl hn p hp, fun h r' hr' hk' hn' p' hp' => ?_⟩
        rw [honly r' hr' hk'] at hp' ⊢
        rw [hp] at hp'
        cases hp'
        exact h
      rw [hthis]
      have hcarried : p.toBuilt.over (some p) = p := if_pos rfl
      cases hc : j.normalised fw r with
      | error i =>
        constructor
        · intro h
          cases h
        · rintro ⟨c, h, -⟩
          cases h
      | ok c =>
        show some (p.toBuilt.over (some p)).content = some ((fw.build c).over (some p)).content ↔ _
        rw [hcarried, Option.some.injEq]
        constructor
        · intro h
          refine ⟨c, rfl, ?_⟩
          -- either the stored fact has the fingerprint of the new one, or it says the same
          rcases Built.over_cases (fw.build c) p with ⟨hsame, -⟩ | ⟨-, hover⟩
          · exact ((sourceVersionHash_eq_iff hfw).mp hsame).symm
          · rw [h, hover]
            rfl
        · rintro ⟨c', hc', hlike⟩
          have hcontent : c = c' := Except.ok.inj hc'
          have hsame : p.sourceVersionHash = (fw.build c).sourceVersionHash :=
            (sourceVersionHash_eq_iff hfw).mpr (by rw [hcontent]; exact hlike.symm)
          have hover : (fw.build c).over (some p) = p := if_pos hsame
          rw [hover]
  · have hnone : ∀ r ∈ j.sourceRows, rowKey r ≠ k := fun r hr h => hrow ⟨r, hr, h⟩
    have hother : (byKey Built.key (j.readingAll.facts t.facts)).get? k = none :=
      want_other buildsOwn_readingAll hnone
    rw [want_other hown hnone, hother]
    exact ⟨fun _ r hr h => absurd h (hnone r hr), fun _ => rfl⟩

/-- **One run**: both paths leave the same facts exactly when it carries current facts only. -/
theorem sameFacts_iff (hfw : fw.CollisionFree) (hfound : Founded past t) (hdig : Digested (j :: past)) :
    SameFacts j t.facts ↔ CarriesCurrent j t := by
  cases hfold : j.fold t.facts with
  | none =>
    -- neither run commits, so both leave the table alone
    have hall := (fold_readingAll_eq_none hfound hdig).mpr hfold
    refine ⟨fun _ hno => absurd hno (fold_eq_none_iff.mp hfold), fun _ k => ?_⟩
    unfold Run.after
    rw [hfold, hall]
  | some facts' =>
    have hno : NoHiddenNamesake j t.facts := by
      by_contra hnot
      rw [fold_eq_none_iff.mpr hnot] at hfold
      cases hfold
    have hsome : j.readingAll.fold t.facts ≠ none := by
      rw [Ne, fold_readingAll_eq_none hfound hdig, hfold]
      exact Option.some_ne_none facts'
    obtain ⟨facts'', hfold'⟩ := Option.ne_none_iff_exists'.mp hsome
    have hafter : j.after t.facts = facts' := by
      unfold Run.after
      rw [hfold]
      rfl
    have hafter' : j.readingAll.after t.facts = facts'' := by
      unfold Run.after
      rw [hfold']
      rfl
    unfold SameFacts
    rw [hafter, hafter']
    constructor
    · intro hsame _ r hr hn o ho
      obtain ⟨p, hp, -, -, o', ho', hiff⟩ := carried_founded hfound hdig hr hn
      cases Option.some.inj (ho.symm.trans ho')
      exact hiff.mp ((contentAt_paths_iff hfw hfound hdig hfold hfold' (rowKey r)).mp (hsame (rowKey r)) r hr rfl hn p hp)
    · intro hcur k
      refine (contentAt_paths_iff hfw hfound hdig hfold hfold' k).mpr fun r hr _ hn p hp => ?_
      obtain ⟨p', hp', -, -, o, ho, hiff⟩ := carried_founded hfound hdig hr hn
      cases Option.some.inj (hp.symm.trans hp')
      exact hiff.mpr (hcur hno r hr hn o ho)

end Step

/-! ## §5. Every history. -/

section History

variable {past : List (Run Fp)} {j : Run Fp} {t : Traced fw}

/-- The row a run normalises for a key is read, is the key's, and is mappable. -/
theorem normalises_eq_some {facts : Facts fw} {k : FactKey} {r : TxnRow Fp} (h : j.normalises fw facts k = some r) :
    r ∈ j.sourceRows ∧ rowKey r = k ∧ j.needs facts r.id = true ∧ ∃ c, j.normalised fw r = .ok c := by
  have hr := List.mem_of_find?_eq_some h
  have hall := List.find?_some h
  rw [Bool.and_eq_true, Bool.and_eq_true] at hall
  obtain ⟨⟨hkey, hneeds⟩, hok⟩ := hall
  refine ⟨hr, of_decide_eq_true hkey, hneeds, ?_⟩
  cases hc : j.normalised fw r with
  | error i =>
    rw [hc] at hok
    cases hok
  | ok c => exact ⟨c, rfl⟩

/-- And every such row is what the run normalises for its key. -/
theorem normalises_rowKey {facts : Facts fw} {r : TxnRow Fp} (hr : r ∈ j.sourceRows)
    (hn : j.needs facts r.id = true) {c : FactContent Fp} (hc : j.normalised fw r = .ok c) :
    j.normalises fw facts (rowKey r) = some r := by
  have hlooked : (decide (rowKey r = rowKey r) && j.needs facts r.id && (j.normalised fw r).toOption.isSome) =
      true := by
    rw [hn, hc, decide_eq_true rfl]
    rfl
  refine find?_only hr hlooked fun r' hr' hkey => ?_
  rw [Bool.and_eq_true, Bool.and_eq_true] at hkey
  exact row_of_key hr' hr (of_decide_eq_true hkey.1.1)

omit [DecidableEq Fp] in
/-- A fact is where its key says so. -/
theorem exists_of_contentAt {facts : Facts fw} {k : FactKey} {c : FactContent Fp} (h : contentAt facts k = some c) :
    ∃ p ∈ facts.rows, p.key = k ∧ p.content = c := by
  obtain ⟨p, hp, hc⟩ := Option.map_eq_some_iff.mp h
  obtain ⟨hmem, hkey⟩ := Table.find_eq_some.mp hp
  exact ⟨p, hmem, hkey, hc⟩

/-- The origins of a run that succeeds. -/
theorem trace_of_fold {facts' : Facts fw} (h : j.fold t.facts = some facts') :
    (j.trace t).facts = facts' ∧ ∀ k, (j.trace t).origins k =
      match j.normalises fw t.facts k with
      | some r => some (j, r)
      | none => t.origins k := by
  unfold Run.trace
  rw [h]
  exact ⟨rfl, fun _ => rfl⟩

/-- A run that fails is rolled back. -/
theorem trace_of_failed (h : j.fold t.facts = none) : j.trace t = t := by
  unfold Run.trace
  rw [h]

/-- **One step**: the facts a run leaves were built by it or by a run before it. -/
theorem founded_trace (hfw : fw.CollisionFree) (hfound : Founded past t) (hdig : Digested (j :: past)) :
    Founded (j :: past) (j.trace t) := by
  -- a fact of before that its key still says is founded as it was
  have hkept : ∀ k c, contentAt t.facts k = some c →
      ∃ j₀ ∈ j :: past, ∃ r₀ ∈ j₀.source.store.txns, t.origins k = some (j₀, r₀) ∧ rowKey r₀ = k ∧
        ∃ c₀, j₀.normalised fw r₀ = .ok c₀ ∧ c₀.canonical = c.canonical := by
    intro k c hc
    obtain ⟨p, hp, rfl, rfl⟩ := exists_of_contentAt hc
    obtain ⟨j₀, hj₀, r₀, hr₀, hrest⟩ := hfound p hp
    exact ⟨j₀, List.mem_cons_of_mem _ hj₀, r₀, hr₀, hrest⟩
  cases hfold : j.fold t.facts with
  | none =>
    rw [trace_of_failed hfold]
    intro p hp
    obtain ⟨j₀, hj₀, hrest⟩ := hfound p hp
    exact ⟨j₀, List.mem_cons_of_mem _ hj₀, hrest⟩
  | some facts' =>
    obtain ⟨hfacts, horigins⟩ := trace_of_fold hfold
    have hown := buildsOwn_of_founded hfound hdig
    intro p hp
    rw [hfacts] at hp
    have hcontent : contentAt facts' p.key = some p.content := by
      unfold contentAt
      rw [Table.find_of_mem hp]
      rfl
    rw [contentAt_run hfold] at hcontent
    rw [horigins]
    cases hw : (byKey Built.key (j.facts t.facts)).get? p.key with
    | some b =>
      rw [hw] at hcontent
      have hbp : (b.over ((byKey Fact.key (j.storedRows t.facts)).get? p.key)).content = p.content :=
        Option.some.inj hcontent
      have hlike : b.content.canonical = p.content.canonical := by
        rw [← hbp]
        exact (canonical_over hfw b _).symm
      obtain ⟨hb, hkey⟩ := byKey_sound hw
      obtain ⟨r, hr, hbr⟩ := mem_facts.mp hb
      have hrow : rowKey r = p.key := (hown r hr b hbr).symm.trans hkey
      cases hn : j.needs t.facts r.id with
      | true =>
        rw [build_of_needs hn] at hbr
        cases hc : j.normalised fw r with
        | error i =>
          rw [hc] at hbr
          cases hbr
        | ok c =>
          rw [hc] at hbr
          cases hbr
          rw [← hrow, normalises_rowKey hr hn hc]
          exact ⟨j, List.mem_cons_self, r, (mem_sourceRows.mp hr).1, rfl, rfl, c, hc, hlike⟩
      | false =>
        obtain ⟨p', hp', hkey', hshown, -⟩ := carried_founded hfound hdig hr hn
        rw [build_of_carried hn hp'] at hbr
        cases hbr
        have hsaid : p'.content = p.content := by
          rw [← hbp, ← hrow, hshown]
          exact congrArg (fun f : Fact fw => f.content) (if_pos rfl).symm
        have hnone : j.normalises fw t.facts p.key = none := by
          cases hnorm : j.normalises fw t.facts p.key with
          | none => rfl
          | some r' =>
            obtain ⟨hr', hk', hn', -⟩ := normalises_eq_some hnorm
            have hid : r'.id = r.id := congrArg Prod.fst (hk'.trans hrow.symm)
            rw [hid, hn] at hn'
            cases hn'
        have hstill : contentAt t.facts p.key = some p.content := by
          unfold contentAt
          rw [← hrow, ← hkey', Table.find_of_mem (mem_storedRows.mp (storedByTxn_eq_some hp').1).1]
          exact congrArg some hsaid
        rw [hnone]
        exact hkept _ _ hstill
    | none =>
      rw [hw] at hcontent
      have hnone : j.normalises fw t.facts p.key = none := by
        cases hnorm : j.normalises fw t.facts p.key with
        | none => rfl
        | some r =>
          obtain ⟨hr, hk, hn, c, hc⟩ := normalises_eq_some hnorm
          rw [← hk, want_rowKey hown hr, build_of_needs hn, hc] at hw
          cases hw
      rw [hnone]
      cases hs : (byKey Fact.key (j.storedRows t.facts)).get? p.key with
      | some f =>
        rw [hs] at hcontent
        cases hcontent
      | none =>
        rw [hs] at hcontent
        exact hkept _ _ hcontent

end History

/-- From any founded facts. -/
theorem sameThroughout_iff (hfw : fw.CollisionFree) (js : List (Run Fp)) (past : List (Run Fp)) (t : Traced fw)
    (hfound : Founded past t) (hdig : Digested (past ++ js)) : SameThroughout t js ↔ CurrentThroughout t js := by
  induction js generalizing past t with
  | nil => exact Iff.rfl
  | cons j js ih =>
    -- the digests speak of the runs as a set
    have hstep : Digested (j :: past) := by
      intro j₁ h₁ j₂ h₂
      refine hdig j₁ ?_ j₂ ?_
      · cases List.mem_cons.mp h₁ with
        | inl h => exact List.mem_append_right _ (h ▸ List.mem_cons_self)
        | inr h => exact List.mem_append_left _ h
      · cases List.mem_cons.mp h₂ with
        | inl h => exact List.mem_append_right _ (h ▸ List.mem_cons_self)
        | inr h => exact List.mem_append_left _ h
    have hrest : Digested ((j :: past) ++ js) := by
      intro j₁ h₁ j₂ h₂
      refine hdig j₁ ?_ j₂ ?_
      · exact List.perm_middle.mem_iff.mpr h₁
      · exact List.perm_middle.mem_iff.mpr h₂
    show SameFacts j t.facts ∧ SameThroughout (j.trace t) js ↔ CarriesCurrent j t ∧ CurrentThroughout (j.trace t) js
    rw [sameFacts_iff hfw hfound hstep, ih (j :: past) (j.trace t) (founded_trace hfw hfound hstep) hrest]

/-- **The skip path agrees with the full path over a history of windows, sources and configurations exactly
    when every fact it carries on was normalised by what is in force.** -/
theorem skip_exact_iff (hfw : fw.CollisionFree) (js : List (Run Fp)) (hdig : Digested js) :
    SameThroughout ({} : Traced fw) js ↔ CurrentThroughout ({} : Traced fw) js :=
  sameThroughout_iff hfw js [] {} (fun _ hp => absurd hp List.not_mem_nil) hdig

/-! ## §6. A switch is turned on. -/

/-- The fold of one transaction, answered within the window, under this configuration. -/
def foldUnder (cfg : FieldConfig) : Run Print where
  source := oneTransaction (namedRow 1 "A" 5 0) [responseAt 6]
  window := ⟨0, 10⟩
  zone := ⟨"UTC", utc_named⟩
  config := cfg

/-- Nothing of the response is kept; then its field is switched on, and the window is folded again. -/
def switchedOn : List (Run Print) := [foldUnder requestOnly, foldUnder keepsResponse]

theorem digested_switchedOn : Digested switchedOn := by
  have hrow : ∀ j ∈ switchedOn, ∀ r ∈ j.source.store.txns, r = namedRow 1 "A" 5 0 := by
    intro j hj r hr
    cases List.mem_cons.mp hj with
    | inl h =>
      rw [h] at hr
      exact List.mem_singleton.mp hr
    | inr h =>
      rw [List.mem_singleton.mp h] at hr
      exact List.mem_singleton.mp hr
  intro j hj j' hj' r hr r' hr' _ _ _
  rw [hrow j hj r hr, hrow j' hj' r' hr']

/-- The second fold carries the fact on, without the field. -/
theorem switchedOn_not_same : ¬∀ js : List (Run Print), Digested js →
    SameThroughout ({} : Traced printWorld) js := by
  intro h
  have hsame := (h switchedOn digested_switchedOn).2.1
  have hdig : Digested [foldUnder keepsResponse, foldUnder requestOnly] := by
    intro j hj j' hj'
    exact digested_switchedOn j ((List.Perm.swap _ _ []).mem_iff.mp hj) j'
      ((List.Perm.swap _ _ []).mem_iff.mp hj')
  have hfirst : Digested [foldUnder requestOnly] := fun j hj j' hj' =>
    hdig j (List.mem_cons_of_mem _ hj) j' (List.mem_cons_of_mem _ hj')
  have hfound : Founded [foldUnder requestOnly] ((foldUnder requestOnly).trace ({} : Traced printWorld)) :=
    founded_trace printWorld_collisionFree (fun _ hp => absurd hp List.not_mem_nil) hfirst
  have hrow : namedRow 1 "A" 5 0 ∈ (foldUnder keepsResponse).sourceRows :=
    mem_sourceRows.mpr ⟨List.mem_singleton_self _, by decide, by decide⟩
  -- the second fold carries the fact on: its digest is the one that was stored
  have hcarried : (foldUnder keepsResponse).needs
      ((foldUnder requestOnly).trace ({} : Traced printWorld)).facts 1 = false := by
    decide +kernel
  have hbare : ((foldUnder keepsResponse).storedByTxn
      ((foldUnder requestOnly).trace ({} : Traced printWorld)).facts 1).map
        (fun f => f.content.attributes.length) = some 0 := by
    decide +kernel
  have hvisible : NoHiddenNamesake (foldUnder keepsResponse)
      ((foldUnder requestOnly).trace ({} : Traced printWorld)).facts := by
    intro r hr hn
    have hid : r.id = 1 := by
      rw [List.mem_singleton.mp (mem_sourceRows.mp hr).1]
      rfl
    rw [hid, hcarried] at hn
    cases hn
  obtain ⟨p, hp, -, -, o, ho, hiff⟩ := carried_founded hfound hdig hrow hcarried
  obtain ⟨-, hpayload⟩ := normalised_iff.mp (hiff.mpr
    ((sameFacts_iff printWorld_collisionFree hfound hdig).mp hsame hvisible _ hrow hcarried o ho))
  have hsaid : canonicalAttributes ((foldUnder keepsResponse).lineAttributes (namedRow 1 "A" 5 0)) =
      canonicalAttributes p.content.attributes := congrArg FactContent.attributes hpayload
  -- but under the new switch the line brings one field, and the carried fact has none
  have hfield : (canonicalAttributes ((foldUnder keepsResponse).lineAttributes (namedRow 1 "A" 5 0))).length = 1 := by
    decide +kernel
  have hempty : (some p).map (fun f : Fact printWorld => f.content.attributes.length) = some 0 := by
    rw [← hp]
    exact hbare
  have hempty : p.content.attributes.length = 0 := Option.some.inj hempty
  rw [hsaid, List.length_eq_zero_iff.mp hempty] at hfield
  cases hfield

theorem skip_exact_iff_switchedOn :
    SameThroughout ({} : Traced printWorld) switchedOn ↔ CurrentThroughout ({} : Traced printWorld) switchedOn :=
  skip_exact_iff printWorld_collisionFree switchedOn digested_switchedOn

end RagPipeline.Analytics
