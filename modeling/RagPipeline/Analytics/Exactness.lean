/-
  RagPipeline.Analytics.Exactness — after a slice the facts of the window are the normalised source.

  With nothing suppressed the diff sees both sides whole, and what it writes is what the run BUILT, unless the
  stored fact has its fingerprint.  Whether that is the source's normalisation depends on two reads:

    * the response lines are read through the SAME window as the transactions, so a line past the
      window's end is missing from the fact — and the digest then says that nothing moved;
    * a stored fact is carried on when the row's digest has not changed, whatever else the
      normalisation read (the tenant's zone) has.

  A row that raises, or whose quantity the column does not take, rolls the slice back (`Run.slice`).

  `exact_iff` is the exact condition for one slice, `slice_settles` what a slice leaves when it holds, and
  `correct_iff` the statement about families of windows: every slice of every order is exact and
  repeatable and the order does not matter, exactly when the condition holds at every slice.
-/
import RagPipeline.Analytics.NormaliseTotal

namespace RagPipeline.Analytics

open RagPipeline.Stage2 RagPipeline.Lib

variable {Fp : Type} {fw : FoldWorld Fp}

/-! ## §1. What a fold ought to leave. -/

/-- The normalisation of a transaction: from ALL its response lines. -/
def Run.full (fw : FoldWorld Fp) (j : Run Fp) (row : TxnRow Fp) : Option (FactContent Fp) :=
  (fw.normalise j.zone j.config (j.source.responses row.id) row).toOption

/-- The fact a key of the source stands for. -/
def Run.target (fw : FoldWorld Fp) (j : Run Fp) (k : FactKey) : Option (FactContent Fp) :=
  (j.source.store.txns.find? fun r => decide (rowKey r = k)).bind (j.full fw)

/-- What the fact of a key says. -/
def contentAt (facts : Facts fw) (k : FactKey) : Option (FactContent Fp) :=
  (facts.find k).map fun f => f.content

/-- `analytics_facts.quantity`. -/
def quantityColumn : NumericColumn := ⟨20, 6⟩

/-- The column holds the quantity as it is. -/
def FactContent.Held (c : FactContent Fp) : Prop := ∀ q, c.quantity = some q → quantityColumn.Holds (.finite q)

variable [DecidableEq Fp]

/-- What stays under a key for which `b` is built: the stored fact, when it has the fingerprint of `b`. -/
def Built.over (b : Built fw) : Option (Fact fw) → Fact fw
  | none => (folding fw).fresh b
  | some f => if f.sourceVersionHash = b.sourceVersionHash then f else (folding fw).revise f b

/-- A row fails the slice that normalises it: `normalise` raises, or the column does not take the quantity. -/
def Interpreter.fails (it : Interpreter Fp) (zone : Zone) (cfg : FieldConfig) (lines : List LogEntry)
    (row : TxnRow Fp) : Bool :=
  match it.normaliseRaising zone cfg lines row with
  | none => true
  | some (.error _) => false
  | some (.ok fact) => fact.number.any fun x => (quantityColumn.store x).isNone

variable (it : Interpreter Fp)

/-- The slice normalises the row and fails at it. -/
def Run.failsAt (j : Run Fp) (facts : Facts it.world) (r : TxnRow Fp) : Bool :=
  j.needs facts r.id && it.fails j.zone j.config (j.responses r.id) r

/-- **One slice**: the fold, or nothing when a row fails it. -/
def Run.slice (j : Run Fp) (facts : Facts it.world) : Option (Facts it.world) :=
  if j.sourceRows.any (j.failsAt it facts) then none else j.fold facts

/-- A slice that fails is rolled back. -/
def Run.afterSlice (j : Run Fp) (facts : Facts it.world) : Facts it.world := (j.slice it facts).getD facts

/-- The slice succeeds; in its window there is one fact for each mappable source transaction, with the
    values of its normalisation, held by its columns, and no other; outside nothing moved. -/
def Exact (j : Run Fp) (facts : Facts it.world) : Prop :=
  ∃ facts', j.slice it facts = some facts' ∧
    (∀ k, j.window.covers k.2 = true →
      contentAt facts' k = j.target it.world k ∧ ∀ c, contentAt facts' k = some c → c.Held) ∧
    ∀ k, j.window.covers k.2 = false → facts'.find k = facts.find k

/-- Folding the window again changes nothing. -/
def Repeatable (j : Run Fp) (facts : Facts it.world) : Prop :=
  ∃ facts'', j.slice it (j.afterSlice it facts) = some facts'' ∧ ∀ k, facts''.find k = (j.afterSlice it facts).find k

/-- A row is read in full: its column holds the quantity of its normalisation; if the slice normalises it, it does
    not fail, and what that leaves is the normalisation from all its response lines; and if the slice carries its
    fact on, that is what the fact says. -/
structure ReadInFull (j : Run Fp) (facts : Facts it.world) (r : TxnRow Fp) : Prop where
  held : ∀ c, j.full it.world r = some c → c.Held
  read : j.needs facts r.id = true → it.fails j.zone j.config (j.responses r.id) r = false ∧
    ((j.normalised it.world r).toOption.map fun c => ((it.world.build c).over (facts.find (rowKey r))).content) =
      j.full it.world r
  carried : j.needs facts r.id = false → ∀ p, j.storedByTxn facts r.id = some p → j.full it.world r = some p.content

/-- So is every row of the window. -/
def ReadsAll (j : Run Fp) (facts : Facts it.world) : Prop := ∀ r ∈ j.sourceRows, ReadInFull it j facts r

/-- A fixed source, zone and field configuration.  The digest of a row covers its start. -/
structure Scene (Fp : Type) where
  source : Source Fp
  zone : Zone
  config : FieldConfig
  digested : ∀ r ∈ source.store.txns, ∀ r' ∈ source.store.txns,
    r.rowFingerprint ≠ none → r.rowFingerprint = r'.rowFingerprint → r.startedAt = r'.startedAt

/-- A window, and the transactions the record grain asks for in it. -/
abbrev Ticket := UtcWindow × List UUID

/-- The fold of a ticket; nothing is suppressed. -/
def Scene.run (s : Scene Fp) (w : Ticket) : Run Fp :=
  { source := s.source, window := w.1, zone := s.zone, config := s.config, refresh := w.2 }

/-- The facts after a family of tickets. -/
def Scene.after (s : Scene Fp) (facts : Facts it.world) (ws : List Ticket) : Facts it.world :=
  ws.foldl (fun facts w => (s.run w).afterSlice it facts) facts

/-- Every slice of a family is exact and repeatable. -/
def Scene.ExactThroughout (s : Scene Fp) : Facts it.world → List Ticket → Prop
  | _, [] => True
  | facts, w :: ws =>
      Exact it (s.run w) facts ∧ Repeatable it (s.run w) facts ∧
        s.ExactThroughout ((s.run w).afterSlice it facts) ws

/-- Every slice of a family reads all it needs. -/
def Scene.ReadsThroughout (s : Scene Fp) : Facts it.world → List Ticket → Prop
  | _, [] => True
  | facts, w :: ws => ReadsAll it (s.run w) facts ∧ s.ReadsThroughout ((s.run w).afterSlice it facts) ws

/-- In every order every slice is exact and repeatable, and the order does not matter. -/
def Scene.Correct (s : Scene Fp) (facts : Facts it.world) (ws : List Ticket) : Prop :=
  (∀ vs, vs.Perm ws → s.ExactThroughout it facts vs) ∧
    ∀ vs vs', vs.Perm ws → vs'.Perm ws → ∀ k, (s.after it facts vs).find k = (s.after it facts vs').find k

/-! ## §2. The target. -/

omit [DecidableEq Fp] in
/-- The row of a key is the one in the table. -/
theorem find_key {txns : List (TxnRow Fp)} (hu : (txns.map rowKey).Nodup) {r : TxnRow Fp} (hr : r ∈ txns) :
    (txns.find? fun r' => decide (rowKey r' = rowKey r)) = some r := by
  refine find?_only hr (decide_eq_true rfl) fun r' hr' hkey => ?_
  exact List.inj_on_of_nodup_map hu hr' hr (of_decide_eq_true hkey)

omit [DecidableEq Fp] in
/-- A row is what its key stands for. -/
theorem target_rowKey {j : Run Fp} {r : TxnRow Fp} (hr : r ∈ j.source.store.txns) :
    j.target fw (rowKey r) = j.full fw r := by
  rw [Run.target, find_key j.source.unique hr]
  rfl

omit [DecidableEq Fp] in
theorem target_eq_some {j : Run Fp} {k : FactKey} {c : FactContent Fp} (h : j.target fw k = some c) :
    ∃ r ∈ j.source.store.txns, rowKey r = k ∧ j.full fw r = some c := by
  obtain ⟨r, hr, hc⟩ := Option.bind_eq_some_iff.mp h
  have hkey : rowKey r = k := by simpa using List.find?_some hr
  exact ⟨r, List.mem_of_find?_eq_some hr, hkey, hc⟩

omit [DecidableEq Fp] in
/-- A normalisation has the key and the digest of its row, and today's version. -/
theorem full_spec {j : Run Fp} {r : TxnRow Fp} {c : FactContent Fp} (h : j.full fw r = some c) :
    c.key = rowKey r ∧ c.srcFp = r.rowFingerprint ∧ c.normVersion = some normaliseVersion := by
  unfold Run.full at h
  cases hn : fw.normalise j.zone j.config (j.source.responses r.id) r with
  | error i => simp [hn, Except.toOption] at h
  | ok c' =>
      rw [hn] at h
      obtain rfl := Option.some.inj h
      exact normalise_ok hn

omit [DecidableEq Fp] in
/-- A built fact is determined by what it says. -/
theorem Built.eq_build (b : Built fw) : b = fw.build b.content := by
  obtain ⟨c, h, hh⟩ := b
  subst hh
  rfl

/-- The stored fact stays, or the new one takes its place. -/
theorem Built.over_cases (b : Built fw) (f : Fact fw) :
    f.sourceVersionHash = b.sourceVersionHash ∧ b.over (some f) = f ∨
      f.sourceVersionHash ≠ b.sourceVersionHash ∧ b.over (some f) = (folding fw).revise f b := by
  by_cases h : f.sourceVersionHash = b.sourceVersionHash
  · exact Or.inl ⟨h, if_pos h⟩
  · exact Or.inr ⟨h, if_neg h⟩

/-- What stays has the payload of what was built. -/
theorem canonical_over (hfw : fw.CollisionFree) (b : Built fw) (stored : Option (Fact fw)) :
    (b.over stored).content.canonical = b.content.canonical := by
  cases stored with
  | none => rfl
  | some f =>
      rcases b.over_cases f with ⟨hsame, hover⟩ | ⟨-, hover⟩
      · rw [hover]
        exact (sourceVersionHash_eq_iff hfw).mp hsame
      · rw [hover]
        rfl

/-- What the diff leaves of a key for which `b` is built. -/
theorem resolved_some {stored : OrderedDict FactKey (Fact fw)} {want : OrderedDict FactKey (Built fw)}
    {facts : Facts fw} {k : FactKey} {b : Built fw} (h : want.get? k = some b) :
    resolved (folding fw) stored want facts k = some (b.over (stored.get? k)) := by
  unfold resolved
  rw [h]
  cases hs : stored.get? k with
  | none => rfl
  | some f =>
      rcases b.over_cases f with ⟨hsame, hover⟩ | ⟨hsame, hover⟩
      · rw [hover]
        exact if_pos (decide_eq_true hsame)
      · rw [hover]
        exact if_neg (by simpa [folding] using hsame)

/-! ## §3. What the run built, key by key. -/

section Scene

variable {s : Scene Fp} {w : Ticket} {facts : Facts fw}

omit [DecidableEq Fp] in
/-- With nothing suppressed the source side is the window. -/
theorem mem_scene_sourceRows {r : TxnRow Fp} :
    r ∈ (s.run w).sourceRows ↔ r ∈ s.source.store.txns ∧ w.1.covers r.startedAt = true := by
  rw [mem_sourceRows]
  have hcap : isCaptured (s.run w).suppressed r.values.transactionName = true := by
    cases r.values.transactionName with
    | none => rfl
    | some name => simp [Scene.run, isCaptured]
  simp only [hcap, and_true]
  exact Iff.rfl

omit [DecidableEq Fp] in
/-- With nothing suppressed the stored side is the window. -/
theorem scene_stored_get? {k : FactKey} {f : Fact fw} :
    (byKey Fact.key ((s.run w).storedRows facts)).get? k = some f ↔
      facts.find k = some f ∧ w.1.covers k.2 = true := by
  rw [stored_get?]
  have hcap : isCaptured (s.run w).suppressed f.content.transactionName = true := by
    cases f.content.transactionName with
    | none => rfl
    | some name => simp [Scene.run, isCaptured]
  simp only [hcap, and_true]
  exact Iff.rfl

omit [DecidableEq Fp] in
/-- In its window the stored side shows the facts. -/
theorem scene_stored {k : FactKey} (hk : w.1.covers k.2 = true) :
    (byKey Fact.key ((s.run w).storedRows facts)).get? k = facts.find k := by
  apply Option.ext
  intro f
  rw [scene_stored_get?]
  exact and_iff_left hk

/-- A run with nothing suppressed succeeds. -/
theorem scene_fold_ne_none : (s.run w).fold facts ≠ none := by
  intro hnone
  obtain ⟨b, hb, hs, hf⟩ := fold_eq_none.mp hnone
  obtain ⟨f, hf'⟩ := Option.ne_none_iff_exists'.mp hf
  rw [scene_stored_get?.mpr ⟨hf', covers_of_mem_facts hb⟩] at hs
  exact absurd hs (by simp)

/-- The row whose lines are read is what its key gets. -/
theorem want_of_needs {r : TxnRow Fp} (hr : r ∈ (s.run w).sourceRows)
    (hn : (s.run w).needs facts r.id = true) :
    (byKey Built.key ((s.run w).facts facts)).get? (rowKey r) =
      ((s.run w).normalised fw r).toOption.map fw.build := by
  -- nothing but the row itself builds a fact under its key
  have honly : ∀ b ∈ (s.run w).facts facts, b.key = rowKey r →
      (s.run w).build facts r = .ok b := by
    intro b hb hkey
    obtain ⟨r', hr', hb'⟩ := mem_facts.mp hb
    cases hn' : (s.run w).needs facts r'.id with
    | false =>
        obtain ⟨p, hp, -⟩ := prior_of_not_needs hr' hn'
        have hbp := hb'
        rw [build_of_carried hn' hp] at hbp
        obtain rfl := Except.ok.inj hbp
        have hid : r'.id = r.id := by
          rw [← (storedByTxn_eq_some hp).2]
          exact congrArg Prod.fst hkey
        rw [hid, hn] at hn'
        exact absurd hn' (by simp)
    | true =>
        have hbn := hb'
        rw [build_of_needs hn'] at hbn
        cases hc : (s.run w).normalised fw r' with
        | error i => simp [hc, Except.map] at hbn
        | ok c =>
            simp only [hc, Except.map, Except.ok.injEq] at hbn
            subst hbn
            have hkey' : rowKey r' = rowKey r := (normalise_ok hc).1.symm.trans hkey
            have heq : r' = r :=
              List.inj_on_of_nodup_map s.source.unique (mem_scene_sourceRows.mp hr').1
                (mem_scene_sourceRows.mp hr).1 hkey'
            rw [← heq]
            exact hb'
  have hbuild : (s.run w).build facts r = ((s.run w).normalised fw r).map fw.build := build_of_needs hn
  cases hc : (s.run w).normalised fw r with
  | error i =>
      cases hg : (byKey Built.key ((s.run w).facts facts)).get? (rowKey r) with
      | none => rfl
      | some b =>
          obtain ⟨hb, hkey⟩ := byKey_sound hg
          have := honly b hb hkey
          rw [hbuild, hc] at this
          exact absurd this (by simp [Except.map])
  | ok c =>
      have hmem : fw.build c ∈ (s.run w).facts facts := by
        refine mem_facts.mpr ⟨r, hr, ?_⟩
        rw [hbuild, hc]
        rfl
      have hkey : (fw.build c).key = rowKey r := (normalise_ok hc).1
      obtain ⟨b, hg⟩ := Option.ne_none_iff_exists'.mp (byKey_complete (f := Built.key) hmem)
      rw [hkey] at hg
      obtain ⟨hb, hbk⟩ := byKey_sound hg
      have := honly b hb hbk
      rw [hbuild, hc] at this
      simp only [Except.map, Except.ok.injEq] at this
      rw [hg, ← this]
      rfl

/-- A fact built from a row of an id that is carried on is the stored fact of the id. -/
theorem carried_of_id {b : Built fw} {tid : UUID} {p : Fact fw} (hb : b ∈ (s.run w).facts facts)
    (hid : b.key.1 = tid) (hn : (s.run w).needs facts tid = false)
    (hp : (s.run w).storedByTxn facts tid = some p) : b = p.toBuilt := by
  obtain ⟨r', hr', hb'⟩ := mem_facts.mp hb
  have hrid : r'.id = tid := by
    cases hn' : (s.run w).needs facts r'.id with
    | false =>
        obtain ⟨p', hp', -⟩ := prior_of_not_needs hr' hn'
        rw [build_of_carried hn' hp'] at hb'
        obtain rfl := Except.ok.inj hb'
        exact (storedByTxn_eq_some hp').2.symm.trans hid
    | true =>
        rw [build_of_needs hn'] at hb'
        cases hc : (s.run w).normalised fw r' with
        | error i => simp [hc, Except.map] at hb'
        | ok c =>
            simp only [hc, Except.map, Except.ok.injEq] at hb'
            subst hb'
            have hkey : c.key = rowKey r' := (normalise_ok hc).1
            exact (congrArg Prod.fst hkey).symm.trans hid
  subst hrid
  rw [build_of_carried hn hp] at hb'
  exact (Except.ok.inj hb').symm

/-- **After a fold the window says what the run built**, over what was stored. -/
theorem contentAt_fold {facts' : Facts fw} (h : (s.run w).fold facts = some facts') {k : FactKey}
    (hk : w.1.covers k.2 = true) :
    contentAt facts' k =
      ((byKey Built.key ((s.run w).facts facts)).get? k).map fun b => (b.over (facts.find k)).content := by
  rw [contentAt, find_fold h]
  cases hw : (byKey Built.key ((s.run w).facts facts)).get? k with
  | none =>
      unfold resolved
      rw [hw, scene_stored hk]
      cases hf : facts.find k with
      | some f => rfl
      | none => rfl
  | some b =>
      rw [resolved_some hw, scene_stored hk]
      rfl

/-- With the digests of the scene, the normalisation a row carries on can only be its own. -/
theorem row_of_carried {r r' : TxnRow Fp} {p : Fact fw} (hr : r ∈ (s.run w).sourceRows)
    (hr' : r' ∈ s.source.store.txns) (hn : (s.run w).needs facts r.id = false)
    (hp : (s.run w).storedByTxn facts r.id = some p) (hf : (s.run w).full fw r' = some p.content) :
    r' = r := by
  obtain ⟨p', hp', hne, hfp, -⟩ := prior_of_not_needs hr hn
  rw [hp] at hp'
  obtain rfl := Option.some.inj hp'
  obtain ⟨hkey, hsrc, -⟩ := full_spec hf
  have hstart : r.startedAt = r'.startedAt :=
    s.digested r (mem_scene_sourceRows.mp hr).1 r' hr' hne (hfp.symm.trans hsrc)
  have hid : r'.id = r.id := by
    rw [← (storedByTxn_eq_some hp).2]
    exact (congrArg Prod.fst hkey).symm
  refine List.inj_on_of_nodup_map s.source.unique hr' (mem_scene_sourceRows.mp hr).1 ?_
  exact Prod.ext hid hstart.symm

/-- What the window says of a row once it is folded. -/
structure SaysFull (fw : FoldWorld Fp) (j : Run Fp) (facts : Facts fw) (r : TxnRow Fp) : Prop where
  read : j.needs facts r.id = true →
    ((j.normalised fw r).toOption.map fun c => ((fw.build c).over (facts.find (rowKey r))).content) = j.full fw r
  carried : j.needs facts r.id = false → ∀ p, j.storedByTxn facts r.id = some p → j.full fw r = some p.content

/-- A fact that is carried on is there, and stays. -/
theorem over_carried {r : TxnRow Fp} {p : Fact fw} (hp : (s.run w).storedByTxn facts r.id = some p) :
    p.toBuilt.over (facts.find p.key) = p := by
  rw [Table.find_of_mem (mem_storedRows.mp (storedByTxn_eq_some hp).1).1]
  exact if_pos rfl

/-- **What the run built is the source's normalisation exactly when it read all it needs.** -/
theorem built_iff :
    (∀ k, w.1.covers k.2 = true →
      (((byKey Built.key ((s.run w).facts facts)).get? k).map fun b => (b.over (facts.find k)).content) =
        (s.run w).target fw k) ↔
    ∀ r ∈ (s.run w).sourceRows, SaysFull fw (s.run w) facts r := by
  constructor
  · intro h r hr
    have hmem := (mem_scene_sourceRows.mp hr).1
    have hcov := (mem_scene_sourceRows.mp hr).2
    refine ⟨fun hn => ?_, fun hn p hp => ?_⟩
    · have := h (rowKey r) hcov
      rw [want_of_needs hr hn, target_rowKey hmem, Option.map_map] at this
      exact this
    · -- the carried fact is what its own key gets, so it is the normalisation of a row: of this one
      have hb : p.toBuilt ∈ (s.run w).facts facts := mem_facts.mpr ⟨r, hr, build_of_carried hn hp⟩
      obtain ⟨b, hg⟩ := Option.ne_none_iff_exists'.mp (byKey_complete (f := Built.key) hb)
      obtain ⟨hbmem, hbkey⟩ := byKey_sound hg
      have hid : b.key.1 = r.id := by
        rw [hbkey]
        exact (storedByTxn_eq_some hp).2
      have heq := carried_of_id hbmem hid hn hp
      have hpcov : w.1.covers p.toBuilt.key.2 = true := covers_of_mem_facts hb
      have htarget := h p.toBuilt.key hpcov
      have hstays : p.toBuilt.over (facts.find p.toBuilt.key) = p := over_carried hp
      rw [hg, heq, Option.map_some, hstays] at htarget
      obtain ⟨r', hr', -, hfull⟩ := target_eq_some htarget.symm
      rw [← row_of_carried hr hr' hn hp hfull]
      exact hfull
  · intro h k hk
    -- what is built is right
    have hright : ∀ b ∈ (s.run w).facts facts,
        (s.run w).target fw b.key = some (b.over (facts.find b.key)).content := by
      intro b hb
      obtain ⟨r, hr, hbr⟩ := mem_facts.mp hb
      have hmem := (mem_scene_sourceRows.mp hr).1
      cases hn : (s.run w).needs facts r.id with
      | true =>
          have hfull := (h r hr).read hn
          rw [build_of_needs hn] at hbr
          cases hc : (s.run w).normalised fw r with
          | error i => simp [hc, Except.map] at hbr
          | ok c =>
              simp only [hc, Except.map, Except.ok.injEq] at hbr
              subst hbr
              rw [hc] at hfull
              have hkey : (fw.build c).key = rowKey r := (normalise_ok hc).1
              rw [hkey, target_rowKey hmem, ← hfull]
              rfl
      | false =>
          obtain ⟨p, hp, -⟩ := prior_of_not_needs hr hn
          have hfull := (h r hr).carried hn p hp
          rw [build_of_carried hn hp] at hbr
          obtain rfl := Except.ok.inj hbr
          have hkey : p.toBuilt.key = rowKey r := (full_spec hfull).1
          have hstays : p.toBuilt.over (facts.find p.toBuilt.key) = p := over_carried hp
          rw [hstays, hkey, target_rowKey hmem, hfull]
    cases ht : (s.run w).target fw k with
    | none =>
        cases hg : (byKey Built.key ((s.run w).facts facts)).get? k with
        | none => rfl
        | some b =>
            obtain ⟨hb, rfl⟩ := byKey_sound hg
            rw [hright b hb] at ht
            exact absurd ht (by simp)
    | some c =>
        -- and everything that has to be is built
        obtain ⟨r, hmem, rfl, hfull⟩ := target_eq_some ht
        have hr : r ∈ (s.run w).sourceRows := mem_scene_sourceRows.mpr ⟨hmem, hk⟩
        cases hn : (s.run w).needs facts r.id with
        | true =>
            rw [want_of_needs hr hn, Option.map_map, ← hfull]
            exact (h r hr).read hn
        | false =>
            obtain ⟨p, hp, -⟩ := prior_of_not_needs hr hn
            have hb : p.toBuilt ∈ (s.run w).facts facts :=
              mem_facts.mpr ⟨r, hr, build_of_carried hn hp⟩
            have hpfull := (h r hr).carried hn p hp
            have hkey : p.toBuilt.key = rowKey r := (full_spec hpfull).1
            obtain ⟨b, hg⟩ := Option.ne_none_iff_exists'.mp (byKey_complete (f := Built.key) hb)
            rw [hkey] at hg
            obtain ⟨hbmem, hbkey⟩ := byKey_sound hg
            have := hright b hbmem
            rw [hbkey, ht] at this
            rw [hg, Option.map_some, this]

end Scene

section Slice

variable {it : Interpreter Fp} {s : Scene Fp} {w : Ticket} {facts : Facts it.world}

/-! ## §4. One slice. -/

/-- A slice is its fold exactly when no row fails. -/
theorem slice_eq (h : ∀ r ∈ (s.run w).sourceRows, (s.run w).failsAt it facts r = false) :
    (s.run w).slice it facts = (s.run w).fold facts := by
  refine if_neg ?_
  rw [List.any_eq_true]
  rintro ⟨r, hr, hfails⟩
  rw [h r hr] at hfails
  cases hfails

theorem not_failsAt_of_slice {facts' : Facts it.world} (h : (s.run w).slice it facts = some facts') :
    (∀ r ∈ (s.run w).sourceRows, (s.run w).failsAt it facts r = false) ∧ (s.run w).fold facts = some facts' := by
  unfold Run.slice at h
  split at h
  · cases h
  · next hnone =>
    rw [List.any_eq_true] at hnone
    exact ⟨fun r hr => Bool.eq_false_iff.mpr fun hfails => hnone ⟨r, hr, hfails⟩, h⟩

/-- A row that is read in full does not fail. -/
theorem ReadInFull.not_failsAt {r : TxnRow Fp} (h : ReadInFull it (s.run w) facts r) :
    (s.run w).failsAt it facts r = false := by
  unfold Run.failsAt
  cases hn : (s.run w).needs facts r.id with
  | true => exact (h.read hn).1
  | false => rfl

theorem ReadInFull.told {r : TxnRow Fp} (h : ReadInFull it (s.run w) facts r) :
    SaysFull it.world (s.run w) facts r :=
  ⟨fun hn => (h.read hn).2, h.carried⟩

/-- **A slice is exact exactly when it reads all it needs.** -/
theorem exact_iff : Exact it (s.run w) facts ↔ ReadsAll it (s.run w) facts := by
  constructor
  · rintro ⟨facts', hslice, hin, -⟩ r hr
    -- a slice that went through is the fold, so what it built tells what each row says
    obtain ⟨hnone, hfold⟩ := not_failsAt_of_slice hslice
    have htold := built_iff.mp (fun k hk => (contentAt_fold hfold hk).symm.trans (hin k hk).1) r hr
    refine ⟨fun c hc => ?_, fun hn => ⟨?_, htold.read hn⟩, htold.carried⟩
    · obtain ⟨hmem, hcov⟩ := mem_scene_sourceRows.mp hr
      obtain ⟨hthere, hheld⟩ := hin (rowKey r) hcov
      rw [target_rowKey hmem, hc] at hthere
      exact hheld c hthere
    · have hfails := hnone r hr
      unfold Run.failsAt at hfails
      rw [hn] at hfails
      exact hfails
  · intro h
    -- a row read in full does not raise, so the slice is the fold, and the fold cannot fail
    have hslice := slice_eq fun r hr => (h r hr).not_failsAt
    have hsome : (s.run w).fold facts ≠ none := scene_fold_ne_none
    obtain ⟨facts', hfold⟩ := Option.ne_none_iff_exists'.mp hsome
    have htold : ∀ k, w.1.covers k.2 = true → contentAt facts' k = (s.run w).target it.world k := by
      intro k hk
      rw [contentAt_fold hfold hk]
      exact built_iff.mpr (fun r hr => (h r hr).told) k hk
    refine ⟨facts', hslice.trans hfold, fun k hk => ⟨htold k hk, fun c hc => ?_⟩, fun k hk => ?_⟩
    · rw [htold k hk] at hc
      obtain ⟨r, hr, hkey, hfull⟩ := target_eq_some hc
      refine (h r (mem_scene_sourceRows.mpr ⟨hr, ?_⟩)).held c hfull
      rw [← hkey] at hk
      exact hk
    · have hsame : ((s.run w).after facts).find k = facts.find k := find_after_outside hk
      rwa [Run.after, hfold] at hsame

/-! ## §5. What a slice leaves. -/

/-- The fact of a key once its window is folded: the stored one if it says the right thing, else the
    next version. -/
def settled (fw : FoldWorld Fp) : Option (FactContent Fp) → Option (Fact fw) → Option (Fact fw)
  | none, _ => none
  | some c, none => some { fw.build c with revision := 1 }
  | some c, some f =>
      if f.sourceVersionHash = fw.hash c then some f
      else some { fw.build c with revision := f.revision + 1 }

theorem settled_settled (c : Option (FactContent Fp)) (f : Option (Fact fw)) :
    settled fw c (settled fw c f) = settled fw c f := by
  cases c with
  | none => rfl
  | some c =>
      cases f with
      | none => simp [settled, FoldWorld.build]
      | some f =>
          by_cases h : f.sourceVersionHash = fw.hash c
          · simp [settled, h]
          · simp [settled, h, FoldWorld.build]

/-- What the diff leaves of a key is settled. -/
theorem settled_over (b : Built fw) (stored : Option (Fact fw)) :
    settled fw (some (b.over stored).content) stored = some (b.over stored) := by
  cases stored with
  | none =>
      rw [Built.eq_build b]
      rfl
  | some f =>
      rcases b.over_cases f with ⟨-, hover⟩ | ⟨hsame, hover⟩
      · rw [hover]
        exact if_pos f.fingerprinted
      · rw [hover]
        have hdiffer : f.sourceVersionHash ≠ fw.hash b.content := b.fingerprinted ▸ hsame
        refine (if_neg hdiffer).trans ?_
        rw [Built.eq_build b]
        rfl

/-- What was built, over what it left. -/
theorem over_again (b : Built fw) (stored : Option (Fact fw)) : b.over (some (b.over stored)) = b.over stored := by
  refine if_pos ?_
  cases stored with
  | none => rfl
  | some f =>
      rcases b.over_cases f with ⟨hsame, hover⟩ | ⟨-, hover⟩
      · rw [hover]
        exact hsame
      · rw [hover]
        rfl

/-- The slice that succeeded. -/
theorem slice_fold_eq (h : ReadsAll it (s.run w) facts) :
    (s.run w).slice it facts = some ((s.run w).afterSlice it facts) ∧
      (s.run w).fold facts = some ((s.run w).afterSlice it facts) := by
  obtain ⟨facts', hslice, -⟩ := exact_iff.mpr h
  have hafter : (s.run w).afterSlice it facts = facts' := by
    unfold Run.afterSlice
    rw [hslice]
    rfl
  rw [hafter]
  exact ⟨hslice, (not_failsAt_of_slice hslice).2⟩

/-- **A slice that reads all it needs settles its window.** -/
theorem slice_settles (h : ReadsAll it (s.run w) facts) (k : FactKey) :
    ((s.run w).afterSlice it facts).find k =
      if w.1.covers k.2 = true then settled it.world ((s.run w).target it.world k) (facts.find k)
      else facts.find k := by
  have hfold := (slice_fold_eq h).2
  by_cases hk : w.1.covers k.2 = true
  · rw [if_pos hk, find_fold hfold, ← built_iff.mpr (fun r hr => (h r hr).told) k hk]
    cases hw : (byKey Built.key ((s.run w).facts facts)).get? k with
    | none =>
        unfold resolved
        rw [hw, scene_stored hk]
        cases hf : facts.find k with
        | none => rfl
        | some f => rfl
    | some b =>
        rw [resolved_some hw, scene_stored hk]
        exact (settled_over b (facts.find k)).symm
  · rw [if_neg hk]
    have hsame : ((s.run w).after facts).find k = facts.find k := find_after_outside (Bool.eq_false_iff.mpr hk)
    rwa [Run.after, hfold] at hsame

/-- What is stored in the window afterwards is what the source's rows say. -/
theorem stored_after (h : ReadsAll it (s.run w) facts) {p : Fact it.world}
    (hp : p ∈ (s.run w).storedRows ((s.run w).afterSlice it facts)) :
    (s.run w).target it.world p.key = some p.content := by
  obtain ⟨hrow, hcov, -⟩ := mem_storedRows.mp hp
  obtain ⟨facts', hslice, hin, -⟩ := exact_iff.mpr h
  rw [(slice_fold_eq h).1] at hslice
  obtain rfl := Option.some.inj hslice
  rw [← (hin p.key hcov).1, contentAt, Table.find_of_mem hrow]
  rfl

/-- A row that is carried on is the only one of its id. -/
theorem carried_alone (h : ReadsAll it (s.run w) facts) {r r' : TxnRow Fp} (hr : r ∈ (s.run w).sourceRows)
    (hno : (s.run w).needs facts r.id = false) (hr' : r' ∈ (s.run w).sourceRows) (hid : r'.id = r.id) :
    r' = r := by
  have hno' : (s.run w).needs facts r'.id = false := hid ▸ hno
  obtain ⟨p, hp, -⟩ := prior_of_not_needs hr hno
  have hp' : (s.run w).storedByTxn facts r'.id = some p := hid ▸ hp
  exact row_of_carried hr (mem_scene_sourceRows.mp hr').1 hno hp ((h r' hr').carried hno' p hp')

omit [DecidableEq Fp] in
/-- An id with a fact in the window has a prior fact. -/
theorem storedByTxn_ne_none {j : Run Fp} {facts : Facts fw} {f : Fact fw} (hf : f ∈ j.storedRows facts) :
    j.storedByTxn facts f.content.sourceTransactionId ≠ none := by
  intro hnone
  have hnil := List.getLast?_eq_none_iff.mp hnone
  have hin : f ∈ (j.storedRows facts).filter
      fun g => decide (g.content.sourceTransactionId = f.content.sourceTransactionId) :=
    List.mem_filter.mpr ⟨hf, by simp⟩
  rw [hnil] at hin
  exact absurd hin (by simp)

/-- What was carried on is there afterwards. -/
theorem prior_after (h : ReadsAll it (s.run w) facts) {r : TxnRow Fp} (hr : r ∈ (s.run w).sourceRows)
    (hno : (s.run w).needs facts r.id = false) :
    (s.run w).storedByTxn ((s.run w).afterSlice it facts) r.id ≠ none := by
  obtain ⟨p, hp, -⟩ := prior_of_not_needs hr hno
  have hfull := (h r hr).carried hno p hp
  have hmem := (mem_scene_sourceRows.mp hr).1
  have hcov : w.1.covers (rowKey r).2 = true := (mem_scene_sourceRows.mp hr).2
  obtain ⟨facts', hslice, hin, -⟩ := exact_iff.mpr h
  rw [(slice_fold_eq h).1] at hslice
  obtain rfl := Option.some.inj hslice
  have hthere := (hin (rowKey r) hcov).1
  rw [target_rowKey hmem, hfull] at hthere
  obtain ⟨q, hq, -⟩ := Option.map_eq_some_iff.mp hthere
  have hkey : q.key = rowKey r := (Table.find_eq_some.mp hq).2
  have hstored : q ∈ (s.run w).storedRows ((s.run w).afterSlice it facts) := by
    have hshown : (byKey Fact.key ((s.run w).storedRows ((s.run w).afterSlice it facts))).get? (rowKey r) =
        some q := scene_stored_get?.mpr ⟨hq, hcov⟩
    exact (byKey_sound hshown).1
  have hid : q.content.sourceTransactionId = r.id := congrArg Prod.fst hkey
  rw [← hid]
  exact storedByTxn_ne_none hstored

/-- A row that is carried on by the first slice is carried on by the second. -/
theorem needs_after (h : ReadsAll it (s.run w) facts) {r : TxnRow Fp} (hr : r ∈ (s.run w).sourceRows)
    (hno : (s.run w).needs facts r.id = false) :
    (s.run w).needs ((s.run w).afterSlice it facts) r.id = false := by
  obtain ⟨p, -, hne, -⟩ := prior_of_not_needs hr hno
  obtain ⟨q, hq⟩ := Option.ne_none_iff_exists'.mp (prior_after h hr hno)
  obtain ⟨hqstored, hqid⟩ := storedByTxn_eq_some hq
  obtain ⟨r', hr', hkey, hfull⟩ := target_eq_some (stored_after h hqstored)
  have hsrc : r' ∈ (s.run w).sourceRows := by
    refine mem_scene_sourceRows.mpr ⟨hr', ?_⟩
    have hstart : r'.startedAt = q.content.eventTime := congrArg Prod.snd hkey
    rw [hstart]
    exact (mem_storedRows.mp hqstored).2.1
  have hid : r'.id = r.id := (congrArg Prod.fst hkey).trans hqid
  obtain rfl := carried_alone h hr hno hsrc hid
  obtain ⟨-, hqsrc, hqv⟩ := full_spec hfull
  simp only [Run.needs, Bool.or_eq_false_iff, List.any_eq_false] at hno ⊢
  refine ⟨fun r'' hr'' => ?_, hno.2⟩
  by_cases hid' : r''.id = r'.id
  · have hno' : (s.run w).needs facts r'.id = false := by
      simp only [Run.needs, Bool.or_eq_false_iff, List.any_eq_false]
      exact hno
    obtain rfl := carried_alone h hr hno' hr'' hid'
    cases hfpr : r''.rowFingerprint with
    | none => exact absurd hfpr hne
    | some fp => simp [needsEntries, hq, hfpr, hqsrc, hqv]
  · simp [hid']

/-- **A window that was read in full is read in full again.** -/
theorem readsAll_again (h : ReadsAll it (s.run w) facts) :
    ReadsAll it (s.run w) ((s.run w).afterSlice it facts) := by
  intro r hr
  refine ⟨(h r hr).held, fun hn => ?_, fun hn p hp => ?_⟩
  · have hbefore : (s.run w).needs facts r.id = true := by
      cases hno : (s.run w).needs facts r.id with
      | true => rfl
      | false =>
          rw [needs_after h hr hno] at hn
          exact absurd hn (by simp)
    obtain ⟨hfails, hfull⟩ := (h r hr).read hbefore
    refine ⟨hfails, ?_⟩
    obtain ⟨hmem, hcov⟩ := mem_scene_sourceRows.mp hr
    have hcov : w.1.covers (rowKey r).2 = true := hcov
    rw [slice_settles h, if_pos hcov, target_rowKey hmem, ← hfull]
    cases hc : (s.run w).normalised it.world r with
    | error i => rfl
    | ok c =>
      show some ((it.world.build c).over (settled it.world
        (some ((it.world.build c).over (facts.find (rowKey r))).content) (facts.find (rowKey r)))).content = _
      rw [settled_over, over_again]
      rfl
  · -- its fact is the normalisation of some row, so of this one
    obtain ⟨hpstored, -⟩ := storedByTxn_eq_some hp
    obtain ⟨r', hr', -, hfull⟩ := target_eq_some (stored_after h hpstored)
    rw [← row_of_carried hr hr' hn hp hfull]
    exact hfull

/-- **Folding the window again changes nothing.** -/
theorem repeatable_of_reads (h : ReadsAll it (s.run w) facts) : Repeatable it (s.run w) facts := by
  have hagain := readsAll_again h
  refine ⟨_, (slice_fold_eq hagain).1, fun k => ?_⟩
  rw [slice_settles hagain]
  by_cases hk : w.1.covers k.2 = true
  · rw [if_pos hk, slice_settles h, if_pos hk, settled_settled]
  · rw [if_neg hk]

/-! ## §6. Families of windows. -/

omit w in
theorem exactThroughout_iff (ws : List Ticket) : s.ExactThroughout it facts ws ↔ s.ReadsThroughout it facts ws := by
  induction ws generalizing facts with
  | nil => exact Iff.rfl
  | cons w ws ih =>
      show Exact it (s.run w) facts ∧ Repeatable it (s.run w) facts ∧ _ ↔ ReadsAll it (s.run w) facts ∧ _
      rw [exact_iff, ih]
      constructor
      · rintro ⟨hreads, -, hrest⟩
        exact ⟨hreads, hrest⟩
      · rintro ⟨hreads, hrest⟩
        exact ⟨hreads, repeatable_of_reads hreads, hrest⟩

/-- **What a family leaves**: every key a window covers is settled once, every other key untouched. -/
theorem find_after (ws : List Ticket) (h : s.ReadsThroughout it facts ws) (k : FactKey) :
    (s.after it facts ws).find k =
      if ∃ v ∈ ws, v.1.covers k.2 = true then settled it.world ((s.run w).target it.world k) (facts.find k)
      else facts.find k := by
  induction ws generalizing facts with
  | nil => simp [Scene.after]
  | cons v ws ih =>
      have hfirst := slice_settles h.1 k
      have htarget : (s.run v).target it.world k = (s.run w).target it.world k := rfl
      rw [htarget] at hfirst
      have hrest : (s.after it facts (v :: ws)).find k =
          (s.after it ((s.run v).afterSlice it facts) ws).find k := rfl
      rw [hrest, ih h.2, hfirst]
      simp only [List.exists_mem_cons_iff]
      by_cases hv : v.1.covers k.2 = true
      · simp [hv, settled_settled]
      · rw [if_neg hv]
        refine if_congr ?_ rfl rfl
        rw [or_iff_right hv]

end Slice

/-- **Folding any family of windows**: in every order every slice is exact and repeatable, and the order
    does not matter, exactly when every slice of every order reads all it needs. -/
theorem correct_iff (s : Scene Fp) (facts : Facts it.world) (ws : List Ticket) :
    s.Correct it facts ws ↔ ∀ vs, vs.Perm ws → s.ReadsThroughout it facts vs := by
  constructor
  · intro h vs hvs
    exact (exactThroughout_iff vs).mp (h.1 vs hvs)
  · intro h
    refine ⟨fun vs hvs => (exactThroughout_iff vs).mpr (h vs hvs), ?_⟩
    intro vs vs' hvs hvs' k
    have hmem : (∃ v ∈ vs, v.1.covers k.2 = true) ↔ ∃ v ∈ vs', v.1.covers k.2 = true := by
      simp only [hvs.mem_iff, hvs'.mem_iff]
    rw [find_after (w := (⟨0, 0⟩, [])) vs (h vs hvs) k, find_after (w := (⟨0, 0⟩, [])) vs' (h vs' hvs') k]
    simp only [hmem]

/-! ## §7. A response after the end of the window. -/

/-- One attribute for a transaction with a response. -/
def keepsResponse : FieldConfig :=
  ⟨fun _ lines => if lines.isEmpty then [] else [("resp.value", .int 1)], fun _ => 0⟩

/-- The response to the request. -/
def responseAt (t : Instant) : LogEntry :=
  { id := 0, sourceFile := "A/log", timestamp := some t, entryType := .response }

/-- A transaction that starts at 5 and is answered at 12. -/
def lateResponse : Scene Print where
  source := oneTransaction (namedRow 1 "A" 5 0) [responseAt 12]
  zone := ⟨"UTC", utc_named⟩
  config := keepsResponse
  digested := by
    intro r hr r' hr' _ _
    rw [List.mem_singleton.mp hr, List.mem_singleton.mp hr']

/-- The window that ends between the two, then the one that holds both. -/
def narrowThenWide : List Ticket := [(⟨0, 10⟩, []), (⟨0, 20⟩, [])]

/-- A payload is its own digest; every instant is in UTC; only "1" is a number. -/
def printing : Interpreter Print where
  digest := .fact
  utcoffset _ _ := 0
  decimal text := if text = "1" then some (.finite 1) else none

/-- The first slice misses the response, and the second one keeps what the first one built. -/
theorem lateResponse_not_correct :
    ¬lateResponse.Correct printing (Table.empty : Facts printing.world) narrowThenWide := by
  intro h
  have hwide : Exact printing (lateResponse.run (⟨0, 20⟩, []))
      ((lateResponse.run (⟨0, 10⟩, [])).afterSlice printing (Table.empty : Facts printing.world)) :=
    (h.1 narrowThenWide (List.Perm.refl _)).2.2.1
  have hrow : namedRow 1 "A" 5 0 ∈ (lateResponse.run (⟨0, 20⟩, [])).sourceRows :=
    mem_scene_sourceRows.mpr ⟨List.mem_singleton_self _, by decide⟩
  have hstored : (((lateResponse.run (⟨0, 20⟩, [])).storedByTxn
      ((lateResponse.run (⟨0, 10⟩, [])).afterSlice printing (Table.empty : Facts printing.world)) 1).map
        fun f => f.content.attributes.length) = some 0 := by
    decide +kernel
  obtain ⟨p, hp, hattrs⟩ := Option.map_eq_some_iff.mp hstored
  have hfull := (exact_iff.mp hwide _ hrow).carried (by decide +kernel) p hp
  have hresponse : (((lateResponse.run (⟨0, 20⟩, [])).full printing.world (namedRow 1 "A" 5 0)).map
      fun c => c.attributes.length) = some 1 := by
    decide +kernel
  rw [hfull, Option.map_some, hattrs] at hresponse
  exact absurd hresponse (by decide)

end RagPipeline.Analytics
