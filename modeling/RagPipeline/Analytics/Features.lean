/-
  RagPipeline.Analytics.Features — training sets, read from the ledger as it stood at an instant.

  A fold stamps every version it writes with one instant, in the transaction that holds the tenant's lock.  A
  training set takes, for each transaction, the newest version at or before its pin, and leaves out those that
  were taken away.  A stored set keeps its pin and the digest of its rows, not the rows.

    * `asOf_exact`      — the set is the facts as the last fold before the pin left them, if no conversation
                          changes its start;
    * `moved_excluded`  — one whose start a fold changes is missing until it is written again;
    * `verify_forever`  — a set that was pinned to what had been recorded is rebuilt as it was, whatever is
                          folded later.
-/
import RagPipeline.Analytics.Ledger
import RagPipeline.Lib.History
import RagPipeline.Lib.Keyset

namespace RagPipeline.Analytics

open RagPipeline.Stage2 RagPipeline.Lib RagPipeline.Lib.Keyset

variable {Fp : Type} [DecidableEq Fp] {fw : FoldWorld Fp}

/-! ## §1. The ledger with its instants. -/

/-- `analytics_facts`, and `analytics_fact_ledger` with `recorded_at`. -/
structure Timed (fw : FoldWorld Fp) where
  facts : Facts fw := Table.empty
  ledger : History Instant (Fact fw) := []

/-- Without the instants. -/
def Timed.recorded (b : Timed fw) : Recorded fw := ⟨b.facts, b.ledger.map Prod.snd⟩

/-- One run, which stamps what it writes; a run that fails is rolled back. -/
def Run.recordAt (now : Instant) (j : Run Fp) (b : Timed fw) : Timed fw :=
  match j.fold b.facts with
  | some facts =>
    ⟨facts, b.ledger ++ (versionsOfAll (numbering fw) (j.outcomes b.facts)).map fun v => (now, v)⟩
  | none => b

/-- A sequence of runs, each with its instant. -/
def recordAllAt (b : Timed fw) (js : List (Instant × Run Fp)) : Timed fw :=
  js.foldl (fun b p => p.2.recordAt p.1 b) b

/-- The clock goes on between the runs. -/
def Clocked (js : List (Instant × Run Fp)) : Prop := (js.map Prod.fst).Pairwise (· < ·)

/-- The runs at or before an instant. -/
def runsUpTo (pin : Instant) (js : List (Instant × Run Fp)) : List (Instant × Run Fp) :=
  js.filter fun p => decide (p.1 ≤ pin)

theorem recorded_recordAt (now : Instant) (j : Run Fp) (b : Timed fw) :
    (j.recordAt now b).recorded = j.record b.recorded := by
  unfold Run.recordAt Run.record
  show _ = (match j.fold b.facts with | some facts => _ | none => _)
  cases j.fold b.facts with
  | none => rfl
  | some facts => simp [Timed.recorded]

theorem recorded_recordAllAt (b : Timed fw) (js : List (Instant × Run Fp)) :
    (recordAllAt b js).recorded = recordAll b.recorded (js.map Prod.snd) := by
  induction js generalizing b with
  | nil => rfl
  | cons p js ih =>
    show (recordAllAt (p.2.recordAt p.1 b) js).recorded = _
    rw [ih, recorded_recordAt]
    rfl

variable (fw) in
/-- Facts and ledger belong together, after every sequence of runs. -/
theorem recordAllAt_sound (js : List (Instant × Run Fp)) : (recordAllAt ({} : Timed fw) js).recorded.Sound := by
  rw [recorded_recordAllAt]
  exact (recordAll_sound (sound_start fw) _).1

theorem recordAllAt_append (b : Timed fw) (js : List (Instant × Run Fp)) (p : Instant × Run Fp) :
    recordAllAt b (js ++ [p]) = p.2.recordAt p.1 (recordAllAt b js) := by
  unfold recordAllAt
  rw [List.foldl_append]
  rfl

/-- A run that does not fail appends the versions of its verdicts. -/
theorem recordAt_of_fold {now : Instant} {j : Run Fp} {b : Timed fw} {facts : Facts fw}
    (h : j.fold b.facts = some facts) : j.recordAt now b =
      ⟨facts, b.ledger ++ (versionsOfAll (numbering fw) (j.outcomes b.facts)).map fun v => (now, v)⟩ := by
  unfold Run.recordAt
  rw [h]

theorem recordAt_of_fail {now : Instant} {j : Run Fp} {b : Timed fw} (h : j.fold b.facts = none) :
    j.recordAt now b = b := by
  unfold Run.recordAt
  rw [h]

/-- What is inserted is there. -/
theorem find_inserted {j : Run Fp} {facts facts' : Facts fw} (h : j.fold facts = some facts') {k : FactKey}
    {new : Built fw} (hi : Outcome.insert k new ∈ j.outcomes facts) :
    facts'.find k = some ((folding fw).fresh new) := by
  rw [find_fold h, resolved, (mem_diff_insert.mp hi).1, (mem_diff_insert.mp hi).2]

/-! ## §2. The ledger is a history. -/

variable {js : List (Instant × Run Fp)} {pin : Instant}

omit [DecidableEq Fp] in
theorem clocked_append {p : Instant × Run Fp} (h : Clocked (js ++ [p])) :
    Clocked js ∧ ∀ q ∈ js, q.1 < p.1 := by
  unfold Clocked at h
  rw [List.map_append, List.pairwise_append] at h
  exact ⟨h.1, fun q hq => h.2.2 q.1 (List.mem_map_of_mem hq) p.1 List.mem_cons_self⟩

/-- Every version has the instant of a run. -/
theorem stamped_recordAllAt (js : List (Instant × Run Fp)) :
    ∀ v ∈ (recordAllAt ({} : Timed fw) js).ledger, ∃ p ∈ js, v.1 = p.1 := by
  induction js using List.reverseRecOn with
  | nil => exact fun v hv => absurd hv List.not_mem_nil
  | append_singleton js p ih =>
    intro v hv
    rw [recordAllAt_append] at hv
    have hold : v ∈ (recordAllAt ({} : Timed fw) js).ledger → ∃ q ∈ js ++ [p], v.1 = q.1 := by
      intro hv
      obtain ⟨q, hq, heq⟩ := ih v hv
      exact ⟨q, List.mem_append_left _ hq, heq⟩
    cases hfold : p.2.fold (recordAllAt ({} : Timed fw) js).facts with
    | none =>
      rw [recordAt_of_fail hfold] at hv
      exact hold hv
    | some facts =>
      rw [recordAt_of_fold hfold] at hv
      cases List.mem_append.mp hv with
      | inl hv => exact hold hv
      | inr hv =>
        obtain ⟨w, -, rfl⟩ := List.mem_map.mp hv
        exact ⟨p, by simp, rfl⟩

variable (fw) in
/-- A ledger whose versions were written at different instants is a history. -/
theorem ordered_recordAllAt (hclock : Clocked js) : (recordAllAt ({} : Timed fw) js).ledger.Ordered Fact.key := by
  induction js using List.reverseRecOn with
  | nil => exact List.Pairwise.nil
  | append_singleton js p ih =>
    obtain ⟨hbefore, hlast⟩ := clocked_append hclock
    rw [recordAllAt_append]
    cases hfold : p.2.fold (recordAllAt ({} : Timed fw) js).facts with
    | none =>
      rw [recordAt_of_fail hfold]
      exact ih hbefore
    | some facts =>
      rw [recordAt_of_fold hfold]
      refine (ih hbefore).append (fun v hv => ?_)
        (nodup_versionsOfAll diff_nodup (diff_keyed (want_keyed _ _)) (outcomes_fit hfold))
      obtain ⟨q, hq, heq⟩ := stamped_recordAllAt js v hv
      rw [heq]
      exact hlast q hq

/-- **What was written until an instant is what the runs until then wrote.** -/
theorem upTo_recordAllAt (hclock : Clocked js) (pin : Instant) :
    (recordAllAt ({} : Timed fw) js).ledger.upTo pin = (recordAllAt ({} : Timed fw) (runsUpTo pin js)).ledger := by
  induction js using List.reverseRecOn with
  | nil => rfl
  | append_singleton js p ih =>
    obtain ⟨hbefore, hlast⟩ := clocked_append hclock
    by_cases hp : p.1 ≤ pin
    · -- all of them are
      have hall : ∀ q ∈ js ++ [p], q.1 ≤ pin := by
        intro q hq
        cases List.mem_append.mp hq with
        | inl hq => exact (hlast q hq).le.trans hp
        | inr hq => exact List.mem_singleton.mp hq ▸ hp
      have hruns : runsUpTo pin (js ++ [p]) = js ++ [p] :=
        List.filter_eq_self.mpr fun q hq => decide_eq_true (hall q hq)
      rw [hruns]
      refine History.upTo_of_all fun v hv => ?_
      obtain ⟨q, hq, heq⟩ := stamped_recordAllAt _ v hv
      rw [heq]
      exact hall q hq
    · have hruns : runsUpTo pin (js ++ [p]) = runsUpTo pin js := by
        unfold runsUpTo
        rw [List.filter_append, List.filter_cons_of_neg (by simpa using hp), List.filter_nil, List.append_nil]
      rw [hruns, ← ih hbefore, recordAllAt_append]
      cases hfold : p.2.fold (recordAllAt ({} : Timed fw) js).facts with
      | none => rw [recordAt_of_fail hfold]
      | some facts =>
        rw [recordAt_of_fold hfold]
        refine History.upTo_append_later fun v hv => ?_
        obtain ⟨w, -, rfl⟩ := List.mem_map.mp hv
        exact not_le.mp hp

/-! ## §3. Which conversations the keys are of. -/

/-- The key is that of a row that some run could read. -/
def Known (js : List (Instant × Run Fp)) (k : FactKey) : Prop :=
  ∃ p ∈ js, ∃ r ∈ p.2.source.store.txns, rowKey r = k

/-- No conversation has another start in another run. -/
def StartsKept (js : List (Instant × Run Fp)) : Prop :=
  ∀ p ∈ js, ∀ p' ∈ js, ∀ r ∈ p.2.source.store.txns, ∀ r' ∈ p'.2.source.store.txns,
    r.id = r'.id → r.startedAt = r'.startedAt

omit [DecidableEq Fp] in
/-- Then an id has one key. -/
theorem StartsKept.key_unique (hs : StartsKept js) {k k' : FactKey} (hk : Known js k) (hk' : Known js k') (hid : k.1 = k'.1) :
    k = k' := by
  obtain ⟨p, hp, r, hr, rfl⟩ := hk
  obtain ⟨p', hp', r', hr', rfl⟩ := hk'
  exact Prod.ext hid (hs p hp p' hp' r hr r' hr' hid)

variable (fw) in
/-- **Facts and versions have the keys of rows.** -/
theorem known_recordAllAt (js : List (Instant × Run Fp)) :
    (∀ k, (recordAllAt ({} : Timed fw) js).facts.find k ≠ none → Known js k) ∧
      ∀ v ∈ (recordAllAt ({} : Timed fw) js).ledger, Known js v.2.row.key := by
  induction js using List.reverseRecOn with
  | nil => exact ⟨fun k hk => absurd rfl hk, fun v hv => absurd hv List.not_mem_nil⟩
  | append_singleton js p ih =>
    have hmore : ∀ {k}, Known js k → Known (js ++ [p]) k := by
      rintro k ⟨q, hq, hr⟩
      exact ⟨q, List.mem_append_left _ hq, hr⟩
    rw [recordAllAt_append]
    cases hfold : p.2.fold (recordAllAt ({} : Timed fw) js).facts with
    | none =>
      rw [recordAt_of_fail hfold]
      exact ⟨fun k hk => hmore (ih.1 k hk), fun v hv => hmore (ih.2 v hv)⟩
    | some facts =>
      have hafter : p.2.after (recordAllAt ({} : Timed fw) js).facts = facts := by
        unfold Run.after
        rw [hfold, Option.getD_some]
      have hfacts : ∀ k, facts.find k ≠ none → Known (js ++ [p]) k := by
        intro k hk
        by_cases hthere : (recordAllAt ({} : Timed fw) js).facts.find k = none
        · obtain ⟨r, hr, heq⟩ := mem_source_of_new hthere (hafter ▸ hk)
          exact ⟨p, by simp, r, hr, heq⟩
        · exact hmore (ih.1 k hthere)
      rw [recordAt_of_fold hfold]
      refine ⟨hfacts, fun v hv => ?_⟩
      cases List.mem_append.mp hv with
      | inl hv => exact hmore (ih.2 v hv)
      | inr hv =>
        obtain ⟨w, hw, rfl⟩ := List.mem_map.mp hv
        obtain ⟨o, ho, hwo⟩ := List.mem_flatMap.mp hw
        have hfits := outcomes_fit hfold o ho
        rw [key_versions (diff_keyed (want_keyed _ _) o ho) hfits hwo]
        -- a key that is written is there after the fold, or was before
        cases o with
        | insert k b =>
          refine hfacts k ?_
          rw [find_inserted hfold ho]
          simp
        | update k old b =>
          refine hmore (ih.1 k ?_)
          rw [show (recordAllAt ({} : Timed fw) js).facts.find k = some old from hfits]
          simp
        | unchanged k old => exact absurd hwo List.not_mem_nil
        | reverse k old =>
          refine hmore (ih.1 k ?_)
          rw [show (recordAllAt ({} : Timed fw) js).facts.find k = some old from hfits]
          simp

/-! ## §4. Training sets. -/

/-- A row of a training set: `FEATURE_NAMES`, and the id. -/
structure Features where
  sourceTransactionId : UUID
  businessDate : Option Day
  itemNumber : Option String
  method : Option String
  transactionName : Option String
  warehouse : Option String
  userName : Option String
  quantity : Option Rat
  quantityClassification : Classification
  status : TxnStatus
  durationMs : Option Int

def Fact.transactionId (f : Fact fw) : UUID := f.content.sourceTransactionId

def Fact.features (f : Fact fw) : Features where
  sourceTransactionId := f.content.sourceTransactionId
  businessDate := f.content.businessDate
  itemNumber := f.content.itemNumber
  method := f.content.method
  transactionName := f.content.transactionName
  warehouse := f.content.warehouse
  userName := f.content.userName
  quantity := f.content.quantity
  quantityClassification := f.content.classification
  status := f.content.status
  durationMs := f.content.durationMs

/-- A set that is too large is refused. -/
inductive FeatureError
  | exceeds (limit : ℕ)

/-- The ids of a ledger, in their order. -/
def transactionIds (h : History Instant (Fact fw)) : List UUID :=
  inOrder (fun id => id) (h.map fun v => v.2.row.transactionId).dedup

/-- `DISTINCT ON (source_transaction_id)`, by `recorded_at` and `revision`, without those that are reversed. -/
def standing (h : History Instant (Fact fw)) : List (Fact fw) :=
  (transactionIds h).filterMap fun id =>
    (newest Fact.transactionId Fact.revision id h).bind fun v => v.2.held

def asOf (limit : ℕ) (ledger : History Instant (Fact fw)) (pin : Instant) : Except FeatureError (List Features) :=
  let rows := (standing (ledger.upTo pin)).take (limit + 1)
  if limit < rows.length then .error (.exceeds limit) else .ok (rows.map Fact.features)

section Reading

variable {h : History Instant (Fact fw)} {facts : Facts fw}

omit [DecidableEq Fp]

/-- The row past the limit is what tells that there are more. -/
theorem asOf_eq (limit : ℕ) (ledger : History Instant (Fact fw)) (pin : Instant) :
    asOf limit ledger pin =
      if limit < (standing (ledger.upTo pin)).length then .error (.exceeds limit)
      else .ok ((standing (ledger.upTo pin)).map Fact.features) := by
  unfold asOf
  simp only [List.length_take]
  by_cases hlimit : limit < (standing (ledger.upTo pin)).length
  · rw [if_pos hlimit, if_pos (by omega)]
  · rw [if_neg hlimit, if_neg (by omega), List.take_of_length_le (by omega)]

theorem mem_transactionIds {id : UUID} : id ∈ transactionIds h ↔ ∃ v ∈ h, v.2.row.transactionId = id := by
  unfold transactionIds
  rw [(inOrder_perm _ _).mem_iff, List.mem_dedup, List.mem_map]

theorem transactionIds_sorted (h : History Instant (Fact fw)) : (transactionIds h).Pairwise (· < ·) :=
  inOrder_strict (by simpa using List.nodup_dedup _)

/-- The row of an id is a version that is held. -/
theorem held_eq_some {v : Version (Fact fw)} {f : Fact fw} (hv : v.held = some f) : v.row = f := by
  unfold Version.held at hv
  split at hv
  · cases hv
  · exact Option.some.inj hv
  · exact Option.some.inj hv

theorem newest_transaction {id : UUID} {f : Fact fw}
    (hf : (newest Fact.transactionId Fact.revision id h).bind (fun v => v.2.held) = some f) : f.transactionId = id := by
  obtain ⟨v, hv, hheld⟩ := Option.bind_eq_some_iff.mp hf
  rw [← held_eq_some hheld]
  exact (newest_eq_some hv).2.1

theorem standing_sorted (h : History Instant (Fact fw)) :
    (standing h).Pairwise fun f f' => f.transactionId < f'.transactionId := by
  refine List.pairwise_filterMap.mpr ((transactionIds_sorted h).imp fun hlt f hf f' hf' => ?_)
  rw [newest_transaction hf, newest_transaction hf']
  exact hlt

/-- What stands for an id. -/
theorem mem_standing {f : Fact fw} : f ∈ standing h ↔
    (newest Fact.transactionId Fact.revision f.transactionId h).bind (fun v => v.2.held) = some f := by
  unfold standing
  rw [List.mem_filterMap]
  constructor
  · rintro ⟨id, -, hf⟩
    rwa [newest_transaction hf]
  · intro hf
    refine ⟨f.transactionId, ?_, hf⟩
    obtain ⟨v, hv, -⟩ := Option.bind_eq_some_iff.mp hf
    obtain ⟨hmem, hid, -⟩ := newest_eq_some hv
    exact mem_transactionIds.mpr ⟨v, hmem, hid⟩

/-- **A history in which every id has one key says what the facts are.** -/
theorem standing_eq (hh : h.Ordered Fact.key) (hreplay : ∀ k, replay Fact.key (h.map Prod.snd) k = facts.find k)
    (hone : ∀ v ∈ h, ∀ v' ∈ h, v.2.row.transactionId = v'.2.row.transactionId → v.2.row.key = v'.2.row.key) :
    standing h = inOrder Fact.transactionId facts.rows := by
  -- the versions of an id are those of its key
  have hheld : ∀ v ∈ h, (newest Fact.transactionId Fact.revision v.2.row.transactionId h).bind (fun v => v.2.held) =
      facts.find v.2.row.key := by
    intro v hv
    rw [newest_held hh (k := v.2.row.key), hreplay]
    intro v' hv'
    refine ⟨hone v' hv' v hv, fun heq => ?_⟩
    exact congrArg Prod.fst heq
  -- a fact has a version
  have hversion : ∀ f ∈ facts.rows, ∃ v ∈ h, v.2.row.key = f.key := by
    intro f hf
    by_contra hnone
    push Not at hnone
    have hfind := hreplay f.key
    rw [Table.find_of_mem hf, replay_of_unseen] at hfind
    · cases hfind
    · intro w hw
      obtain ⟨v, hv, rfl⟩ := List.mem_map.mp hw
      exact hnone v hv
  have hids : ∀ f ∈ facts.rows, ∀ f' ∈ facts.rows, f.transactionId = f'.transactionId → f = f' := by
    intro f hf f' hf' hid
    obtain ⟨v, hv, hkey⟩ := hversion f hf
    obtain ⟨v', hv', hkey'⟩ := hversion f' hf'
    have hsame : f.key = f'.key := by
      rw [← hkey, ← hkey']
      refine hone v hv v' hv' ?_
      show v.2.row.key.1 = v'.2.row.key.1
      rw [hkey, hkey']
      exact hid
    have hfind := Table.find_of_mem hf
    rw [hsame, Table.find_of_mem hf'] at hfind
    exact (Option.some.inj hfind).symm
  have hmem : ∀ f, f ∈ standing h ↔ f ∈ facts.rows := by
    intro f
    rw [mem_standing]
    constructor
    · intro hf
      obtain ⟨v, hv, hheld'⟩ := Option.bind_eq_some_iff.mp hf
      obtain ⟨hin, hid, -⟩ := newest_eq_some hv
      rw [← hid, hheld v hin] at hf
      exact (Table.find_eq_some.mp hf).1
    · intro hf
      obtain ⟨v, hv, hkey⟩ := hversion f hf
      have hid : v.2.row.transactionId = f.transactionId := congrArg Prod.fst hkey
      rw [← hid, hheld v hv, hkey, Table.find_of_mem hf]
  have hrows : facts.rows.Nodup := List.Nodup.of_map _ facts.unique
  have hunique : (facts.rows.map Fact.transactionId).Nodup :=
    List.Nodup.map_on hids hrows
  have hstrict := standing_sorted h
  have hperm : (standing h).Perm (inOrder Fact.transactionId facts.rows) :=
    ((List.perm_ext_iff_of_nodup (hstrict.imp fun hlt heq => absurd (heq ▸ hlt) (lt_irrefl _)) hrows).mpr hmem).trans
      (inOrder_perm _ _).symm
  exact eq_of_strict hperm hstrict (inOrder_strict hunique)

end Reading

/-- **A training set is the facts as the last fold at or before its pin left them**, in the order of their ids, or
    it is refused for their number: whatever is folded later, if no conversation changed its start until then. -/
theorem asOf_exact (hclock : Clocked js) (hsteady : StartsKept (runsUpTo pin js)) (limit : ℕ) :
    asOf limit (recordAllAt ({} : Timed fw) js).ledger pin =
      if limit < (recordAllAt ({} : Timed fw) (runsUpTo pin js)).facts.rows.length then .error (.exceeds limit)
      else .ok ((inOrder Fact.transactionId (recordAllAt ({} : Timed fw) (runsUpTo pin js)).facts.rows).map
        Fact.features) := by
  have hclock' : Clocked (runsUpTo pin js) := hclock.sublist (List.filter_sublist.map _)
  have hknown := (known_recordAllAt fw (runsUpTo pin js)).2
  have hstanding : standing (recordAllAt ({} : Timed fw) (runsUpTo pin js)).ledger =
      inOrder Fact.transactionId (recordAllAt ({} : Timed fw) (runsUpTo pin js)).facts.rows := by
    refine standing_eq (ordered_recordAllAt fw hclock') (recordAllAt_sound fw _).replayed fun v hv v' hv' hid => ?_
    exact hsteady.key_unique (hknown v hv) (hknown v' hv') hid
  rw [asOf_eq, upTo_recordAllAt hclock, hstanding, (inOrder_perm _ _).length_eq]

/-- The conversation of `foldNamed`, folded at two instants; the second fold finds another digest. -/
def foldedTwice : List (Instant × Run Print) := [(100, foldNamed "A" 0 []), (200, foldNamed "B" 1 [])]

theorem asOf_exact_twice : asOf 5 (recordAllAt ({} : Timed printWorld) foldedTwice).ledger 150 =
    if 5 < (recordAllAt ({} : Timed printWorld) (runsUpTo 150 foldedTwice)).facts.rows.length then
      .error (.exceeds 5)
    else .ok ((inOrder Fact.transactionId (recordAllAt ({} : Timed printWorld)
      (runsUpTo 150 foldedTwice)).facts.rows).map Fact.features) :=
  asOf_exact (by unfold Clocked; decide) (by unfold StartsKept; decide) 5

/-! ## §5. A conversation whose start changes. -/

/-- An id is one row's. -/
def Run.SingleRows (j : Run Fp) : Prop :=
  ∀ r ∈ j.source.store.txns, ∀ r' ∈ j.source.store.txns, r.id = r'.id → r = r'

/-- The run reads a fact of the conversation, and builds one of it under a key that is free. -/
def Run.Moves (j : Run Fp) (facts : Facts fw) (id : UUID) : Prop :=
  ∃ old ∈ j.storedRows facts, old.transactionId = id ∧
    ∃ new ∈ j.facts facts, new.content.sourceTransactionId = id ∧ facts.find new.key = none

section Moving

variable {j : Run Fp} {facts facts' : Facts fw} {id : UUID}

/-- What is built of a row has its id. -/
theorem built_id {r : TxnRow Fp} {b : Built fw} (h : j.build facts r = .ok b) (hr : r ∈ j.sourceRows) :
    b.content.sourceTransactionId = r.id := by
  cases hn : j.needs facts r.id with
  | true =>
    rw [build_of_needs hn] at h
    cases hnr : j.normalised fw r with
    | error i => simp [hnr, Except.map] at h
    | ok c =>
      simp only [hnr, Except.map, Except.ok.injEq] at h
      subst h
      exact congrArg Prod.fst (normalise_ok hnr).1
  | false =>
    obtain ⟨p, hp, -⟩ := prior_of_not_needs hr hn
    rw [build_of_carried hn hp] at h
    obtain rfl := Except.ok.inj h
    exact (storedByTxn_eq_some hp).2

/-- An id has one fact in a run. -/
theorem built_unique (hone : j.SingleRows) {b b' : Built fw} (hb : b ∈ j.facts facts) (hb' : b' ∈ j.facts facts)
    (hid : b.content.sourceTransactionId = b'.content.sourceTransactionId) : b = b' := by
  obtain ⟨r, hr, hbr⟩ := mem_facts.mp hb
  obtain ⟨r', hr', hbr'⟩ := mem_facts.mp hb'
  rw [built_id hbr hr, built_id hbr' hr'] at hid
  obtain rfl := hone r (mem_sourceRows.mp hr).1 r' (mem_sourceRows.mp hr').1 hid
  exact Except.ok.inj (hbr.symm.trans hbr')

/-- A fact that is not built again under its key is reversed. -/
theorem mem_outcomes_reverse {old : Fact fw} (hold : old ∈ j.storedRows facts)
    (hnot : ∀ b ∈ j.facts facts, b.key ≠ old.key) : Outcome.reverse old.key old ∈ j.outcomes facts := by
  have hrows := mem_storedRows.mp hold
  have hstored : (byKey Fact.key (j.storedRows facts)).get? old.key = some old :=
    stored_get?.mpr ⟨Table.find_of_mem hrows.1, hrows.2⟩
  refine List.mem_append.mpr (.inr (List.mem_map.mpr ⟨(old.key, old), ?_, rfl⟩))
  refine List.mem_filter.mpr ⟨OrderedDict.get?_eq_some.mp hstored, ?_⟩
  have hnone : (byKey Built.key (j.facts facts)).get? old.key = none := by
    cases hw : (byKey Built.key (j.facts facts)).get? old.key with
    | none => rfl
    | some b => exact absurd (byKey_sound hw).2 (hnot b (byKey_sound hw).1)
  simpa using OrderedDict.get?_eq_none.mp hnone

/-- **What a run does that moves a conversation**: it reverses the old fact, inserts the new one, and updates
    none. -/
theorem outcomes_of_moves (hone : j.SingleRows) (h : j.Moves facts id) : ∃ old new,
    Outcome.reverse old.key old ∈ j.outcomes facts ∧ old.transactionId = id ∧ facts.find old.key = some old ∧
      Outcome.insert new.key new ∈ j.outcomes facts ∧ new.content.sourceTransactionId = id ∧
        ∀ k o w, Outcome.update k o w ∈ j.outcomes facts → w.content.sourceTransactionId ≠ id := by
  obtain ⟨old, hold, hid, new, hnew, hid', hfree⟩ := h
  have hfind : facts.find old.key = some old := Table.find_of_mem (mem_storedRows.mp hold).1
  have hown : ∀ b ∈ j.facts facts, b.content.sourceTransactionId = id → b = new :=
    fun b hb hbid => built_unique hone hb hnew (hbid.trans hid'.symm)
  have hinsert : Outcome.insert new.key new ∈ j.outcomes facts := by
    refine mem_diff_insert.mpr ⟨?_, ?_⟩
    · obtain ⟨w, hw⟩ := Option.ne_none_iff_exists'.mp (byKey_complete (f := Built.key) hnew)
      obtain ⟨hwmem, hwkey⟩ := byKey_sound hw
      rw [hw, hown w hwmem ((congrArg Prod.fst hwkey).trans hid')]
    · cases hs : (byKey Fact.key (j.storedRows facts)).get? new.key with
      | none => rfl
      | some f =>
        rw [(stored_get?.mp hs).1] at hfree
        cases hfree
  refine ⟨old, new, mem_outcomes_reverse hold fun b hb heq => ?_, hid, hfind, hinsert, hid', fun k o w hu hwid => ?_⟩
  · -- the one fact that is built of the conversation is not under the old key
    have hb' : b = new := hown b hb ((congrArg Prod.fst heq).trans hid)
    rw [← heq, hb', hfree] at hfind
    cases hfind
  · obtain ⟨hw, hstored, -⟩ := mem_diff_update hu
    obtain ⟨hmem, hkey⟩ := byKey_sound hw
    obtain rfl := hown w hmem hwid
    rw [hkey, (stored_get?.mp hstored).1] at hfree
    cases hfree

end Moving

/-- **A conversation whose start a fold changes is missing from the training sets until it is written again**,
    although its fact is there: the reversal of the old fact has the greater revision of two versions that have
    one instant. -/
theorem moved_excluded {pre post : List (Instant × Run Fp)} {now : Instant} {j : Run Fp} {id : UUID}
    (hclock : Clocked (pre ++ (now, j) :: post)) (hpin : now ≤ pin) (hone : j.SingleRows)
    (hmoves : j.Moves (recordAllAt ({} : Timed fw) pre).facts id)
    (hfold : j.fold (recordAllAt ({} : Timed fw) pre).facts ≠ none)
    (hquiet : ∀ v ∈ (recordAllAt ({} : Timed fw) (pre ++ (now, j) :: post)).ledger, v.2.row.transactionId = id →
      v.1 ≤ pin → v.1 ≤ now) (limit : ℕ) :
    (∃ f ∈ (recordAllAt ({} : Timed fw) (runsUpTo pin (pre ++ (now, j) :: post))).facts.rows, f.transactionId = id) ∧
      ∀ rows, asOf limit (recordAllAt ({} : Timed fw) (pre ++ (now, j) :: post)).ledger pin = .ok rows →
        ∀ row ∈ rows, row.sourceTransactionId ≠ id := by
  generalize hjs : pre ++ (now, j) :: post = js at *
  obtain ⟨facts, hfacts⟩ := Option.ne_none_iff_exists'.mp hfold
  obtain ⟨old, new, hreverse, hid, hfind, hinsert, hid', hnone⟩ := outcomes_of_moves hone hmoves
  -- until that fold
  have hsplit := hjs ▸ hclock
  unfold Clocked at hsplit
  rw [List.map_append, List.map_cons, List.pairwise_append, List.pairwise_cons] at hsplit
  have hbefore : ∀ p ∈ pre, p.1 < now := fun p hp => hsplit.2.2 p.1 (List.mem_map_of_mem hp) now List.mem_cons_self
  have hafter : ∀ p ∈ post, now < p.1 := fun p hp => hsplit.2.1.1 p.1 (List.mem_map_of_mem hp)
  have hruns : runsUpTo now js = pre ++ [(now, j)] := by
    unfold runsUpTo
    rw [← hjs, List.filter_append, List.filter_cons_of_pos (by simp),
      List.filter_eq_self.mpr fun p hp => decide_eq_true (hbefore p hp).le,
      List.filter_eq_nil_iff.mpr fun p hp => by simpa using hafter p hp]
  have hupTo : (recordAllAt ({} : Timed fw) js).ledger.upTo now = (recordAllAt ({} : Timed fw) pre).ledger ++
      (versionsOfAll (numbering fw) (j.outcomes (recordAllAt ({} : Timed fw) pre).facts)).map fun v => (now, v) := by
    rw [upTo_recordAllAt hclock, hruns, recordAllAt_append, recordAt_of_fold hfacts]
  have hwritten : ∀ o ∈ j.outcomes (recordAllAt ({} : Timed fw) pre).facts, ∀ v ∈ o.versions (numbering fw),
      (now, v) ∈ (recordAllAt ({} : Timed fw) js).ledger.upTo pin := by
    intro o ho v hv
    have hin : (now, v) ∈ (recordAllAt ({} : Timed fw) js).ledger.upTo now := by
      rw [hupTo]
      exact List.mem_append_right _ (List.mem_map_of_mem (List.mem_flatMap.mpr ⟨o, ho, hv⟩))
    exact List.mem_filter.mpr ⟨(List.mem_filter.mp hin).1, decide_eq_true hpin⟩
  have hlate : ∀ v ∈ (recordAllAt ({} : Timed fw) js).ledger.upTo pin, v.2.row.transactionId = id → v.1 ≤ now := by
    intro v hv hvid
    obtain ⟨hin, hle⟩ := List.mem_filter.mp hv
    exact hquiet v hin hvid (of_decide_eq_true hle)
  have hreversed := hwritten _ hreverse ⟨.reverse, old.retire⟩ (List.mem_singleton.mpr rfl)
  have hinserted := hwritten _ hinsert ⟨.insert, (folding fw).fresh new⟩ (List.mem_singleton.mpr rfl)
  have hordered := (ordered_recordAllAt fw hclock).upTo pin
  refine ⟨⟨(folding fw).fresh new, ?_, hid'⟩, fun rows hrows row hrow hrowid => ?_⟩
  · -- the fact is there: its version is the last of its key
    have hheld := replay_of_newest hordered hinserted fun v hv hkey => hlate v hv ((congrArg Prod.fst hkey).trans hid')
    rw [upTo_recordAllAt hclock] at hheld
    have hreplay := (recordAllAt_sound fw (runsUpTo pin js)).replayed
    exact (Table.find_eq_some.mp ((hreplay _).symm.trans hheld)).1
  · rw [asOf_eq] at hrows
    split at hrows
    · cases hrows
    · obtain rfl := Except.ok.inj hrows
      obtain ⟨f, hf, rfl⟩ := List.mem_map.mp hrow
      have hfid : f.transactionId = id := hrowid
      rw [mem_standing, hfid] at hf
      obtain ⟨v, hv, hheld⟩ := Option.bind_eq_some_iff.mp hf
      obtain ⟨hin, hvid, hmax⟩ := newest_eq_some hv
      -- the newest version is one of that fold, and of no smaller revision than the reversal
      have hpositive : 0 < old.revision := by
        have hsound := recordAllAt_sound fw pre
        obtain ⟨w, hw, hrev⟩ := hsound.last old.key old hfind
        have hpos := hsound.positive w (List.mem_filter.mp (List.mem_of_getLast? hw)).1
        rwa [hrev] at hpos
      have hbig : v.1 = now ∧ old.revision + 1 ≤ v.2.row.revision := by
        obtain hlt | ⟨heq, hle⟩ := hmax _ hreversed hid
        · exact absurd (hlate v hin hvid) (not_le.mpr hlt)
        · exact ⟨heq.symm, hle⟩
      have hfrom : v ∈ (recordAllAt ({} : Timed fw) js).ledger.upTo now :=
        List.mem_filter.mpr ⟨(List.mem_filter.mp hin).1, decide_eq_true hbig.1.le⟩
      rw [hupTo] at hfrom
      cases List.mem_append.mp hfrom with
      | inl hold =>
        obtain ⟨p, hp, heq⟩ := stamped_recordAllAt pre v hold
        exact absurd (heq.symm.trans hbig.1) (hbefore p hp).ne
      | inr hnew =>
        obtain ⟨w, hw, rfl⟩ := List.mem_map.mp hnew
        obtain ⟨o, ho, hwo⟩ := List.mem_flatMap.mp hw
        cases o with
        | insert k b =>
          obtain rfl := List.mem_singleton.mp hwo
          have hfirst : old.revision + 1 ≤ 1 := hbig.2
          omega
        | update k o' b =>
          obtain rfl := List.mem_singleton.mp hwo
          exact hnone k o' b ho hvid
        | unchanged k o' => exact absurd hwo List.not_mem_nil
        | reverse k o' =>
          obtain rfl := List.mem_singleton.mp hwo
          cases hheld

/-- The conversation of `foldNamed`, with an earlier line found. -/
def foldEarlier : Run Print := { foldNamed "A" 1 [] with source := oneTransaction (namedRow 1 "A" 3 1) [] }

theorem foldEarlier_moves :
    foldEarlier.Moves (recordAllAt ({} : Timed printWorld) [(100, foldNamed "A" 0 [])]).facts 1 := by
  generalize hfacts : (recordAllAt ({} : Timed printWorld) [(100, foldNamed "A" 0 [])]).facts = facts
  have hold : foldEarlier.storedRows facts ≠ [] ∧
      (foldEarlier.storedRows facts).all (fun f => decide (f.transactionId = 1)) = true := by
    rw [← hfacts]
    decide +kernel
  have hnew : foldEarlier.facts facts ≠ [] ∧ (foldEarlier.facts facts).all (fun b =>
      decide (b.content.sourceTransactionId = 1) && (facts.find b.key).isNone) = true := by
    rw [← hfacts]
    decide +kernel
  obtain ⟨old, hmem⟩ := List.exists_mem_of_ne_nil _ hold.1
  obtain ⟨new, hmem'⟩ := List.exists_mem_of_ne_nil _ hnew.1
  have hid := List.all_eq_true.mp hold.2 old hmem
  have hid' := List.all_eq_true.mp hnew.2 new hmem'
  rw [Bool.and_eq_true, decide_eq_true_eq, Option.isNone_iff_eq_none] at hid'
  exact ⟨old, hmem, of_decide_eq_true hid, new, hmem', hid'⟩

/-- The two folds. -/
def foldedEarlier : List (Instant × Run Print) := [(100, foldNamed "A" 0 [])] ++ (200, foldEarlier) :: []

theorem moved_excluded_earlier :
    (∃ f ∈ (recordAllAt ({} : Timed printWorld) (runsUpTo 300 foldedEarlier)).facts.rows, f.transactionId = 1) ∧
      ∀ rows, asOf 5 (recordAllAt ({} : Timed printWorld) foldedEarlier).ledger 300 = .ok rows →
        ∀ row ∈ rows, row.sourceTransactionId ≠ 1 := by
  have hclock : Clocked foldedEarlier := by
    unfold Clocked
    decide
  have hstamps : (recordAllAt ({} : Timed printWorld) foldedEarlier).ledger.all (fun v => decide (v.1 ≤ 200)) = true := by
    decide +kernel
  refine moved_excluded hclock (by decide) (fun r hr r' hr' _ => ?_) foldEarlier_moves (by decide +kernel)
    (fun v hv _ _ => of_decide_eq_true (List.all_eq_true.mp hstamps v hv)) 5
  rw [List.mem_singleton.mp hr, List.mem_singleton.mp hr']

/-! ## §6. Stored sets. -/

/-- A row of `analytics_feature_sets`, of one version of the code. -/
structure FeatureSet (D : Type) where
  name : String
  pinnedAt : Instant
  contentHash : D
  rowCount : ℕ

/-- `content_hash`, and `MAX_ROWS`. -/
structure FeatureCode (D : Type) where
  digest : List Features → D
  maxRows : ℕ

/-- The tenant's facts and ledger, and the sets. -/
structure FeatureStore (fw : FoldWorld Fp) (D : Type) where
  timed : Timed fw := {}
  sets : List (FeatureSet D) := []

variable {D : Type} [DecidableEq D]

/-- `build`: the set that is stored under the name and the pin, or a new one; and its rows. -/
def FeatureCode.build (c : FeatureCode D) (s : FeatureStore fw D) (name : String) (pin : Instant) :
    Except FeatureError (FeatureSet D × List Features × FeatureStore fw D) :=
  (asOf c.maxRows s.timed.ledger pin).map fun rows =>
    match s.sets.find? fun set => decide (set.name = name ∧ set.pinnedAt = pin) with
    | some stored => (stored, rows, s)
    | none =>
      let set := ⟨name, pin, c.digest rows, rows.length⟩
      (set, rows, { s with sets := s.sets ++ [set] })

/-- `verify`: whether the rebuilt set has the digest of the stored one, and both. -/
def FeatureCode.verify (c : FeatureCode D) (s : FeatureStore fw D) (set : FeatureSet D) :
    Except FeatureError (Bool × D × D) :=
  (asOf c.maxRows s.timed.ledger set.pinnedAt).map fun rows =>
    (decide (c.digest rows = set.contentHash), set.contentHash, c.digest rows)

/-- A fold, or a request for a set. -/
inductive FeatureEvent (Fp : Type)
  | fold (now : Instant) (j : Run Fp)
  | build (name : String) (pin : Instant)

/-- One event; a set that is refused is not stored. -/
def FeatureCode.step (c : FeatureCode D) (s : FeatureStore fw D) : FeatureEvent Fp → FeatureStore fw D
  | .fold now j => { s with timed := j.recordAt now s.timed }
  | .build name pin => match c.build s name pin with
    | .ok built => built.2.2
    | .error _ => s

/-- The clock goes on between the folds, and no set is pinned past the last of them. -/
def Pinned : Instant → List (FeatureEvent Fp) → Prop
  | _, [] => True
  | latest, .fold now _ :: evs => latest < now ∧ Pinned now evs
  | latest, .build _ pin :: evs => pin ≤ latest ∧ Pinned latest evs

/-- Nothing was recorded after an instant, and every stored set can be built again as it was. -/
structure Rebuilt (c : FeatureCode D) (latest : Instant) (s : FeatureStore fw D) : Prop where
  recorded : ∀ v ∈ s.timed.ledger, v.1 ≤ latest
  sets : ∀ set ∈ s.sets, set.pinnedAt ≤ latest ∧ ∃ rows, asOf c.maxRows s.timed.ledger set.pinnedAt = .ok rows ∧
    c.digest rows = set.contentHash ∧ rows.length = set.rowCount
  named : (s.sets.map fun set => (set.name, set.pinnedAt)).Nodup

section Rebuilding

variable {c : FeatureCode D} {latest : Instant} {s : FeatureStore fw D}

omit [DecidableEq D] in
/-- A fold that comes later changes no set. -/
theorem rebuilt_fold (hs : Rebuilt c latest s) {now : Instant} (hnow : latest < now) (j : Run Fp) :
    Rebuilt c now { s with timed := j.recordAt now s.timed } := by
  cases hfold : j.fold s.timed.facts with
  | none =>
    rw [recordAt_of_fail hfold]
    refine ⟨fun v hv => (hs.recorded v hv).trans hnow.le, fun set hset => ?_, hs.named⟩
    exact ⟨(hs.sets set hset).1.trans hnow.le, (hs.sets set hset).2⟩
  | some facts =>
    rw [recordAt_of_fold hfold]
    refine ⟨fun v hv => ?_, fun set hset => ?_, hs.named⟩
    · cases List.mem_append.mp hv with
      | inl hv => exact (hs.recorded v hv).trans hnow.le
      | inr hv =>
        obtain ⟨w, -, rfl⟩ := List.mem_map.mp hv
        exact le_rfl
    · obtain ⟨hpin, rows, hrows, hsame⟩ := hs.sets set hset
      refine ⟨hpin.trans hnow.le, rows, ?_, hsame⟩
      -- what it wrote is after the pin
      rw [asOf_eq] at hrows ⊢
      rw [History.upTo_append_later fun v hv => ?_]
      · exact hrows
      · obtain ⟨w, -, rfl⟩ := List.mem_map.mp hv
        exact hpin.trans_lt hnow

omit [DecidableEq D] in
theorem rebuilt_build (hs : Rebuilt c latest s) {name : String} {pin : Instant} (hpin : pin ≤ latest) :
    Rebuilt c latest (c.step s (.build name pin)) := by
  unfold FeatureCode.step
  dsimp only
  cases hrows : asOf c.maxRows s.timed.ledger pin with
  | error e =>
    have hbuild : c.build s name pin = .error e := by
      unfold FeatureCode.build
      rw [hrows]
      rfl
    rw [hbuild]
    exact hs
  | ok rows =>
    cases hfound : s.sets.find? fun set => decide (set.name = name ∧ set.pinnedAt = pin) with
    | some stored =>
      have hbuild : c.build s name pin = .ok (stored, rows, s) := by
        unfold FeatureCode.build
        rw [hrows, hfound]
        rfl
      rw [hbuild]
      exact hs
    | none =>
      have hnew := List.find?_eq_none.mp hfound
      have hbuild : c.build s name pin = .ok (⟨name, pin, c.digest rows, rows.length⟩, rows,
          { s with sets := s.sets ++ [⟨name, pin, c.digest rows, rows.length⟩] }) := by
        unfold FeatureCode.build
        rw [hrows, hfound]
        rfl
      rw [hbuild]
      refine ⟨hs.recorded, fun set hset => ?_, ?_⟩
      · cases List.mem_append.mp hset with
        | inl hold => exact hs.sets set hold
        | inr hset =>
          obtain rfl := List.mem_singleton.mp hset
          exact ⟨hpin, rows, hrows, rfl, rfl⟩
      · rw [List.map_append, List.nodup_append]
        refine ⟨hs.named, List.nodup_singleton _, fun p hp p' hp' heq => ?_⟩
        obtain ⟨set, hset, rfl⟩ := List.mem_map.mp hp
        rw [List.mem_singleton.mp hp', Prod.mk.injEq] at heq
        exact hnew set hset (decide_eq_true heq)

omit [DecidableEq D] in
theorem rebuilt_run (hs : Rebuilt c latest s) {evs : List (FeatureEvent Fp)} (hevs : Pinned latest evs) :
    ∃ latest', Rebuilt c latest' (evs.foldl c.step s) := by
  induction evs generalizing latest s with
  | nil => exact ⟨latest, hs⟩
  | cons ev evs ih =>
    cases ev with
    | fold now j => exact ih (rebuilt_fold hs hevs.1 j) hevs.2
    | build name pin => exact ih (rebuilt_build hs hevs.1) hevs.2

end Rebuilding

/-- **A stored set is rebuilt as it was, for ever**: after every sequence of folds and requests, of sets that are
    pinned to what had been folded, each set verifies, and asking for it again gives it back with the rows its
    digest and its number are of. -/
theorem verify_forever (c : FeatureCode D) {start : Instant} {evs : List (FeatureEvent Fp)} (hevs : Pinned start evs) :
    ∀ set ∈ (evs.foldl c.step ({} : FeatureStore fw D)).sets,
      c.verify (evs.foldl c.step ({} : FeatureStore fw D)) set = .ok (true, set.contentHash, set.contentHash) ∧
      ∃ rows, c.build (evs.foldl c.step ({} : FeatureStore fw D)) set.name set.pinnedAt =
          .ok (set, rows, evs.foldl c.step {}) ∧
        c.digest rows = set.contentHash ∧ rows.length = set.rowCount := by
  obtain ⟨latest, hs⟩ := rebuilt_run (c := c) (s := ({} : FeatureStore fw D))
    ⟨fun v hv => absurd hv List.not_mem_nil, fun set hset => absurd hset List.not_mem_nil, List.nodup_nil⟩ hevs
  intro set hset
  obtain ⟨-, rows, hrows, hdigest, hcount⟩ := hs.sets set hset
  refine ⟨?_, rows, ?_, hdigest, hcount⟩
  · unfold FeatureCode.verify
    rw [hrows]
    simp [Except.map, hdigest]
  · -- the set is the only one of its name and pin
    have hfound : (evs.foldl c.step ({} : FeatureStore fw D)).sets.find?
        (fun other => decide (other.name = set.name ∧ other.pinnedAt = set.pinnedAt)) = some set := by
      cases hfind : (evs.foldl c.step ({} : FeatureStore fw D)).sets.find?
          (fun other => decide (other.name = set.name ∧ other.pinnedAt = set.pinnedAt)) with
      | none => exact absurd (List.find?_eq_none.mp hfind set hset) (by simp)
      | some other =>
        have hsame : other.name = set.name ∧ other.pinnedAt = set.pinnedAt := by
          simpa using List.find?_some hfind
        have hinj := List.inj_on_of_nodup_map hs.named (List.mem_of_find?_eq_some hfind) hset
          (Prod.ext hsame.1 hsame.2)
        rw [hinj]
    unfold FeatureCode.build
    rw [hrows, hfound]
    rfl

/-- A set is built between two folds, of which the later one changes the conversation. -/
def builtBetween : List (FeatureEvent Print) :=
  [.fold 100 (foldNamed "A" 0 []), .build "demand" 100, .fold 200 (foldNamed "B" 1 [])]

theorem verify_forever_between :
    ((builtBetween.foldl (FeatureCode.step ⟨List.length, 5⟩) ({} : FeatureStore printWorld ℕ)).sets.all fun set =>
      match FeatureCode.verify ⟨List.length, 5⟩
        (builtBetween.foldl (FeatureCode.step ⟨List.length, 5⟩) ({} : FeatureStore printWorld ℕ)) set with
      | .ok verified => verified.1
      | .error _ => false) = true := by
  have hpinned : Pinned 0 builtBetween := by simp [Pinned, builtBetween]
  refine List.all_eq_true.mpr fun set hset => ?_
  rw [(verify_forever ⟨List.length, 5⟩ hpinned set hset).1]

end RagPipeline.Analytics
