/-
  RagPipeline.Analytics.LookupPeriods — the periods of a key, over a run of `record` calls.

    * `tile_record`          — a batch that changes an attribute once keeps its periods a tiling of time;
    * `changesOnce_of_tile`  — and only such a batch does;
    * `recordCalls_tile_iff` — in every state of a run the attributes that are declared not stable have a history
                               exactly when no call changes one twice.
-/
import RagPipeline.Analytics.LookupBatches

namespace RagPipeline.Analytics.Lookups

open RagPipeline.Stage2 RagPipeline.Lib

/-! ## §1. Runs. -/

/-- A call: the declarations it is handed, and what it observed. -/
structure RecordCall where
  lookups : String → Option Lookup
  observations : List Observation

/-- The rows after a run of calls, from an empty table. -/
def recordCalls (w : PythonTexts) (calls : List RecordCall) : LookupStore :=
  calls.foldl (fun store call => (record w call.lookups store call.observations).1) fun _ => []

/-- Some call has named the key. -/
def Observed (calls : List RecordCall) (k : LookupKey) : Prop :=
  ∃ call ∈ calls, ∃ o ∈ call.observations, o.name = k

/-- The periods of a key tile time from the beginning on, one of them is open, and an instant has one value. -/
structure HistoryOf (store : LookupStore) (k : LookupKey) : Prop where
  /-- the first starts at the beginning, each ends where the next one starts, and the last has no end -/
  tile : Period.Tile beginning (store.periods k)
  /-- no other is open -/
  oneOpen : openCount (store.periods k) = 1
  /-- one period covers an instant, and the resolver answers with its value -/
  oneValue : ∀ t, beginning ≤ t → ∃ p ∈ store.periods k, p.covers t = true ∧
    (∀ q ∈ store.periods k, q.covers t = true → q = p) ∧ resolve store k (some t) = some p.value

/-- No key that keeps a history, and has one, changes twice in the call. -/
def RecordCall.OneChange (call : RecordCall) (store : LookupStore) : Prop :=
  ∀ k, keepsHistory (declaredFor call.lookups k) = true → ∀ last ∈ (store.periods k).getLast?,
    ChangesOnce Observation.value Observation.seenAt last.value last.validFrom (reduce call.observations k)

/-! ## §2. One key. -/

/-- What a tiling says of an instant. -/
theorem historyOf_tile {store : LookupStore} {k : LookupKey} (h : Period.Tile beginning (store.periods k)) :
    HistoryOf store k := by
  have hperm : (((store k).map LookupRow.period).insertionSort fun p q => q.validFrom ≤ p.validFrom).Perm
      (store.periods k) := by
    refine (List.perm_insertionSort _ _).trans ?_
    exact ((List.perm_insertionSort LookupRow.ByStart (store k)).map LookupRow.period).symm
  refine ⟨h, h.countP_open, ?_⟩
  intro t ht
  obtain ⟨p, hmem, hcovers, hunique, hfind⟩ := h.find hperm ht
  refine ⟨p, hmem, hcovers, hunique, ?_⟩
  show (List.find? (fun p => p.covers t) _).map Period.value = some p.value
  rw [hfind]
  rfl

section Key

variable (w : PythonTexts) (a : Option LookupAttribute)

/-- The first batch of a key. -/
theorem tile_first (first : Observation) (rest : List Observation) :
    Period.Tile beginning (recordPeriods w a [] (first :: rest)) := ⟨rfl, rfl⟩

/-- **A batch that changes the value once** keeps the tiling. -/
theorem tile_record {periods : List LookupPeriod} (h : Period.Tile beginning periods) {group : List Observation}
    (honce : keepsHistory a = true → ∀ last ∈ periods.getLast?,
      ChangesOnce Observation.value Observation.seenAt last.value last.validFrom group) :
    Period.Tile beginning (recordPeriods w a periods group) := by
  cases group with
  | nil => exact h
  | cons first rest =>
    cases periods using List.reverseRecOn with
    | nil => exact h.elim
    | append_singleton init last =>
      rw [recordPeriods_snoc w a init last (List.cons_ne_nil first rest)]
      cases ha : keepsHistory a with
      | false =>
        unfold recordLast
        rw [ha]
        exact h.revalue _
      | true =>
        have hlen := (changes_length_le_one_iff Observation.value Observation.seenAt _).mpr
          (honce ha last (by simp))
        cases hc : changesOf last.value last.validFrom (first :: rest) with
        | nil =>
          rw [recordLast_quiet w a ha hc]
          exact h
        | cons c cs =>
          rw [show changes Observation.value Observation.seenAt last.value last.validFrom (first :: rest) =
            c :: cs from hc] at hlen
          obtain rfl : cs = [] := List.length_eq_zero_iff.mp (by simpa using hlen)
          have hlate : last.validFrom < c.seenAt :=
            (changes_sorted Observation.value Observation.seenAt last.value last.validFrom (first :: rest)).1 c
              (show c ∈ changesOf last.value last.validFrom (first :: rest) by rw [hc]; exact List.mem_cons_self)
          rw [recordLast_change w a ha h.last_open hc]
          exact h.succeed hlate c.value

/-- **No other batch does**: a second change leaves two periods open. -/
theorem changesOnce_of_tile (ha : keepsHistory a = true) {init : List LookupPeriod} {last : LookupPeriod}
    (h : Period.Tile beginning (init ++ [last])) {group : List Observation}
    (hafter : openCount (recordPeriods w a (init ++ [last]) group) = 1) :
    ChangesOnce Observation.value Observation.seenAt last.value last.validFrom group := by
  rw [← changes_length_le_one_iff]
  cases hc : changesOf last.value last.validFrom group with
  | nil =>
    rw [show changes Observation.value Observation.seenAt last.value last.validFrom group = [] from hc]
    exact Nat.zero_le 1
  | cons c cs =>
    have hne : group ≠ [] := by
      intro hnil
      rw [hnil] at hc
      exact absurd hc (by simp [changes])
    have hcount := openCount_recordLast w a ha h.last_open hc
    rw [recordPeriods_snoc w a init last hne, openCount, List.countP_append] at hafter
    unfold openCount at hcount
    rw [hcount] at hafter
    rw [show changes Observation.value Observation.seenAt last.value last.validFrom group = c :: cs from hc,
      List.length_cons]
    omega

end Key

/-! ## §3. A run. -/

section Run

variable (w : PythonTexts)

/-- A key has a tiling once it is observed, and no rows before. -/
structure Kept (calls : List RecordCall) (store : LookupStore) : Prop where
  sorted : ∀ k, Sorted (store k)
  tile : ∀ k, Observed calls k → Period.Tile beginning ((store k).map LookupRow.period)
  unseen : ∀ k, ¬Observed calls k → store k = []

theorem kept_nil : Kept [] fun _ => [] where
  sorted _ := List.Pairwise.nil
  tile k h := by
    obtain ⟨call, hcall, -⟩ := h
    exact absurd hcall List.not_mem_nil
  unseen _ _ := rfl

theorem periods_of_sorted {store : LookupStore} {k : LookupKey} (h : Sorted (store k)) :
    store.periods k = (store k).map LookupRow.period :=
  congrArg (List.map LookupRow.period) (List.Pairwise.insertionSort_eq h)

theorem observed_snoc (calls : List RecordCall) (call : RecordCall) (k : LookupKey) :
    Observed (calls ++ [call]) k ↔ Observed calls k ∨ reduce call.observations k ≠ [] := by
  have hgroup : reduce call.observations k ≠ [] ↔ ∃ o ∈ call.observations, o.name = k := by
    constructor
    · intro hne
      obtain ⟨o, ho⟩ := List.exists_mem_of_ne_nil _ hne
      have hmem := (List.mem_insertionSort _).mp ho
      rw [List.mem_filter, decide_eq_true_eq] at hmem
      exact ⟨o, hmem⟩
    · intro ⟨o, ho, hname⟩
      refine List.ne_nil_of_mem (a := o) ((List.mem_insertionSort _).mpr ?_)
      rw [List.mem_filter, decide_eq_true_eq]
      exact ⟨ho, hname⟩
  rw [hgroup]
  constructor
  · intro ⟨c, hc, hmem⟩
    cases List.mem_append.mp hc with
    | inl hold => exact Or.inl ⟨c, hold, hmem⟩
    | inr heq => exact Or.inr (List.mem_singleton.mp heq ▸ hmem)
  · intro h
    cases h with
    | inl hold =>
      obtain ⟨c, hc, hmem⟩ := hold
      exact ⟨c, List.mem_append_left _ hc, hmem⟩
    | inr hnew => exact ⟨call, by simp, hnew⟩

/-- What a call makes of the periods of a key. -/
theorem record_periods (call : RecordCall) {store : LookupStore} (h : ∀ k, Sorted (store k)) (k : LookupKey) :
    (((record w call.lookups store call.observations).1 k).map LookupRow.period =
      recordPeriods w (declaredFor call.lookups k) ((store k).map LookupRow.period)
        (reduce call.observations k)) ∧
      Sorted ((record w call.lookups store call.observations).1 k) :=
  recordRows_periods w (declaredFor call.lookups k) (h k) (reduce call.observations k)

/-- **A call that changes no key twice** keeps the tilings. -/
theorem Kept.record {calls : List RecordCall} {store : LookupStore} (h : Kept calls store) (call : RecordCall)
    (honce : call.OneChange store) :
    Kept (calls ++ [call]) (record w call.lookups store call.observations).1 := by
  have hafter := record_periods w call h.sorted
  constructor
  · intro k
    exact (hafter k).2
  · intro k hk
    rw [(hafter k).1]
    by_cases hseen : Observed calls k
    · refine tile_record w (declaredFor call.lookups k) (h.tile k hseen) ?_
      rw [← periods_of_sorted (h.sorted k)]
      exact honce k
    · -- the first observations of the key
      rw [h.unseen k hseen]
      obtain ⟨first, rest, hgroup⟩ :=
        List.exists_cons_of_ne_nil (((observed_snoc calls call k).mp hk).resolve_left hseen)
      rw [hgroup]
      exact tile_first w (declaredFor call.lookups k) first rest
  · intro k hk
    rw [observed_snoc, not_or, not_not] at hk
    have hrows := (hafter k).1
    rw [h.unseen k hk.1, hk.2] at hrows
    exact List.map_eq_nil_iff.mp hrows

/-- **A call that keeps the histories** changes no key twice. -/
theorem oneChange_of_histories {calls : List RecordCall} {store : LookupStore} (h : Kept calls store)
    {call : RecordCall}
    (hafter : ∀ k, Observed (calls ++ [call]) k → isStable (declaredFor call.lookups k) = false →
      HistoryOf (record w call.lookups store call.observations).1 k) : call.OneChange store := by
  intro k ha last hlast
  rw [periods_of_sorted (h.sorted k)] at hlast
  have hseen : Observed calls k := by
    by_contra hunseen
    rw [h.unseen k hunseen] at hlast
    exact absurd hlast (by simp)
  obtain ⟨init, hinit⟩ := List.getLast?_eq_some_iff.mp hlast
  have htile := h.tile k hseen
  obtain ⟨hperiods, hsorted⟩ := record_periods w call h.sorted k
  have hopen := (hafter k ((observed_snoc calls call k).mpr (Or.inl hseen))
    ((keepsHistory_iff _).mp ha).1).oneOpen
  rw [periods_of_sorted hsorted, hperiods, hinit] at hopen
  rw [hinit] at htile
  exact changesOnce_of_tile w (declaredFor call.lookups k) ha htile hopen

theorem recordCalls_snoc (calls : List RecordCall) (call : RecordCall) :
    recordCalls w (calls ++ [call]) = (record w call.lookups (recordCalls w calls) call.observations).1 := by
  simp [recordCalls]

/-- A run whose calls change no key twice. -/
theorem kept_recordCalls {calls : List RecordCall}
    (h : ∀ before call after, calls = before ++ call :: after → call.OneChange (recordCalls w before)) :
    Kept calls (recordCalls w calls) := by
  induction calls using List.reverseRecOn with
  | nil => exact kept_nil
  | append_singleton calls call ih =>
    rw [recordCalls_snoc]
    refine (ih ?_).record w call (h calls call [] rfl)
    intro before earlier after hcalls
    exact h before earlier (after ++ [call]) (by rw [hcalls]; simp)

/-- **The histories of a run**: after each of its calls, every attribute that the call declares not stable has
one for every key that was ever observed, exactly when no call changes a key twice. -/
theorem recordCalls_tile_iff (calls : List RecordCall) :
    (∀ before call after, calls = before ++ call :: after → ∀ k, Observed (before ++ [call]) k →
        isStable (declaredFor call.lookups k) = false → HistoryOf (recordCalls w (before ++ [call])) k) ↔
      ∀ before call after, calls = before ++ call :: after → call.OneChange (recordCalls w before) := by
  constructor
  · intro h before
    -- the calls before this one are as they should be: by induction on how many there are
    induction hn : before.length using Nat.strong_induction_on generalizing before with
    | _ n ih =>
      intro call after hcalls
      have hkept : Kept before (recordCalls w before) := by
        refine kept_recordCalls w ?_
        intro earlier c rest hbefore
        refine ih earlier.length ?_ earlier rfl c (rest ++ call :: after) (by rw [hcalls, hbefore]; simp)
        rw [← hn, hbefore, List.length_append, List.length_cons]
        omega
      refine oneChange_of_histories w hkept ?_
      intro k hk hstable
      have hhistory := h before call after hcalls k hk hstable
      rwa [recordCalls_snoc] at hhistory
  · intro h before call after hcalls k hk _
    have hkept : Kept (before ++ [call]) (recordCalls w (before ++ [call])) := by
      refine kept_recordCalls w ?_
      intro earlier c rest hbefore
      exact h earlier c (rest ++ after) (by rw [hcalls, List.append_cons, hbefore]; simp)
    refine historyOf_tile ?_
    rw [periods_of_sorted (hkept.sorted k)]
    exact hkept.tile k hk

end Run

/-! ## §4. Two changes in one call. -/

/-- After every call, the attributes that are declared not stable have a history. -/
def LookupPeriodsTile : Prop :=
  ∀ (w : PythonTexts) (calls : List RecordCall) (before : List RecordCall) (call : RecordCall)
    (after : List RecordCall), calls = before ++ call :: after → ∀ k, Observed (before ++ [call]) k →
      isStable (declaredFor call.lookups k) = false → HistoryOf (recordCalls w (before ++ [call])) k

/-- A call that is handed the declared carriers. -/
def carriersSeen (observations : List Observation) : RecordCall := { lookups := declared deliveries, observations }

/-- A stored name, then two others in one call: both of the new periods stay open. -/
theorem twoCarriers_open : ¬LookupPeriodsTile := by
  intro h
  have hhistory := h plainTexts _ [carriersSeen [carrierSeen "North" 1000]]
    (carriersSeen [carrierSeen "South" 2000, carrierSeen "East" 3000]) [] rfl ("delivery", "D1", "carrier")
    ⟨_, List.mem_cons_self, _, List.mem_cons_self, rfl⟩ (by decide)
  exact absurd hhistory.oneOpen (by decide)

end RagPipeline.Analytics.Lookups
