/-
  RagPipeline.Analytics.LookupLatest — what an attribute that is declared `latest_wins` has stored, over a run.

    * `recordCalls_periods`   — the rows of a key after a run are those of its groups, one after the other;
    * `recordPeriods_settled` — a group overwrites the value of a stable attribute with its last one;
    * `recordPeriods_current` — the open period of another one has the value of its last change;
    * `latest_kept`           — a run keeps the latest value in every state, when no call brings only older news.
-/
import RagPipeline.Analytics.LookupPeriods

namespace RagPipeline.Analytics.Lookups

open RagPipeline.Stage2 RagPipeline.Lib

/-! ## §1. What was delivered, and what is stored. -/

/-- The observations of a key in a run, call after call. -/
def delivered (calls : List RecordCall) (k : LookupKey) : List Observation :=
  calls.flatMap fun call => reduce call.observations k

/-- An observation with the greatest time. -/
def Newest (os : List Observation) (o : Observation) : Prop := o ∈ os ∧ ∀ p ∈ os, p.seenAt ≤ o.seenAt

/-- The value of the last period. -/
def latestStored (store : LookupStore) (k : LookupKey) : Option String :=
  (store.periods k).getLast?.map Period.value

/-- What is stored is the value of a newest observation. -/
def KeepsLatest (w : PythonTexts) (calls : List RecordCall) (k : LookupKey) : Prop :=
  delivered calls k ≠ [] → ∃ o, Newest (delivered calls k) o ∧ latestStored (recordCalls w calls) k = some o.value

/-- An observation that is as new as all the earlier ones, or says what a newest one of them said. -/
def InOrder (earlier : List Observation) (o : Observation) : Prop :=
  (∀ p ∈ earlier, p.seenAt ≤ o.seenAt) ∨ ∃ p, Newest earlier p ∧ p.value = o.value

/-- The last observation of the call, in the order of time, is in order. -/
def RecordCall.LastInOrder (call : RecordCall) (before : List RecordCall) (k : LookupKey) : Prop :=
  ∀ o ∈ (reduce call.observations k).getLast?, InOrder (delivered before k) o

/-- The newest observations of the call are in order, or it changes nothing that is stored. -/
def RecordCall.NewsInOrder (call : RecordCall) (before : List RecordCall) (store : LookupStore) (k : LookupKey) : Prop :=
  delivered before k ≠ [] →
    (∀ o ∈ reduce call.observations k, beginning < o.seenAt) ∧
    ((∀ o, Newest (reduce call.observations k) o → InOrder (delivered before k) o) ∨
      ∀ last ∈ (store.periods k).getLast?, ∀ o ∈ reduce call.observations k,
        o.changesFrom last.value last.validFrom = false)

theorem delivered_snoc (calls : List RecordCall) (call : RecordCall) (k : LookupKey) :
    delivered (calls ++ [call]) k = delivered calls k ++ reduce call.observations k := by
  simp [delivered]

/-! ## §2. Newest observations. -/

section Order

variable {earlier group : List Observation} {o : Observation}

theorem reduce_sorted (observations : List Observation) (k : LookupKey) :
    (reduce observations k).Pairwise fun o o' => o.seenAt ≤ o'.seenAt := by
  have htotal : Std.Total fun o o' : Observation => o.seenAt ≤ o'.seenAt := ⟨fun o o' => le_total o.seenAt o'.seenAt⟩
  have htrans : IsTrans Observation fun o o' => o.seenAt ≤ o'.seenAt := ⟨fun _ _ _ h h' => Int.le_trans h h'⟩
  exact List.pairwise_insertionSort _ _

/-- The last of a sorted group is a newest one. -/
theorem newest_getLast (hsorted : group.Pairwise fun o o' => o.seenAt ≤ o'.seenAt) (ho : o ∈ group.getLast?) :
    Newest group o := by
  obtain ⟨init, rfl⟩ := List.getLast?_eq_some_iff.mp ho
  refine ⟨List.mem_append_right _ List.mem_cons_self, fun p hp => ?_⟩
  obtain ⟨-, -, hbefore⟩ := List.pairwise_append.mp hsorted
  cases List.mem_append.mp hp with
  | inl hinit => exact hbefore p hinit o List.mem_cons_self
  | inr hlast => exact (congrArg Observation.seenAt (List.mem_singleton.mp hlast)).le

/-- **In order is what keeps the latest**: the value of a newest one of the group is that of a newest one of all
exactly when it is in order. -/
theorem inOrder_iff (ho : Newest group o) :
    InOrder earlier o ↔ ∃ n, Newest (earlier ++ group) n ∧ n.value = o.value := by
  constructor
  · intro h
    cases h with
    | inl hall =>
      refine ⟨o, ⟨List.mem_append_right _ ho.1, fun p hp => ?_⟩, rfl⟩
      exact (List.mem_append.mp hp).elim (hall p) (ho.2 p)
    | inr hsame =>
      obtain ⟨n, hn, hvalue⟩ := hsame
      -- either of the two may be the newer one
      cases le_total o.seenAt n.seenAt with
      | inl hle =>
        refine ⟨n, ⟨List.mem_append_left _ hn.1, fun p hp => ?_⟩, hvalue⟩
        exact (List.mem_append.mp hp).elim (hn.2 p) fun hg => (ho.2 p hg).trans hle
      | inr hle =>
        refine ⟨o, ⟨List.mem_append_right _ ho.1, fun p hp => ?_⟩, rfl⟩
        exact (List.mem_append.mp hp).elim (fun hb => (hn.2 p hb).trans hle) (ho.2 p)
  · rintro ⟨n, hn, hvalue⟩
    cases List.mem_append.mp hn.1 with
    | inl hearlier => exact Or.inr ⟨n, ⟨hearlier, fun p hp => hn.2 p (List.mem_append_left _ hp)⟩, hvalue⟩
    | inr hgroup =>
      refine Or.inl fun p hp => ?_
      exact (hn.2 p (List.mem_append_left _ hp)).trans (ho.2 n hgroup)

end Order

/-! ## §3. The periods of a key after a run. -/

section Key

variable (w : PythonTexts) (a : Option LookupAttribute)

/-- The last period is open, and has this value since then. -/
def LastOpen (periods : List LookupPeriod) (value : String) (since : Instant) : Prop :=
  ∃ init, periods = init ++ [{ value := value, validFrom := since }]

theorem recordPeriods_first (hlatest : latestWins a = true) {group : List Observation} {o : Observation}
    (ho : o ∈ group.getLast?) : LastOpen (recordPeriods w a [] group) o.value beginning := by
  cases group with
  | nil => cases ho
  | cons first rest =>
    have hlast : (first :: rest).getLast (List.cons_ne_nil first rest) = o := by
      rw [List.getLast?_eq_some_getLast (List.cons_ne_nil first rest)] at ho
      exact Option.some.inj ho
    have hall : allValues a = false := latest_not_allValues a hlatest
    refine ⟨[], ?_⟩
    show [(firstRow w a first rest).period] = _
    unfold firstRow LookupRow.period
    simp only [hlatest, hall, if_true, Bool.false_eq_true, if_false, hlast, List.nil_append]

/-- **A stable attribute takes the last value of a group.** -/
theorem recordPeriods_settled (ha : keepsHistory a = false) (hlatest : latestWins a = true) {periods : List LookupPeriod}
    {value : String} {since : Instant} (h : LastOpen periods value since) {group : List Observation} {o : Observation}
    (ho : o ∈ group.getLast?) : LastOpen (recordPeriods w a periods group) o.value since := by
  obtain ⟨init, rfl⟩ := h
  have hne : group ≠ [] := by
    rintro rfl
    cases ho
  have hall : allValues a = false := latest_not_allValues a hlatest
  refine ⟨init, ?_⟩
  rw [recordPeriods_snoc w a init _ hne]
  unfold recordLast settledValue
  have ho' : group.getLast? = some o := ho
  simp [ha, hlatest, hall, ho']

/-- The last change of a log is what is current after it. -/
theorem getLast?_changes (value : String) (since : Instant) (group : List Observation) :
    match (changesOf value since group).getLast? with
    | none => current Observation.value Observation.seenAt value since group = (value, since)
    | some c => current Observation.value Observation.seenAt value since group = (c.value, c.seenAt) ∧ c ∈ group := by
  induction group generalizing value since with
  | nil => rfl
  | cons o group ih =>
    cases hchange : o.changesFrom value since with
    | false =>
      have hskip : changesOf value since (o :: group) = changesOf value since group := by
        simp only [changesOf, changes, hchange, Bool.false_eq_true, if_false]
      have hcurrent : current Observation.value Observation.seenAt value since (o :: group) =
          current Observation.value Observation.seenAt value since group := by
        simp only [current, hchange, Bool.false_eq_true, if_false]
      have hrest := ih value since
      rw [hskip, hcurrent]
      cases hlast : (changesOf value since group).getLast? with
      | none =>
        rw [hlast] at hrest
        exact hrest
      | some c =>
        rw [hlast] at hrest
        exact ⟨hrest.1, List.mem_cons_of_mem _ hrest.2⟩
    | true =>
      have hcons : changesOf value since (o :: group) = o :: changesOf o.value o.seenAt group := by
        simp only [changesOf, changes, hchange, if_true]
      have hcurrent : current Observation.value Observation.seenAt value since (o :: group) =
          current Observation.value Observation.seenAt o.value o.seenAt group := by
        simp only [current, hchange, if_true]
      have hrest := ih o.value o.seenAt
      rw [hcons, hcurrent, List.getLast?_cons]
      cases hlast : (changesOf o.value o.seenAt group).getLast? with
      | none =>
        rw [hlast] at hrest
        exact ⟨hrest, List.mem_cons_self⟩
      | some c =>
        rw [hlast] at hrest
        exact ⟨hrest.1, List.mem_cons_of_mem _ hrest.2⟩

/-- **Another attribute has the value of its last change.** -/
theorem recordPeriods_current (ha : keepsHistory a = true) {periods : List LookupPeriod} {value : String} {since : Instant}
    (h : LastOpen periods value since) {group : List Observation} (hne : group ≠ []) :
    LastOpen (recordPeriods w a periods group) (current Observation.value Observation.seenAt value since group).1
      (current Observation.value Observation.seenAt value since group).2 := by
  obtain ⟨init, rfl⟩ := h
  rw [recordPeriods_snoc w a init _ hne]
  have hlast := getLast?_changes value since group
  unfold recordLast
  rw [if_pos ha, if_pos rfl]
  dsimp only
  cases hc : changesOf value since group with
  | nil =>
    rw [hc] at hlast
    have hcurrent : current Observation.value Observation.seenAt value since group = (value, since) := hlast
    rw [hcurrent]
    exact ⟨init, rfl⟩
  | cons c cs =>
    rw [hc, List.getLast?_eq_some_getLast (List.cons_ne_nil c cs)] at hlast
    rw [hlast.1]
    refine ⟨init ++ { value := value, validFrom := since, validTo := some c.seenAt } ::
      ((c :: cs).dropLast.map Observation.opens), ?_⟩
    have hsplit : (c :: cs).map Observation.opens = (c :: cs).dropLast.map Observation.opens ++
        [((c :: cs).getLast (List.cons_ne_nil c cs)).opens] := by
      rw [← List.map_singleton, ← List.map_append, List.dropLast_append_getLast]
    show init ++ ({ value := value, validFrom := since, validTo := some c.seenAt } : LookupPeriod) ::
      (c :: cs).map Observation.opens = _
    rw [hsplit, List.append_assoc]
    rfl

/-- What is current after a sorted log with something new in it is the value of a newest entry. -/
theorem current_newest {v : String} {since : Instant} {group : List Observation}
    (hsorted : group.Pairwise fun o o' => o.seenAt ≤ o'.seenAt) {o : Observation} (ho : o ∈ group)
    (hlate : since < o.seenAt) : ∃ n, Newest group n ∧
      (current Observation.value Observation.seenAt v since group).1 = n.value := by
  cases group using List.reverseRecOn with
  | nil => cases ho
  | append_singleton init last =>
    have hnewest : Newest (init ++ [last]) last := newest_getLast hsorted (by simp)
    have hstep := current_append Observation.value Observation.seenAt v since init [last]
    have hinit := getLast?_changes v since init
    rw [hstep]
    unfold current
    split
    · exact ⟨last, hnewest, rfl⟩
    · next hquiet =>
      show ∃ n, Newest (init ++ [last]) n ∧ (current Observation.value Observation.seenAt v since init).1 = n.value
      by_cases hsame : last.value = (current Observation.value Observation.seenAt v since init).1
      · exact ⟨last, hnewest, hsame.symm⟩
      · -- another value that is not later: then a change of the same instant came before it
        have hle : last.seenAt ≤ (current Observation.value Observation.seenAt v since init).2 := by
          by_contra hlt
          exact hquiet (decide_eq_true ⟨hsame, Int.not_le.mp hlt⟩)
        split at hinit
        · rw [hinit] at hle
          exact absurd (hlate.trans_le ((hnewest.2 o ho).trans hle)) (lt_irrefl _)
        · next c _ =>
          obtain ⟨hcurrent, hc⟩ := hinit
          rw [hcurrent] at hle ⊢
          exact ⟨c, ⟨List.mem_append_left _ hc, fun p hp => (hnewest.2 p hp).trans hle⟩, rfl⟩

end Key

/-! ## §4. Runs. -/

section Run

variable (w : PythonTexts)

/-- **The rows of a key after a run**, in the terms of its groups. -/
theorem recordCalls_periods (a : Option LookupAttribute) (calls : List RecordCall) (k : LookupKey)
    (hdecl : ∀ call ∈ calls, declaredFor call.lookups k = a) :
    Sorted (recordCalls w calls k) ∧ (recordCalls w calls k).map LookupRow.period =
      (calls.map fun call => reduce call.observations k).foldl (recordPeriods w a) [] := by
  induction calls using List.reverseRecOn with
  | nil => exact ⟨List.Pairwise.nil, rfl⟩
  | append_singleton calls call ih =>
    obtain ⟨hsorted, hperiods⟩ := ih fun c hc => hdecl c (List.mem_append_left _ hc)
    have hcall := hdecl call (List.mem_append_right _ List.mem_cons_self)
    obtain ⟨hafter, hsorted'⟩ := recordRows_periods w a hsorted (reduce call.observations k)
    rw [recordCalls_snoc, List.map_append, List.foldl_append, ← hperiods]
    show Sorted (recordRows w (declaredFor call.lookups k) (recordCalls w calls k) _).1 ∧ _
    rw [hcall]
    refine ⟨hsorted', ?_⟩
    show (recordRows w (declaredFor call.lookups k) (recordCalls w calls k) _).1.map LookupRow.period = _
    rw [hcall]
    exact hafter

/-- What is stored, from the periods. -/
theorem latestStored_of_lastOpen {store : LookupStore} {k : LookupKey} (hsorted : Sorted (store k)) {value : String}
    {since : Instant} (h : LastOpen ((store k).map LookupRow.period) value since) :
    latestStored store k = some value ∧
      (store.periods k).getLast? = some { value := value, validFrom := since } := by
  obtain ⟨init, hinit⟩ := h
  have hlast : (store.periods k).getLast? = some { value := value, validFrom := since } := by
    rw [periods_of_sorted hsorted, hinit, List.getLast?_concat]
  exact ⟨congrArg (Option.map Period.value) hlast, hlast⟩

variable {w} {a : LookupAttribute} (hrule : a.onConflict = .latestWins)

include hrule

theorem latestWins_some : latestWins (some a) = true := decide_eq_true hrule

theorem keepsHistory_some : keepsHistory (some a) = !a.stable := by
  unfold keepsHistory isStable allValues
  simp [hrule]

/-- The row of a stable attribute stays open. -/
theorem settled_periods (hstable : a.stable = true) (groups : List (List Observation)) :
    groups.foldl (recordPeriods w (some a)) [] = [] ∨
      ∃ value since, LastOpen (groups.foldl (recordPeriods w (some a)) []) value since := by
  have hkeeps : keepsHistory (some a) = false := by rw [keepsHistory_some hrule, hstable]; rfl
  induction groups using List.reverseRecOn with
  | nil => exact Or.inl rfl
  | append_singleton groups group ih =>
    rw [List.foldl_append, List.foldl_cons, List.foldl_nil]
    cases hlast : group.getLast? with
    | none =>
      rw [List.getLast?_eq_none_iff.mp hlast]
      exact ih
    | some last =>
      right
      cases ih with
      | inl hnil =>
        rw [hnil]
        exact ⟨_, _, recordPeriods_first w (some a) (latestWins_some hrule) hlast⟩
      | inr hopen =>
        obtain ⟨value, since, hopen⟩ := hopen
        exact ⟨_, _, recordPeriods_settled w (some a) hkeeps (latestWins_some hrule) hopen hlast⟩

/-- **One call of a stable attribute** keeps the latest exactly when its last observation is in order. -/
theorem keepsLatest_snoc (hstable : a.stable = true) {calls : List RecordCall} {call : RecordCall} {k : LookupKey}
    (hdecl : ∀ c ∈ calls ++ [call], declaredFor c.lookups k = some a) (hne : reduce call.observations k ≠ []) :
    KeepsLatest w (calls ++ [call]) k ↔ call.LastInOrder calls k := by
  have hkeeps : keepsHistory (some a) = false := by rw [keepsHistory_some hrule, hstable]; rfl
  obtain ⟨o, ho⟩ : ∃ o, (reduce call.observations k).getLast? = some o :=
    ⟨_, List.getLast?_eq_some_getLast hne⟩
  have hnewest := newest_getLast (reduce_sorted call.observations k) ho
  -- what is stored is the value of the last observation
  have hstored : latestStored (recordCalls w (calls ++ [call])) k = some o.value := by
    obtain ⟨hsorted, hperiods⟩ := recordCalls_periods w (some a) (calls ++ [call]) k hdecl
    have hopen : ∃ since, LastOpen ((recordCalls w (calls ++ [call]) k).map LookupRow.period) o.value since := by
      rw [hperiods, List.map_append, List.foldl_append]
      show ∃ since, LastOpen (recordPeriods w (some a) _ (reduce call.observations k)) o.value since
      cases settled_periods hrule hstable (calls.map fun call => reduce call.observations k) (w := w) with
      | inl hnil =>
        rw [hnil]
        exact ⟨_, recordPeriods_first w (some a) (latestWins_some hrule) ho⟩
      | inr hopen =>
        obtain ⟨value, since, hopen⟩ := hopen
        exact ⟨_, recordPeriods_settled w (some a) hkeeps (latestWins_some hrule) hopen ho⟩
    obtain ⟨since, hopen⟩ := hopen
    exact (latestStored_of_lastOpen hsorted hopen).1
  have hsome : delivered (calls ++ [call]) k ≠ [] := by
    rw [delivered_snoc]
    exact List.append_ne_nil_of_right_ne_nil _ hne
  unfold KeepsLatest RecordCall.LastInOrder
  rw [hstored, delivered_snoc]
  rw [delivered_snoc] at hsome
  have hlast : (∀ p ∈ (reduce call.observations k).getLast?, InOrder (delivered calls k) p) ↔
      InOrder (delivered calls k) o := by
    rw [ho]
    simp
  rw [hlast, inOrder_iff hnewest]
  constructor
  · intro h
    obtain ⟨n, hn, hvalue⟩ := h hsome
    exact ⟨n, hn, (Option.some.inj hvalue).symm⟩
  · rintro ⟨n, hn, hvalue⟩ _
    exact ⟨n, hn, congrArg some hvalue.symm⟩

omit hrule in
/-- A call that does not name the key leaves it as it was. -/
theorem keepsLatest_unnamed {calls : List RecordCall} {call : RecordCall} {k : LookupKey} (hnone : reduce call.observations k = []) :
    KeepsLatest w (calls ++ [call]) k ↔ KeepsLatest w calls k := by
  have hdelivered : delivered (calls ++ [call]) k = delivered calls k := by
    rw [delivered_snoc, hnone, List.append_nil]
  have hrows : recordCalls w (calls ++ [call]) k = recordCalls w calls k := by
    rw [recordCalls_snoc]
    show (recordRows w (declaredFor call.lookups k) (recordCalls w calls k) (reduce call.observations k)).1 = _
    rw [hnone]
    rfl
  unfold KeepsLatest latestStored LookupStore.periods
  rw [hdelivered, hrows]

/-- What an attribute that is not stable has stored: the value of a newest observation, since one of them. -/
structure OpenLatest (w : PythonTexts) (calls : List RecordCall) (k : LookupKey) (value : String) (since : Instant) :
    Prop where
  lastOpen : LastOpen ((recordCalls w calls k).map LookupRow.period) value since
  since : since = beginning ∨ ∃ p ∈ delivered calls k, p.seenAt = since
  newest : ∃ n, Newest (delivered calls k) n ∧ n.value = value

omit hrule in
theorem OpenLatest.keeps {calls : List RecordCall} {k : LookupKey} {value : String} {since : Instant}
    (h : OpenLatest w calls k value since) (hsorted : Sorted (recordCalls w calls k)) : KeepsLatest w calls k := by
  obtain ⟨n, hn, rfl⟩ := h.newest
  exact fun _ => ⟨n, hn, (latestStored_of_lastOpen hsorted h.lastOpen).1⟩

/-- **One call of another attribute** keeps the latest when its news are in order. -/
theorem OpenLatest.record (hstable : a.stable = false) {calls : List RecordCall} {call : RecordCall} {k : LookupKey}
    {value : String} {since : Instant} (h : OpenLatest w calls k value since)
    (hdecl : ∀ c ∈ calls ++ [call], declaredFor c.lookups k = some a) (hne : reduce call.observations k ≠ [])
    (horder : call.NewsInOrder calls (recordCalls w calls) k) :
    ∃ value' since', OpenLatest w (calls ++ [call]) k value' since' := by
  have hkeeps : keepsHistory (some a) = true := by rw [keepsHistory_some hrule, hstable]; rfl
  obtain ⟨hsorted, hperiods⟩ := recordCalls_periods w (some a) calls k
    fun c hc => hdecl c (List.mem_append_left _ hc)
  obtain ⟨-, hperiods'⟩ := recordCalls_periods w (some a) (calls ++ [call]) k hdecl
  obtain ⟨n, hn, hvalue⟩ := h.newest
  obtain ⟨hlater, horder⟩ := horder (List.ne_nil_of_mem hn.1)
  have hgroup := reduce_sorted call.observations k
  refine ⟨(current Observation.value Observation.seenAt value since (reduce call.observations k)).1,
    (current Observation.value Observation.seenAt value since (reduce call.observations k)).2, ?_, ?_, ?_⟩
  · rw [hperiods', List.map_append, List.foldl_append, ← hperiods]
    exact recordPeriods_current w (some a) hkeeps h.lastOpen hne
  · -- since the last change, or since before
    have hlast := getLast?_changes value since (reduce call.observations k)
    rw [delivered_snoc]
    split at hlast
    · rw [hlast]
      exact h.since.imp_right fun ⟨p, hp, hat⟩ => ⟨p, List.mem_append_left _ hp, hat⟩
    · next c _ =>
      rw [hlast.1]
      exact Or.inr ⟨c, List.mem_append_right _ hlast.2, rfl⟩
  · rw [delivered_snoc]
    -- a group that changes nothing
    have hquiet : (∀ o ∈ reduce call.observations k, o.changesFrom value since = false) →
        current Observation.value Observation.seenAt value since (reduce call.observations k) = (value, since) :=
      fun hall => current_of_quiet _ _ ((changes_eq_nil_iff _ _ _).mpr hall)
    by_cases hnews : ∃ o ∈ reduce call.observations k, since < o.seenAt
    · obtain ⟨o, ho, hlate⟩ := hnews
      obtain ⟨m, hm, hcurrent⟩ := current_newest hgroup (v := value) ho hlate
      rw [hcurrent]
      refine (inOrder_iff hm).mp ?_
      cases horder with
      | inl hall => exact hall m hm
      | inr hnothing =>
        have hsame := hquiet (hnothing _ (latestStored_of_lastOpen hsorted h.lastOpen).2)
        rw [hsame] at hcurrent
        exact Or.inr ⟨n, hn, hvalue.trans hcurrent⟩
    · -- nothing of the group is later than the open period, and so than what was delivered
      have hold : ∀ o ∈ reduce call.observations k, o.seenAt ≤ since := fun o ho =>
        Int.not_lt.mp fun hlt => hnews ⟨o, ho, hlt⟩
      have hsame := hquiet fun o ho => by
        simp [Observation.changesFrom, Lib.changesFrom, Int.not_lt.mpr (hold o ho)]
      rw [hsame]
      refine ⟨n, ⟨List.mem_append_left _ hn.1, fun p hp => ?_⟩, hvalue⟩
      cases List.mem_append.mp hp with
      | inl hearlier => exact hn.2 p hearlier
      | inr hg =>
        cases h.since with
        | inl hbeginning => exact absurd ((hlater p hg).trans_le (hold p hg)) (hbeginning ▸ lt_irrefl _)
        | inr hseen =>
          obtain ⟨q, hq, rfl⟩ := hseen
          exact (hold p hg).trans (hn.2 q hq)

/-- A run of an attribute that is not stable, whose calls bring their news in order. -/
theorem openLatest_run (hstable : a.stable = false) {calls : List RecordCall} {k : LookupKey}
    (hdecl : ∀ c ∈ calls, declaredFor c.lookups k = some a)
    (horder : ∀ before call after, calls = before ++ call :: after →
      call.NewsInOrder before (recordCalls w before) k) :
    (delivered calls k = [] ∧ (recordCalls w calls k).map LookupRow.period = []) ∨
      ∃ value since, OpenLatest w calls k value since := by
  induction calls using List.reverseRecOn with
  | nil => exact Or.inl ⟨rfl, rfl⟩
  | append_singleton calls call ih =>
    have hbefore := ih (fun c hc => hdecl c (List.mem_append_left _ hc)) fun before earlier after hcalls =>
      horder before earlier (after ++ [call]) (by rw [hcalls]; simp)
    obtain ⟨-, hperiods⟩ := recordCalls_periods w (some a) calls k fun c hc => hdecl c (List.mem_append_left _ hc)
    obtain ⟨-, hperiods'⟩ := recordCalls_periods w (some a) (calls ++ [call]) k hdecl
    rw [List.map_append, List.foldl_append, ← hperiods] at hperiods'
    by_cases hne : reduce call.observations k = []
    · -- the call does not name the key
      have hrows : (recordCalls w (calls ++ [call]) k).map LookupRow.period =
          (recordCalls w calls k).map LookupRow.period := by
        rw [hperiods']
        show recordPeriods w (some a) _ (reduce call.observations k) = _
        rw [hne]
        rfl
      have hdelivered : delivered (calls ++ [call]) k = delivered calls k := by
        rw [delivered_snoc, hne, List.append_nil]
      rw [hrows, hdelivered]
      refine hbefore.imp_right ?_
      rintro ⟨value, since, hopen⟩
      exact ⟨value, since, hrows ▸ hopen.lastOpen, hdelivered ▸ hopen.since, hdelivered ▸ hopen.newest⟩
    · right
      cases hbefore with
      | inr hopen =>
        obtain ⟨value, since, hopen⟩ := hopen
        exact hopen.record hrule hstable hdecl hne (horder calls call [] rfl)
      | inl hunseen =>
        -- the first observations of the key
        obtain ⟨o, ho⟩ : ∃ o, (reduce call.observations k).getLast? = some o :=
          ⟨_, List.getLast?_eq_some_getLast hne⟩
        have hnewest := newest_getLast (reduce_sorted call.observations k) ho
        refine ⟨o.value, beginning, ?_, Or.inl rfl, ?_⟩
        · rw [hperiods', hunseen.2]
          exact recordPeriods_first w (some a) (latestWins_some hrule) ho
        · rw [delivered_snoc, hunseen.1, List.nil_append]
          exact ⟨o, hnewest, rfl⟩

/-- **The latest is kept**, in every state of a run: for a stable attribute exactly when the last observation of
every call is in order, for another one when the news of every call are. -/
theorem latest_kept (calls : List RecordCall) (k : LookupKey) (hdecl : ∀ c ∈ calls, declaredFor c.lookups k = some a) :
    (a.stable = true → ((∀ before after, calls = before ++ after → KeepsLatest w before k) ↔
      ∀ before call after, calls = before ++ call :: after → call.LastInOrder before k)) ∧
      (a.stable = false → (∀ before call after, calls = before ++ call :: after →
        call.NewsInOrder before (recordCalls w before) k) →
        ∀ before after, calls = before ++ after → KeepsLatest w before k) := by
  constructor
  · intro hstable
    constructor
    · intro hkeeps before call after hcalls o ho
      have hdecl' : ∀ c ∈ before ++ [call], declaredFor c.lookups k = some a := fun c hc =>
        hdecl c (by rw [hcalls, List.append_cons]; exact List.mem_append_left _ hc)
      have hne : reduce call.observations k ≠ [] := fun hnil => by
        rw [hnil] at ho
        cases ho
      exact (keepsLatest_snoc hrule hstable hdecl' hne).mp
        (hkeeps (before ++ [call]) after (by rw [hcalls]; simp)) o ho
    · intro horder before
      -- over the calls so far: each either leaves the key alone or is the last in order
      induction before using List.reverseRecOn with
      | nil => exact fun _ _ h => absurd rfl h
      | append_singleton before call ih =>
        intro after hcalls
        have hdecl' : ∀ c ∈ before ++ [call], declaredFor c.lookups k = some a := fun c hc =>
          hdecl c (by rw [hcalls]; exact List.mem_append_left _ hc)
        have hcalls' : calls = before ++ call :: after := by rw [hcalls]; simp
        by_cases hne : reduce call.observations k = []
        · exact (keepsLatest_unnamed hne).mpr (ih (call :: after) hcalls')
        · exact (keepsLatest_snoc hrule hstable hdecl' hne).mpr (horder before call after hcalls')
  · intro hstable horder before after hcalls
    have hdecl' : ∀ c ∈ before, declaredFor c.lookups k = some a := fun c hc =>
      hdecl c (by rw [hcalls]; exact List.mem_append_left _ hc)
    have hrun := openLatest_run hrule hstable hdecl' (w := w) fun earlier call rest hbefore =>
      horder earlier call (rest ++ after) (by rw [hcalls, hbefore]; simp)
    cases hrun with
    | inl hunseen => exact fun hne => absurd hunseen.1 hne
    | inr hopen =>
      obtain ⟨value, since, hopen⟩ := hopen
      exact hopen.keeps (recordCalls_periods w (some a) before k hdecl').1

end Run

/-! ## §5. An older observation, delivered later. -/

/-- In every state of every run, a `latest_wins` attribute has the value of a newest observation. -/
def LatestWins : Prop :=
  ∀ (w : PythonTexts) (a : LookupAttribute) (calls : List RecordCall) (k : LookupKey),
    a.onConflict = .latestWins → (∀ c ∈ calls, declaredFor c.lookups k = some a) → KeepsLatest w calls k

/-- The carrier of a delivery; the last one that is told is right. -/
def lastCarrier : LookupAttribute := { name := "carrier", onConflict := .latestWins }

deriving instance DecidableEq for LookupAttribute, Observation

/-- A call that is handed its declaration. -/
def lastCarriersSeen (observations : List Observation) : RecordCall :=
  { lookups := declared { name := "delivery", attributes := [lastCarrier] }, observations }

theorem declaredFor_lastCarriers (observations : List Observation) :
    declaredFor (lastCarriersSeen observations).lookups ("delivery", "D1", "carrier") = some lastCarrier := by
  show declaredFor (declared { name := "delivery", attributes := [lastCarrier] }) _ = some lastCarrier
  decide

/-- South at 2000, and in a later call North at 1000: North is stored. -/
theorem olderCarrier_stored : ¬LatestWins := by
  intro h
  have hkeeps := h plainTexts lastCarrier
    [lastCarriersSeen [carrierSeen "South" 2000], lastCarriersSeen [carrierSeen "North" 1000]]
    ("delivery", "D1", "carrier") rfl (by simp [declaredFor_lastCarriers])
  obtain ⟨o, ho, hstored⟩ := hkeeps (by decide)
  have hvalue : o.value = "North" := by
    have hnorth : latestStored (recordCalls plainTexts
        [lastCarriersSeen [carrierSeen "South" 2000], lastCarriersSeen [carrierSeen "North" 1000]])
        ("delivery", "D1", "carrier") = some "North" := by decide
    exact (Option.some.inj (hnorth.symm.trans hstored)).symm
  have hsouth := ho.2 (carrierSeen "South" 2000) (by decide)
  have hone : o = carrierSeen "South" 2000 ∨ o = carrierSeen "North" 1000 := by
    have hmem := ho.1
    have hall : delivered [lastCarriersSeen [carrierSeen "South" 2000], lastCarriersSeen [carrierSeen "North" 1000]]
        ("delivery", "D1", "carrier") = [carrierSeen "South" 2000, carrierSeen "North" 1000] := by decide
    rw [hall] at hmem
    simpa using hmem
  cases hone with
  | inl h1 =>
    rw [h1] at hvalue
    exact absurd hvalue (by decide)
  | inr h2 =>
    rw [h2] at hsouth
    exact absurd hsouth (by decide)

/-- Two names in the order of time. -/
theorem latest_kept_carrier :
    (∀ before after, [lastCarriersSeen [carrierSeen "North" 1000], lastCarriersSeen [carrierSeen "South" 2000]] =
        before ++ after → KeepsLatest plainTexts before ("delivery", "D1", "carrier")) ↔
      ∀ before call after, [lastCarriersSeen [carrierSeen "North" 1000], lastCarriersSeen [carrierSeen "South" 2000]] =
        before ++ call :: after → call.LastInOrder before ("delivery", "D1", "carrier") :=
  (latest_kept (w := plainTexts) (a := lastCarrier) rfl
    [lastCarriersSeen [carrierSeen "North" 1000], lastCarriersSeen [carrierSeen "South" 2000]]
    ("delivery", "D1", "carrier") (by simp [declaredFor_lastCarriers])).1 rfl

end RagPipeline.Analytics.Lookups
