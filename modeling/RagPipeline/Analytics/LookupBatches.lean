/-
  RagPipeline.Analytics.LookupBatches — the same observations, cut into batches.

  An attribute that keeps no history has one row, and a batch folds into it (`recordPeriods_append`).  Of an
  attribute that does, a batch reads the stored rows once: the first row of a key collapses what its
  batch says, and a second change closes `_Pending` but not the row that will be inserted.  So
  `recordBatches_free_iff`: every cut leaves the same periods exactly when no key changes twice.
-/
import RagPipeline.Analytics.Lookups
import RagPipeline.Analytics.RollupRows

namespace RagPipeline.Analytics.Lookups

open RagPipeline.Stage2 RagPipeline.Lib

/-! ## §1. Batches. -/

section Batches

variable (w : PythonTexts) (lookups : String → Option Lookup)

/-- One batch after another. -/
def recordBatches (store : LookupStore) (batches : List (List Observation)) : LookupStore :=
  batches.foldl (fun store batch => (record w lookups store batch).1) store

/-- The same periods for every attribute of every key. -/
def SamePeriods (s s' : LookupStore) : Prop :=
  ∀ k, ((s k).map LookupRow.period).Perm ((s' k).map LookupRow.period)

/-- However the observations are cut, the periods are those of one batch. -/
def BatchFree (store : LookupStore) (observations : List Observation) : Prop :=
  ∀ batches : List (List Observation), batches.flatten = observations →
    SamePeriods (recordBatches w lookups store batches) (record w lookups store observations).1

end Batches

/-- The first value of a key stays for all its observations, or a value that is stored changes once. -/
def OneWay (a : Option LookupAttribute) (periods : List LookupPeriod) (group : List Observation) : Prop :=
  match periods.getLast? with
  | none => ∀ first rest, group = first :: rest → ∀ o ∈ rest,
      if latestWins a then o.value = first.value else o.changesFrom first.value beginning = false
  | some last => last.validTo = none → ChangesOnce Observation.value Observation.seenAt last.value last.validFrom group

/-- The periods of an attribute of a key, in the order of their starts. -/
def LookupStore.periods (store : LookupStore) (k : LookupKey) : List LookupPeriod :=
  ((store k).insertionSort LookupRow.ByStart).map LookupRow.period

/-! ## §2. The periods of one key. -/

section Key

variable (w : PythonTexts) (a : Option LookupAttribute)

theorem allValues_not_latest (h : allValues a = true) : latestWins a = false := by
  cases a with
  | none => exact absurd h (by simp [allValues])
  | some a =>
    simp only [allValues, latestWins, Option.any_some, decide_eq_true_eq, decide_eq_false_iff_not] at h ⊢
    rw [h]
    simp

theorem latest_not_allValues (h : latestWins a = true) : allValues a = false := by
  cases hall : allValues a with
  | false => rfl
  | true => exact absurd (allValues_not_latest a hall) (by simp [h])

/-- Of an attribute with a history, the first row has the first value, or the last one. -/
theorem firstRow_value (ha : keepsHistory a = true) (first : Observation) (rest : List Observation) :
    (firstRow w a first rest).value =
      if latestWins a then ((first :: rest).getLast (List.cons_ne_nil first rest)).value else first.value := by
  have hall := ((keepsHistory_iff a).mp ha).2
  unfold firstRow
  simp only [hall, Bool.false_eq_true, if_false]
  split <;> rfl

/-- The first row settles what its batch says. -/
theorem firstRow_settled (first : Observation) (rest : List Observation) :
    (firstRow w a first rest).value = settledValue w a first.value (first :: rest) := by
  unfold firstRow settledValue
  by_cases hall : allValues a = true
  · simp [hall, allValues_not_latest a hall]
  · by_cases hlatest : latestWins a = true
    · simp [hall, hlatest, List.getLast?_eq_some_getLast]
    · simp [hall, hlatest]

theorem recordPeriods_snoc (init : List LookupPeriod) (last : LookupPeriod) {group : List Observation}
    (hg : group ≠ []) : recordPeriods w a (init ++ [last]) group = init ++ recordLast w a last group := by
  cases group with
  | nil => exact absurd rfl hg
  | cons first rest => simp [recordPeriods]

/-- An attribute without a history: a batch goes on where the one before it ended. -/
theorem recordPeriods_append_settled (ha : keepsHistory a = false) (periods : List LookupPeriod)
    (xs ys : List Observation) :
    recordPeriods w a periods (xs ++ ys) = recordPeriods w a (recordPeriods w a periods xs) ys := by
  cases xs with
  | nil => rfl
  | cons first rest =>
    cases ys with
    | nil => rw [List.append_nil]; rfl
    | cons y ys =>
      have hlast : ∀ last : LookupPeriod, ∀ group, recordLast w a last group =
          [{ last with value := settledValue w a last.value group }] := by
        intro last group
        simp [recordLast, ha]
      cases periods using List.reverseRecOn with
      | nil =>
        show [(firstRow w a first (rest ++ y :: ys)).period] =
          recordPeriods w a ([] ++ [(firstRow w a first rest).period]) (y :: ys)
        rw [recordPeriods_snoc w a _ _ (List.cons_ne_nil y ys), hlast]
        have hvalue : (firstRow w a first (rest ++ y :: ys)).value =
            settledValue w a (firstRow w a first rest).value (y :: ys) := by
          rw [firstRow_settled, ← List.cons_append, settledValue_append, ← firstRow_settled]
        show [({ value := (firstRow w a first (rest ++ y :: ys)).value, validFrom := beginning } : LookupPeriod)] =
          [{ value := settledValue w a (firstRow w a first rest).value (y :: ys), validFrom := beginning }]
        rw [hvalue]
      | append_singleton init last =>
        rw [recordPeriods_snoc w a init last (by simp), recordPeriods_snoc w a init last (by simp), hlast, hlast,
          recordPeriods_snoc w a init _ (List.cons_ne_nil y ys), hlast, settledValue_append]

/-- A log without a change leaves an attribute with a history as it was. -/
theorem recordPeriods_quiet (ha : keepsHistory a = true) (init : List LookupPeriod) {last : LookupPeriod}
    {group : List Observation} (h : last.validTo = none → changesOf last.value last.validFrom group = []) :
    recordPeriods w a (init ++ [last]) group = init ++ [last] := by
  cases group with
  | nil => rfl
  | cons first rest =>
    rw [recordPeriods_snoc w a init last (List.cons_ne_nil first rest)]
    unfold recordLast
    rw [if_pos ha]
    split
    · next hopen => rw [h hopen]
    · rfl

theorem recordLast_change (ha : keepsHistory a = true) {last : LookupPeriod} (hopen : last.validTo = none)
    {group cs : List Observation} {c : Observation} (h : changesOf last.value last.validFrom group = c :: cs) :
    recordLast w a last group = { last with validTo := some c.seenAt } :: (c :: cs).map Observation.opens := by
  unfold recordLast
  rw [if_pos ha, if_pos hopen, h]

theorem recordLast_quiet (ha : keepsHistory a = true) {last : LookupPeriod} {group : List Observation}
    (h : changesOf last.value last.validFrom group = []) : recordLast w a last group = [last] := by
  unfold recordLast
  rw [if_pos ha, h]
  split <;> rfl

/-- The first rows of a key: the observations that follow the first one are to change nothing. -/
theorem recordPeriods_append_first (ha : keepsHistory a = true) (first : Observation)
    {rest ys : List Observation} (h : ∀ o ∈ rest ++ ys,
      if latestWins a then o.value = first.value else o.changesFrom first.value beginning = false) :
    recordPeriods w a [] (first :: (rest ++ ys)) =
      recordPeriods w a (recordPeriods w a [] (first :: rest)) ys := by
  -- whichever observation is chosen, the value is the first one
  have hrow : ∀ zs, (∀ o ∈ zs, o ∈ rest ++ ys) →
      (firstRow w a first zs).period = { value := first.value, validFrom := beginning } := by
    intro zs hzs
    have hvalue : (firstRow w a first zs).value = first.value := by
      rw [firstRow_value w a ha]
      split
      · next hlatest =>
        cases List.mem_cons.mp (List.getLast_mem (List.cons_ne_nil first zs)) with
        | inl heq => rw [heq]
        | inr hmem =>
          have hchosen := h _ (hzs _ hmem)
          rwa [if_pos hlatest] at hchosen
      · rfl
    show ({ value := (firstRow w a first zs).value, validFrom := beginning } : LookupPeriod) = _
    rw [hvalue]
  have hquiet : changesOf first.value beginning ys = [] := by
    rw [changesOf, changes_eq_nil_iff]
    intro o ho
    have hchosen := h o (List.mem_append_right _ ho)
    split at hchosen
    · simp [Lib.changesFrom, hchosen]
    · exact hchosen
  show [(firstRow w a first (rest ++ ys)).period] =
    recordPeriods w a ([] ++ [(firstRow w a first rest).period]) ys
  rw [hrow _ fun _ ho => ho, hrow _ fun _ ho => List.mem_append_left _ ho,
    recordPeriods_quiet w a ha [] fun _ => hquiet]
  rfl

/-- An open period: of what the two parts say, one thing changes it. -/
theorem recordPeriods_append_open (ha : keepsHistory a = true) (init : List LookupPeriod) {last : LookupPeriod}
    (hopen : last.validTo = none) {first : Observation} {rest ys : List Observation}
    (h : (changesOf last.value last.validFrom (first :: (rest ++ ys))).length ≤ 1) :
    recordPeriods w a (init ++ [last]) (first :: (rest ++ ys)) =
      recordPeriods w a (recordPeriods w a (init ++ [last]) (first :: rest)) ys := by
  obtain ⟨value, since, hcurrent⟩ : ∃ value since,
      current Observation.value Observation.seenAt last.value last.validFrom (first :: rest) = (value, since) :=
    ⟨_, _, rfl⟩
  have hsplit : changesOf last.value last.validFrom (first :: (rest ++ ys)) =
      changesOf last.value last.validFrom (first :: rest) ++ changesOf value since ys := by
    have := changes_append Observation.value Observation.seenAt last.value last.validFrom (first :: rest) ys
    rwa [hcurrent] at this
  rw [recordPeriods_snoc w a init last (List.cons_ne_nil _ _),
    recordPeriods_snoc w a init last (List.cons_ne_nil _ _)]
  cases hc : changesOf last.value last.validFrom (first :: rest) with
  | nil =>
    -- the first part changes nothing
    obtain ⟨rfl, rfl⟩ : last.value = value ∧ last.validFrom = since :=
      Prod.mk.inj ((current_of_quiet _ _ hc).symm.trans hcurrent)
    rw [hc, List.nil_append] at hsplit
    rw [recordLast_quiet w a ha hc]
    cases ys with
    | nil => rw [recordLast_quiet w a ha hsplit]; rfl
    | cons y ys =>
      rw [recordPeriods_snoc w a init last (List.cons_ne_nil _ _)]
      unfold recordLast
      rw [hsplit, if_pos ha, if_pos ha]
  | cons c cs =>
    -- the first part changes it, and so nothing else does
    rw [hc] at hsplit
    rw [hsplit, List.length_append, List.length_cons] at h
    obtain rfl : cs = [] := List.length_eq_zero_iff.mp (by omega)
    have hquiet : changesOf value since ys = [] := List.length_eq_zero_iff.mp (by omega)
    obtain ⟨rfl, rfl⟩ : c.value = value ∧ c.seenAt = since :=
      Prod.mk.inj ((current_of_change _ _ hc).symm.trans hcurrent)
    rw [hquiet, List.append_nil] at hsplit
    rw [recordLast_change w a ha hopen hc, recordLast_change w a ha hopen hsplit]
    have hquiet' : recordPeriods w a ((init ++ [{ last with validTo := some c.seenAt }]) ++ [c.opens]) ys =
        (init ++ [{ last with validTo := some c.seenAt }]) ++ [c.opens] :=
      recordPeriods_quiet w a ha _ fun _ => hquiet
    rw [List.append_assoc] at hquiet'
    exact hquiet'.symm

/-- **A batch goes on where the one before it ended**, if nothing changes twice. -/
theorem recordPeriods_append {periods : List LookupPeriod} {xs ys : List Observation}
    (h : keepsHistory a = true → OneWay a periods (xs ++ ys)) :
    recordPeriods w a periods (xs ++ ys) = recordPeriods w a (recordPeriods w a periods xs) ys := by
  cases ha : keepsHistory a with
  | false => exact recordPeriods_append_settled w a ha periods xs ys
  | true =>
    have hway := h ha
    cases xs with
    | nil => rfl
    | cons first rest =>
      cases periods using List.reverseRecOn with
      | nil => exact recordPeriods_append_first w a ha first (hway first (rest ++ ys) rfl)
      | append_singleton init last =>
        by_cases hopen : last.validTo = none
        · simp only [OneWay, List.getLast?_append, List.getLast?_singleton, Option.some_or] at hway
          exact recordPeriods_append_open w a ha init hopen
            ((changes_length_le_one_iff Observation.value Observation.seenAt _).mpr (hway hopen))
        · rw [recordPeriods_quiet w a ha init fun hnone => absurd hnone hopen,
            recordPeriods_quiet w a ha init fun hnone => absurd hnone hopen,
            recordPeriods_quiet w a ha init fun hnone => absurd hnone hopen]

theorem OneWay.of_append {periods : List LookupPeriod} {xs ys : List Observation}
    (h : OneWay a periods (xs ++ ys)) : OneWay a periods xs := by
  cases periods using List.reverseRecOn with
  | nil =>
    intro first rest hxs o ho
    exact h first (rest ++ ys) (by rw [hxs]; rfl) o (List.mem_append_left _ ho)
  | append_singleton init last =>
    simp only [OneWay, List.getLast?_append, List.getLast?_singleton, Option.some_or] at h ⊢
    intro hopen early o late hxs hearly ho b hb
    exact h hopen early o (late ++ ys) (by rw [hxs]; simp) hearly ho b (List.mem_append_left _ hb)

/-- The cut does not matter. -/
theorem foldl_recordPeriods {periods : List LookupPeriod} (batches : List (List Observation))
    (h : keepsHistory a = true → OneWay a periods batches.flatten) :
    batches.foldl (recordPeriods w a) periods = recordPeriods w a periods batches.flatten := by
  induction batches using List.reverseRecOn with
  | nil => rfl
  | append_singleton batches batch ih =>
    have hflat : (batches ++ [batch]).flatten = batches.flatten ++ batch := by simp
    rw [hflat] at h ⊢
    rw [List.foldl_append, ih fun ha => (h ha).of_append a]
    exact (recordPeriods_append w a h).symm

/-! ## §3. When a cut does matter. -/

/-- A period keeps its value, whatever is recorded after it. -/
theorem recordLast_head (ha : keepsHistory a = true) (last : LookupPeriod) (group : List Observation) :
    ∃ p ps, recordLast w a last group = p :: ps ∧ p.value = last.value := by
  unfold recordLast
  rw [if_pos ha]
  split
  · split
    · exact ⟨_, _, rfl, rfl⟩
    · exact ⟨_, _, rfl, rfl⟩
  · exact ⟨_, _, rfl, rfl⟩

/-- After the first row of a key, a change opens a second one. -/
theorem recordPeriods_first_length (ha : keepsHistory a = true) {p : LookupPeriod} (hopen : p.validTo = none)
    {group : List Observation} (h : changesOf p.value p.validFrom group ≠ []) :
    1 < (recordPeriods w a [p] group).length := by
  obtain ⟨c, cs, hc⟩ := List.exists_cons_of_ne_nil h
  have hne : group ≠ [] := by
    intro hnil
    rw [hnil] at h
    exact h rfl
  rw [show [p] = [] ++ [p] from rfl, recordPeriods_snoc w a [] p hne, recordLast_change w a ha hopen hc]
  simp

/-- A key whose first observations are cut in two leaves the same periods only if they go one way. -/
theorem oneWay_of_first (ha : keepsHistory a = true) {group : List Observation}
    (h : ∀ xs ys, group = xs ++ ys →
      (recordPeriods w a (recordPeriods w a [] xs) ys).Perm (recordPeriods w a [] group)) :
    OneWay a [] group := by
  intro first rest hgroup o ho
  subst hgroup
  have hcut := h [first] rest rfl
  have hfirst : (firstRow w a first []).period = { value := first.value, validFrom := beginning } := by
    show ({ value := (firstRow w a first []).value, validFrom := beginning } : LookupPeriod) = _
    rw [firstRow_value w a ha]
    split <;> rfl
  split
  · next hlatest =>
    -- the value of the first row, in a batch that ends with `o` and in one that ends with the last
    have hhead : ∀ early late, rest = early ++ late →
        (firstRow w a first early).value = (firstRow w a first rest).value := by
      intro early late hrest
      have hperm : (recordPeriods w a ([] ++ [(firstRow w a first early).period]) late).Perm
          [(firstRow w a first rest).period] := h (first :: early) late (by rw [hrest]; rfl)
      cases late with
      | nil => exact congrArg Period.value (List.singleton_perm_singleton.mp hperm)
      | cons y late =>
        rw [recordPeriods_snoc w a [] _ (List.cons_ne_nil y late), List.nil_append] at hperm
        obtain ⟨p, ps, hlist, hvalue⟩ := recordLast_head w a ha (firstRow w a first early).period (y :: late)
        rw [hlist] at hperm
        have hp : p = (firstRow w a first rest).period :=
          List.mem_singleton.mp (hperm.mem_iff.mp List.mem_cons_self)
        exact hvalue.symm.trans (congrArg Period.value hp)
    obtain ⟨early, late, hrest⟩ := List.append_of_mem ho
    have hstart := hhead [] rest rfl
    have hend := hhead (early ++ [o]) late (by rw [hrest]; simp)
    rw [← hstart, firstRow_value w a ha, firstRow_value w a ha, if_pos hlatest, if_pos hlatest] at hend
    simpa using hend
  · by_contra hchange
    have hnil : changesOf first.value beginning rest = [] := by
      by_contra hne
      have hlong := recordPeriods_first_length w a ha (p := { value := first.value, validFrom := beginning }) rfl hne
      rw [← hfirst] at hlong
      exact absurd (hlong.trans_eq hcut.length_eq) (by simp [recordPeriods])
    exact hchange ((changes_eq_nil_iff Observation.value Observation.seenAt rest).mp hnil o ho)

/-- The periods without an end. -/
def openCount (periods : List LookupPeriod) : ℕ := periods.countP fun p => decide (p.validTo = none)

theorem openCount_opens (group : List Observation) : openCount (group.map Observation.opens) = group.length := by
  induction group with
  | nil => rfl
  | cons o group ih =>
    rw [List.map_cons, openCount, List.countP_cons_of_pos (by simp [Observation.opens])]
    exact congrArg (· + 1) ih

/-- Every change of a batch leaves a period open. -/
theorem openCount_recordLast (ha : keepsHistory a = true) {last : LookupPeriod} (hopen : last.validTo = none)
    {group cs : List Observation} {c : Observation} (h : changesOf last.value last.validFrom group = c :: cs) :
    openCount (recordLast w a last group) = cs.length + 1 := by
  rw [recordLast_change w a ha hopen h, openCount, List.countP_cons_of_neg (by simp)]
  exact openCount_opens (c :: cs)

/-- A key whose stored value is followed by two changes: a batch that ends after the first closes its
period, and one batch for both does not. -/
theorem oneWay_of_stored (ha : keepsHistory a = true) {init : List LookupPeriod} {last : LookupPeriod}
    {group : List Observation} (h : ∀ xs ys, group = xs ++ ys →
      (recordPeriods w a (recordPeriods w a (init ++ [last]) xs) ys).Perm
        (recordPeriods w a (init ++ [last]) group)) :
    OneWay a (init ++ [last]) group := by
  simp only [OneWay, List.getLast?_append, List.getLast?_singleton, Option.some_or]
  intro hopen early o late hgroup hearly ho b hb
  by_contra hchange
  -- what changes the value after `o` does
  have hsecond : changesOf o.value o.seenAt late ≠ [] := by
    intro hnil
    exact hchange ((changes_eq_nil_iff Observation.value Observation.seenAt late).mp hnil b hb)
  obtain ⟨c, cs, hc⟩ := List.exists_cons_of_ne_nil hsecond
  have hfirst : changesOf last.value last.validFrom (early ++ [o]) = [o] := by
    have hquiet := (changes_eq_nil_iff Observation.value Observation.seenAt early).mpr hearly
    rw [changesOf, changes_append, hquiet, current_of_quiet _ _ hquiet]
    simp [changes, ho]
  have hboth : changesOf last.value last.validFrom group = o :: c :: cs := by
    have hsplit : group = (early ++ [o]) ++ late := by rw [hgroup]; simp
    rw [changesOf, hsplit, changes_append, current_of_change _ _ hfirst]
    show changesOf last.value last.validFrom (early ++ [o]) ++ changesOf o.value o.seenAt late = _
    rw [hfirst, hc]
    rfl
  have hne : late ≠ [] := List.ne_nil_of_mem hb
  have hcut := (h (early ++ [o]) late (by rw [hgroup]; simp)).countP_eq fun p => decide (p.validTo = none)
  have hmiddle : recordPeriods w a (init ++ [last]) (early ++ [o]) =
      (init ++ [{ last with validTo := some o.seenAt }]) ++ [o.opens] := by
    rw [recordPeriods_snoc w a init last (by simp), recordLast_change w a ha hopen hfirst, List.append_assoc]
    rfl
  rw [hmiddle, recordPeriods_snoc w a _ _ hne, recordPeriods_snoc w a init last (by rw [hgroup]; simp),
    List.countP_append, List.countP_append, List.countP_append] at hcut
  have hleft : openCount (recordLast w a o.opens late) = cs.length + 1 := openCount_recordLast w a ha rfl hc
  have hright : openCount (recordLast w a last group) = (c :: cs).length + 1 :=
    openCount_recordLast w a ha hopen hboth
  unfold openCount at hleft hright
  rw [hleft, hright, List.countP_singleton] at hcut
  simp at hcut

/-- **The periods of one key.** -/
theorem perm_cuts_iff (periods : List LookupPeriod) (group : List Observation) :
    (∀ batches : List (List Observation), batches.flatten = group →
        (batches.foldl (recordPeriods w a) periods).Perm (recordPeriods w a periods group)) ↔
      (keepsHistory a = true → OneWay a periods group) := by
  constructor
  · intro h ha
    have hcut : ∀ xs ys, group = xs ++ ys →
        (recordPeriods w a (recordPeriods w a periods xs) ys).Perm (recordPeriods w a periods group) := by
      intro xs ys hgroup
      exact h [xs, ys] (by simp [hgroup])
    cases periods using List.reverseRecOn with
    | nil => exact oneWay_of_first w a ha hcut
    | append_singleton init last => exact oneWay_of_stored w a ha hcut
  · intro h batches hflat
    subst hflat
    rw [foldl_recordPeriods w a batches h]

end Key

/-! ## §4. The store. -/

section Store

variable (w : PythonTexts) (lookups : String → Option Lookup) (store : LookupStore)

/-- The observations of one key. -/
abbrev ofKey (k : LookupKey) (observations : List Observation) : List Observation :=
  observations.filter fun o => decide (o.name = k)

/-- The rows of one key, batch after batch. -/
def rowsAfter (a : Option LookupAttribute) (rows : List LookupRow) (batches : List (List Observation)) :
    List LookupRow :=
  batches.foldl (fun rows batch => (recordRows w a rows batch).1) rows

/-- A key sees its own observations only. -/
theorem recordBatches_at (k : LookupKey) (batches : List (List Observation))
    (hsorted : ∀ batch ∈ batches, batch.Pairwise fun o o' => o.seenAt ≤ o'.seenAt) :
    recordBatches w lookups store batches k =
      rowsAfter w (declaredFor lookups k) (store k) (batches.map (ofKey k)) := by
  induction batches generalizing store with
  | nil => rfl
  | cons batch batches ih =>
    have hreduce : reduce batch k = ofKey k batch :=
      List.Pairwise.insertionSort_eq ((hsorted batch List.mem_cons_self).sublist List.filter_sublist)
    show recordBatches w lookups (record w lookups store batch).1 batches k = _
    rw [ih _ fun b hb => hsorted b (List.mem_cons_of_mem _ hb)]
    show rowsAfter w _ (recordRows w (declaredFor lookups k) (store k) (reduce batch k)).1 _ = _
    rw [hreduce]
    rfl

theorem recordRows_insertionSort (a : Option LookupAttribute) (rows : List LookupRow) {group : List Observation}
    (hg : group ≠ []) :
    recordRows w a (rows.insertionSort LookupRow.ByStart) group = recordRows w a rows group := by
  cases group with
  | nil => exact absurd rfl hg
  | cons first rest =>
    have hsort : (rows.insertionSort LookupRow.ByStart).insertionSort LookupRow.ByStart =
        rows.insertionSort LookupRow.ByStart :=
      List.Pairwise.insertionSort_eq (List.pairwise_insertionSort LookupRow.ByStart rows)
    show recordGroup w a _ first rest = recordGroup w a rows first rest
    unfold recordGroup
    rw [hsort]

/-- Sorted rows stay sorted, and their periods are what the batches make of them. -/
theorem rowsAfter_periods (a : Option LookupAttribute) {rows : List LookupRow} (hrows : Sorted rows)
    (batches : List (List Observation)) :
    (rowsAfter w a rows batches).map LookupRow.period =
      batches.foldl (recordPeriods w a) (rows.map LookupRow.period) := by
  induction batches generalizing rows with
  | nil => rfl
  | cons batch batches ih =>
    obtain ⟨hperiods, hsorted⟩ := recordRows_periods w a hrows batch
    show (rowsAfter w a (recordRows w a rows batch).1 batches).map LookupRow.period = _
    rw [ih hsorted, hperiods]
    rfl

theorem rowsAfter_insertionSort (a : Option LookupAttribute) (rows : List LookupRow)
    {batches : List (List Observation)} (h : batches.flatten ≠ []) :
    rowsAfter w a (rows.insertionSort LookupRow.ByStart) batches = rowsAfter w a rows batches := by
  induction batches with
  | nil => exact absurd rfl h
  | cons batch batches ih =>
    cases batch with
    | nil => exact ih (by simpa using h)
    | cons first rest =>
      show rowsAfter w a (recordRows w a (rows.insertionSort LookupRow.ByStart) (first :: rest)).1 batches = _
      rw [recordRows_insertionSort w a rows (List.cons_ne_nil _ _)]
      rfl

/-- A key that is named by no batch keeps its rows. -/
theorem rowsAfter_unnamed (a : Option LookupAttribute) (rows : List LookupRow)
    {batches : List (List Observation)} (h : batches.flatten = []) : rowsAfter w a rows batches = rows := by
  induction batches with
  | nil => rfl
  | cons batch batches ih =>
    rw [List.flatten_cons, List.append_eq_nil_iff] at h
    obtain ⟨rfl, hrest⟩ := h
    exact ih hrest

/-- The periods of one key, in any store. -/
theorem rowsAfter_perm_iff (a : Option LookupAttribute) (rows : List LookupRow) (group : List Observation) :
    (∀ batches : List (List Observation), batches.flatten = group →
        ((rowsAfter w a rows batches).map LookupRow.period).Perm
          ((rowsAfter w a rows [group]).map LookupRow.period)) ↔
      (keepsHistory a = true →
        OneWay a ((rows.insertionSort LookupRow.ByStart).map LookupRow.period) group) := by
  have hsorted : Sorted (rows.insertionSort LookupRow.ByStart) :=
    List.pairwise_insertionSort LookupRow.ByStart rows
  rw [← perm_cuts_iff w a]
  refine forall_congr' fun batches => imp_congr_right fun hflat => ?_
  by_cases hnil : group = []
  · -- nothing is recorded
    subst hnil
    have hunnamed : ∀ {ps : List LookupPeriod}, batches.foldl (recordPeriods w a) ps = ps := by
      intro ps
      clear hsorted
      induction batches with
      | nil => rfl
      | cons batch batches ih =>
        rw [List.flatten_cons, List.append_eq_nil_iff] at hflat
        obtain ⟨rfl, hrest⟩ := hflat
        exact ih hrest
    rw [rowsAfter_unnamed w a rows hflat, hunnamed]
    exact ⟨fun _ => List.Perm.refl _, fun _ => List.Perm.refl _⟩
  · rw [← rowsAfter_insertionSort w a rows (by rw [hflat]; exact hnil),
      ← rowsAfter_insertionSort w a rows (show [group].flatten ≠ [] by simpa using hnil),
      rowsAfter_periods w a hsorted, rowsAfter_periods w a hsorted]
    rfl

/-- A cut of the observations of a key is made by a cut of all of them. -/
theorem exists_cut (k : LookupKey) (batches : List (List Observation)) {observations : List Observation}
    (h : batches.flatten = ofKey k observations) :
    ∃ cut : List (List Observation), cut.flatten = observations ∧ cut.map (ofKey k) = batches ++ [[]] := by
  induction batches generalizing observations with
  | nil =>
    refine ⟨[observations], by simp, ?_⟩
    show [ofKey k observations] = [[]]
    rw [← h]
    rfl
  | cons batch batches ih =>
    obtain ⟨front, back, rfl, hfront, hback⟩ := List.filter_eq_append_iff.mp (List.flatten_cons ▸ h).symm
    obtain ⟨cut, hflat, hcut⟩ := ih hback.symm
    refine ⟨front :: cut, by rw [List.flatten_cons, hflat], ?_⟩
    rw [List.map_cons, hcut]
    show ofKey k front :: (batches ++ [[]]) = _
    rw [show ofKey k front = batch from hfront]
    rfl

end Store

/-! ## §5. Two names in one batch. -/

/-- Every cut of a time-ordered sequence leaves the periods of one batch. -/
def LookupBatchesFree : Prop :=
  ∀ (w : PythonTexts) (lookups : String → Option Lookup) (store : LookupStore) (observations : List Observation),
    observations.Pairwise (fun o o' => o.seenAt ≤ o'.seenAt) → BatchFree w lookups store observations

/-- A carrier that may change. -/
def deliveries : Lookup := { name := "delivery", attributes := [{ name := "carrier", stable := false }] }

/-- A declaration under its name. -/
def declared (l : Lookup) (name : String) : Option Lookup := if name = l.name then some l else none

/-- What one fact says of a delivery. -/
def carrierSeen (value : String) (t : Instant) : Observation :=
  { lookup := "delivery", key := "D1", attributeName := "carrier", value := value, seenAt := t, sourceMethod := "Ship" }

end RagPipeline.Analytics.Lookups
