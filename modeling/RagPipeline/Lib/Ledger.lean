/-
  RagPipeline.Lib.Ledger — an append-only ledger beside a table that a diff keeps.

  Every verdict that writes the table appends the version it wrote; a reversal appends the version it took
  away.  A version carries a revision: 1 when it is inserted, else one more than the stored row's.

    * `replay`             — what each key holds after the versions, in order;
    * `Ledgered`           — the table is the replay, and a stored row has the revision of its last version;
    * `ledgered_apply`     — one verdict keeps that;
    * `increasing_applyAll`— the revisions of each key keep increasing exactly when no key is inserted that has
                             versions already.
-/
import RagPipeline.Lib.RangeDiff

namespace RagPipeline.Lib

/-! ## §1. Versions. -/

/-- Why a version was written. -/
inductive Reason where
  | insert | update | reverse
  deriving DecidableEq, Repr

/-- A row of a ledger. -/
structure Version (ν : Type*) where
  reason : Reason
  row : ν

variable {κ ν ω : Type*} [DecidableEq κ] {key : ν → κ} {skey : ω → κ}

/-- What the key of a version holds after it. -/
def Version.held (v : Version ν) : Option ν :=
  match v.reason with
  | .reverse => none
  | .insert | .update => some v.row

/-- One version, replayed. -/
def replayStep (key : ν → κ) (held : κ → Option ν) (v : Version ν) (k : κ) : Option ν :=
  if key v.row = k then v.held else held k

/-- **What each key holds after these versions.** -/
def replay (key : ν → κ) (vs : List (Version ν)) : κ → Option ν := vs.foldl (replayStep key) fun _ => none

/-- The versions of a key. -/
def versionsOf (key : ν → κ) (k : κ) (vs : List (Version ν)) : List (Version ν) :=
  vs.filter fun v => decide (key v.row = k)

/-- How rows are numbered: 1, and one more each time; `retire` is the version of a row that is taken away. -/
structure Numbering (F : Folding key skey) where
  revision : ν → ℕ
  retire : ν → ν
  key_retire : ∀ o, key (retire o) = key o
  revision_fresh : ∀ w, revision (F.fresh w) = 1
  revision_revise : ∀ o w, revision (F.revise o w) = revision o + 1
  revision_retire : ∀ o, revision (retire o) = revision o + 1

variable {F : Folding key skey}

/-- The versions a verdict appends. -/
def Outcome.versions (N : Numbering F) : Outcome κ ν ω → List (Version ν)
  | .insert _ w => [⟨.insert, F.fresh w⟩]
  | .update _ o w => [⟨.update, F.revise o w⟩]
  | .unchanged _ _ => []
  | .reverse _ o => [⟨.reverse, N.retire o⟩]

/-- The revisions of each key increase strictly. -/
def Increasing (N : Numbering F) (vs : List (Version ν)) : Prop :=
  ∀ k, ((versionsOf key k vs).map fun v => N.revision v.row).Pairwise (· < ·)

/-- The table is the replay of the ledger; the last version of a stored row has its revision. -/
structure Ledgered (N : Numbering F) (t : Table key) (vs : List (Version ν)) : Prop where
  replayed : ∀ k, replay key vs k = t.find k
  positive : ∀ v ∈ vs, 0 < N.revision v.row
  last : ∀ k o, t.find k = some o → ∃ v, (versionsOf key k vs).getLast? = some v ∧ N.revision v.row = N.revision o

variable {N : Numbering F}

theorem ledgered_empty : Ledgered N (Table.empty : Table key) [] :=
  ⟨fun _ => rfl, fun _ h => absurd h List.not_mem_nil, fun _ _ h => by cases h⟩

/-- A verdict appends one version at most, under its own key. -/
theorem key_versions {t : Table key} {o : Outcome κ ν ω} (hk : o.Keyed skey) (hf : o.Fits t)
    {v : Version ν} (hv : v ∈ o.versions N) : key v.row = o.target := by
  cases o with
  | insert k w =>
    rw [List.mem_singleton.mp hv]
    exact (F.key_fresh w).trans hk
  | update k old w =>
    rw [List.mem_singleton.mp hv]
    exact (F.key_revise old w).trans hk
  | unchanged k old => exact absurd hv List.not_mem_nil
  | reverse k old =>
    rw [List.mem_singleton.mp hv]
    exact (N.key_retire old).trans (Table.find_eq_some.mp hf).2

theorem versionsOf_append (k : κ) (vs vs' : List (Version ν)) :
    versionsOf key k (vs ++ vs') = versionsOf key k vs ++ versionsOf key k vs' := List.filter_append ..

/-- The other keys get no version. -/
theorem versionsOf_other {t : Table key} {o : Outcome κ ν ω} (hk : o.Keyed skey) (hf : o.Fits t) {k : κ}
    (hne : k ≠ o.target) : versionsOf key k (o.versions N) = [] := by
  refine List.filter_eq_nil_iff.mpr fun v hv => ?_
  rw [key_versions hk hf hv, decide_eq_true_eq]
  exact fun h => hne h.symm

/-- Its own key gets them all. -/
theorem versionsOf_own {t : Table key} {o : Outcome κ ν ω} (hk : o.Keyed skey) (hf : o.Fits t) :
    versionsOf key o.target (o.versions N) = o.versions N := by
  refine List.filter_eq_self.mpr fun v hv => ?_
  rw [key_versions hk hf hv]
  exact decide_eq_true rfl

/-! ## §2. One verdict. -/

/-- The replay of what a verdict appends is its result. -/
theorem replay_versions {t : Table key} {o : Outcome κ ν ω} (hk : o.Keyed skey) (hf : o.Fits t)
    {vs : List (Version ν)} (hreplay : ∀ k, replay key vs k = t.find k) (k : κ) :
    replay key (vs ++ o.versions N) k = if k = o.target then o.result F else t.find k := by
  have hone : ∀ v : Version ν, key v.row = o.target →
      replay key (vs ++ [v]) k = if k = o.target then v.held else t.find k := by
    intro v hv
    unfold replay
    rw [List.foldl_append, List.foldl_cons, List.foldl_nil]
    unfold replayStep
    rw [hv]
    by_cases h : k = o.target
    · rw [if_pos h, if_pos h.symm]
    · rw [if_neg h, if_neg (Ne.symm h)]
      exact hreplay k
  have hkey : ∀ v ∈ o.versions N, key v.row = o.target := fun v hv => key_versions hk hf hv
  cases o with
  | insert k' w => exact hone _ (hkey _ List.mem_cons_self)
  | update k' old w => exact hone _ (hkey _ List.mem_cons_self)
  | reverse k' old => exact hone _ (hkey _ List.mem_cons_self)
  | unchanged k' old =>
    have hnone : (Outcome.unchanged k' old : Outcome κ ν ω).versions N = [] := rfl
    rw [hnone, List.append_nil, hreplay]
    by_cases h : k = k'
    · show _ = if k = k' then some old else t.find k
      rw [if_pos h, h]
      exact hf
    · show _ = if k = k' then some old else t.find k
      rw [if_neg h]

/-- **One verdict keeps table and ledger together.** -/
theorem ledgered_apply {t t' : Table key} {vs : List (Version ν)} {o : Outcome κ ν ω} (h : Ledgered N t vs)
    (hk : o.Keyed skey) (hf : o.Fits t) (hfind : ∀ k, t'.find k = if k = o.target then o.result F else t.find k) :
    Ledgered N t' (vs ++ o.versions N) := by
  refine ⟨fun k => ?_, fun v hv => ?_, fun k row hrow => ?_⟩
  · rw [replay_versions hk hf h.replayed, hfind]
  · cases List.mem_append.mp hv with
    | inl hold => exact h.positive v hold
    | inr hnew =>
      cases o with
      | insert k w =>
        rw [List.mem_singleton.mp hnew, N.revision_fresh]
        exact Nat.one_pos
      | update k old w =>
        rw [List.mem_singleton.mp hnew, N.revision_revise]
        exact Nat.succ_pos _
      | unchanged k old => exact absurd hnew List.not_mem_nil
      | reverse k old =>
        rw [List.mem_singleton.mp hnew, N.revision_retire]
        exact Nat.succ_pos _
  · rw [hfind] at hrow
    -- another key keeps its history; this one gains the version of the outcome
    by_cases hown : k = o.target
    · rw [if_pos hown] at hrow
      rw [hown, versionsOf_append, versionsOf_own hk hf]
      cases o with
      | insert k' w =>
        exact ⟨⟨.insert, F.fresh w⟩, List.getLast?_concat, congrArg N.revision (Option.some.inj hrow)⟩
      | update k' old w =>
        exact ⟨⟨.update, F.revise old w⟩, List.getLast?_concat, congrArg N.revision (Option.some.inj hrow)⟩
      | unchanged k' old =>
        have hnone : (Outcome.unchanged k' old : Outcome κ ν ω).versions N = [] := rfl
        rw [hnone, List.append_nil]
        exact h.last k' row (hf.trans hrow)
      | reverse k' old => cases hrow
    · rw [if_neg hown] at hrow
      rw [versionsOf_append, versionsOf_other hk hf hown, List.append_nil]
      exact h.last k row hrow

/-- A strictly increasing list goes on exactly when the next number is above its last. -/
theorem pairwise_concat_iff {ns : List ℕ} {n : ℕ} :
    (ns ++ [n]).Pairwise (· < ·) ↔ ns.Pairwise (· < ·) ∧ ∀ m, ns.getLast? = some m → m < n := by
  rw [List.pairwise_append]
  constructor
  · intro h
    exact ⟨h.1, fun m hm => h.2.2 m (List.mem_of_getLast? hm) n List.mem_cons_self⟩
  · intro h
    refine ⟨h.1, List.pairwise_singleton _ _, fun m hm n' hn' => ?_⟩
    rw [List.mem_singleton.mp hn']
    have hne : ns ≠ [] := List.ne_nil_of_mem hm
    have hlast := h.2 (ns.getLast hne) (List.getLast?_eq_some_getLast hne)
    -- every element is at most the last
    have hle : m ≤ ns.getLast hne := by
      have hsplit : ns.dropLast ++ [ns.getLast hne] = ns := List.dropLast_append_getLast hne
      have hpair := h.1
      rw [← hsplit] at hm hpair
      cases List.mem_append.mp hm with
      | inl hbefore => exact (List.pairwise_append.mp hpair).2.2 m hbefore _ List.mem_cons_self |>.le
      | inr hthere => rw [List.mem_singleton.mp hthere]
    exact lt_of_le_of_lt hle hlast

/-- Of the revisions after a verdict, only those of its own key are new. -/
theorem increasing_append_iff {t : Table key} {vs : List (Version ν)} {o : Outcome κ ν ω} (hk : o.Keyed skey)
    (hf : o.Fits t) : Increasing N (vs ++ o.versions N) ↔ Increasing N vs ∧
      ((versionsOf key o.target vs ++ o.versions N).map fun v => N.revision v.row).Pairwise (· < ·) := by
  have hother : ∀ k, k ≠ o.target → versionsOf key k (vs ++ o.versions N) = versionsOf key k vs := by
    intro k hne
    rw [versionsOf_append, versionsOf_other hk hf hne, List.append_nil]
  have hown : versionsOf key o.target (vs ++ o.versions N) = versionsOf key o.target vs ++ o.versions N := by
    rw [versionsOf_append, versionsOf_own hk hf]
  constructor
  · intro hinc
    have hnew := hinc o.target
    rw [hown] at hnew
    refine ⟨fun k => ?_, hnew⟩
    by_cases hkey : k = o.target
    · rw [hkey]
      rw [List.map_append] at hnew
      exact (List.pairwise_append.mp hnew).1
    · have hk' := hinc k
      rwa [hother k hkey] at hk'
  · intro hinc k
    by_cases hkey : k = o.target
    · rw [hkey, hown]
      exact hinc.2
    · rw [hother k hkey]
      exact hinc.1 k

/-- A stored key goes on from the revision of its row. -/
theorem Ledgered.next {t : Table key} {vs : List (Version ν)} (h : Ledgered N t vs) (hinc : Increasing N vs) {k : κ}
    {old : ν} {n : ℕ} (hold : t.find k = some old) (hlt : N.revision old < n) :
    (((versionsOf key k vs).map fun v => N.revision v.row) ++ [n]).Pairwise (· < ·) := by
  refine pairwise_concat_iff.mpr ⟨hinc _, fun m hm => ?_⟩
  obtain ⟨v, hv, hrev⟩ := h.last k old hold
  rw [List.getLast?_map, hv] at hm
  have hm' : m = N.revision v.row := (Option.some.inj hm).symm
  rw [hm', hrev]
  exact hlt

/-- **One verdict keeps the revisions increasing exactly when it does not insert a key that has versions.** -/
theorem increasing_apply {t : Table key} {vs : List (Version ν)} {o : Outcome κ ν ω} (h : Ledgered N t vs)
    (hk : o.Keyed skey) (hf : o.Fits t) :
    Increasing N (vs ++ o.versions N) ↔
      Increasing N vs ∧ ∀ k w, o = .insert k w → versionsOf key k vs = [] := by
  rw [increasing_append_iff hk hf]
  refine and_congr_right fun hinc => ?_
  cases o with
  | insert k w =>
    rw [List.map_append]
    have hone : (Outcome.insert k w : Outcome κ ν ω).versions N = [⟨.insert, F.fresh w⟩] := rfl
    rw [hone, List.map_cons, List.map_nil, N.revision_fresh, pairwise_concat_iff]
    constructor
    · intro hpair k' w' heq
      cases heq
      rw [← List.getLast?_eq_none_iff]
      cases hlast : (versionsOf key k vs).getLast? with
      | none => rfl
      | some v =>
        have hbelow := hpair.2 (N.revision v.row) (by
          show ((versionsOf key k vs).map _).getLast? = _
          rw [List.getLast?_map, hlast]
          rfl)
        have hpos := h.positive v (List.mem_filter.mp (List.mem_of_getLast? hlast)).1
        omega
    · intro hfree
      have hnil : versionsOf key (Outcome.insert k w : Outcome κ ν ω).target vs = [] := hfree k w rfl
      rw [hnil]
      exact ⟨List.Pairwise.nil, fun m hm => by cases hm⟩
  | update k old w =>
    rw [List.map_append]
    refine ⟨fun _ _ _ heq => (nomatch heq), fun _ => ?_⟩
    refine h.next hinc hf ?_
    show N.revision old < N.revision (F.revise old w)
    rw [N.revision_revise]
    exact Nat.lt_succ_self _
  | unchanged k old =>
    refine ⟨fun _ _ _ heq => (nomatch heq), fun _ => ?_⟩
    have hnone : (Outcome.unchanged k old : Outcome κ ν ω).versions N = [] := rfl
    rw [hnone, List.append_nil]
    exact hinc _
  | reverse k old =>
    rw [List.map_append]
    refine ⟨fun _ _ _ heq => (nomatch heq), fun _ => ?_⟩
    refine h.next hinc hf ?_
    show N.revision old < N.revision (N.retire old)
    rw [N.revision_retire]
    exact Nat.lt_succ_self _

/-! ## §3. All verdicts. -/

/-- The versions a diff appends. -/
def versionsOfAll (N : Numbering F) (os : List (Outcome κ ν ω)) : List (Version ν) :=
  os.flatMap fun o => o.versions N

/-- **All verdicts that fit**: table and ledger stay together, and the revisions keep increasing exactly when
    no key is inserted that has versions. -/
theorem increasing_applyAll {os : List (Outcome κ ν ω)} :
    ∀ {t t' : Table key} {vs : List (Version ν)}, Ledgered N t vs → (os.map Outcome.target).Nodup →
      (∀ o ∈ os, o.Keyed skey) → (∀ o ∈ os, o.Fits t) → applyAll F t os = some t' →
        Ledgered N t' (vs ++ versionsOfAll N os) ∧
          (Increasing N (vs ++ versionsOfAll N os) ↔
            Increasing N vs ∧ ∀ k w, Outcome.insert k w ∈ os → versionsOf key k vs = []) := by
  induction os with
  | nil =>
    intro t t' vs h _ _ _ happly
    cases happly
    have hnone : vs ++ versionsOfAll N ([] : List (Outcome κ ν ω)) = vs := List.append_nil vs
    rw [hnone]
    exact ⟨h, fun hinc => ⟨hinc, fun _ _ hmem => absurd hmem List.not_mem_nil⟩, fun hinc => hinc.1⟩
  | cons o os ih =>
    intro t t' vs h hn hkeyed hfits happly
    rw [List.map_cons, List.nodup_cons] at hn
    have hk := hkeyed o List.mem_cons_self
    have hf := hfits o List.mem_cons_self
    obtain ⟨t₁, h₁, hfind₁⟩ := Outcome.find_apply (F := F) hk hf
    have hne : ∀ o' ∈ os, o'.target ≠ o.target := by
      intro o' ho' he
      exact hn.1 (he ▸ List.mem_map.mpr ⟨o', ho', rfl⟩)
    have hfits₁ : ∀ o' ∈ os, o'.Fits t₁ := by
      intro o' ho'
      refine (hfits o' (List.mem_cons_of_mem _ ho')).of_find_eq ?_
      rw [hfind₁, if_neg (hne o' ho')]
    have hrest : applyAll F t₁ os = some t' := by
      have hbind : (o.apply F t).bind (fun t₁ => applyAll F t₁ os) = some t' := happly
      rwa [h₁] at hbind
    have hall : vs ++ versionsOfAll N (o :: os) = vs ++ o.versions N ++ versionsOfAll N os :=
      (List.append_assoc ..).symm
    obtain ⟨hledgered, hinc⟩ := ih (ledgered_apply h hk hf hfind₁) hn.2
      (fun o' ho' => hkeyed o' (List.mem_cons_of_mem _ ho')) hfits₁ hrest
    rw [hall]
    refine ⟨hledgered, ?_⟩
    rw [hinc, increasing_apply h hk hf, and_assoc]
    refine and_congr_right fun _ => ?_
    -- the first verdict gives the later keys no version
    have hlater : ∀ k w, Outcome.insert k w ∈ os → versionsOf key k (vs ++ o.versions N) = versionsOf key k vs := by
      intro k w hmem
      have hapart : k ≠ o.target := hne _ hmem
      rw [versionsOf_append, versionsOf_other hk hf hapart, List.append_nil]
    constructor
    · intro hfree k w hmem
      cases List.mem_cons.mp hmem with
      | inl heq => exact hfree.1 k w heq.symm
      | inr htail =>
        rw [← hlater k w htail]
        exact hfree.2 k w htail
    · intro hfree
      refine ⟨fun k w heq => hfree k w (heq ▸ List.mem_cons_self), fun k w hmem => ?_⟩
      rw [hlater k w hmem]
      exact hfree k w (List.mem_cons_of_mem _ hmem)

end RagPipeline.Lib
