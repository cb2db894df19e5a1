/-
  RagPipeline.Lib.History — a ledger whose versions carry the instant they were written at.

  A ledger that is written by one writer after the other is a history: the instants never go back, and two
  versions of one key have different ones.  What the ledger said at an instant is then the replay of what was
  written until then, and the newest version of a key is what the key holds.

    * `replay_of_newest`  — the newest version of a key is what the replay leaves of it;
    * `newest`            — the version a query takes for a group of rows: the greatest instant, and the
                            greatest revision among those;
    * `newest_held`       — it is what the key holds, where the group is one key.
-/
import RagPipeline.Lib.Ledger
import Mathlib.Data.List.MinMax
import Mathlib.Data.Prod.Lex

namespace RagPipeline.Lib

variable {κ ν τ γ : Type*} [DecidableEq κ] [LinearOrder τ] {key : ν → κ}

/-! ## §1. Histories. -/

/-- Versions with their instants, oldest first. -/
abbrev History (τ ν : Type*) := List (τ × Version ν)

/-- The instants never go back, and a key gets one version at an instant. -/
def History.Ordered (key : ν → κ) (h : History τ ν) : Prop :=
  h.Pairwise fun v v' => v.1 ≤ v'.1 ∧ (key v.2.row = key v'.2.row → v.1 < v'.1)

/-- What was written until an instant. -/
def History.upTo (pin : τ) (h : History τ ν) : History τ ν := h.filter fun v => decide (v.1 ≤ pin)

omit [DecidableEq κ] in
theorem History.Ordered.upTo {h : History τ ν} (hh : h.Ordered key) (pin : τ) : (h.upTo pin).Ordered key :=
  hh.filter _

/-- What is written later is not seen. -/
theorem History.upTo_append_later {h later : History τ ν} {pin : τ} (hlater : ∀ v ∈ later, pin < v.1) :
    History.upTo pin (h ++ later) = h.upTo pin := by
  have hnone : later.filter (fun v => decide (v.1 ≤ pin)) = [] :=
    List.filter_eq_nil_iff.mpr fun v hv => by simpa using hlater v hv
  unfold History.upTo
  rw [List.filter_append, hnone, List.append_nil]

theorem History.upTo_of_all {h : History τ ν} {pin : τ} (hall : ∀ v ∈ h, v.1 ≤ pin) : h.upTo pin = h :=
  List.filter_eq_self.mpr fun v hv => decide_eq_true (hall v hv)

omit [DecidableEq κ] in
/-- Versions written at one later instant, one for each key, go on with a history. -/
theorem History.Ordered.append {h : History τ ν} {now : τ} {vs : List (Version ν)} (hh : h.Ordered key)
    (hlast : ∀ v ∈ h, v.1 < now) (hvs : (vs.map fun v => key v.row).Nodup) :
    History.Ordered key (h ++ vs.map fun v => (now, v)) := by
  refine List.pairwise_append.mpr ⟨hh, List.pairwise_map.mpr ?_, ?_⟩
  · refine (List.pairwise_map.mp hvs).imp fun hne => ⟨le_rfl, fun heq => absurd heq hne⟩
  · intro v hv v' hv'
    obtain ⟨w, -, rfl⟩ := List.mem_map.mp hv'
    exact ⟨(hlast v hv).le, fun _ => hlast v hv⟩

/-! ## §2. What a key holds. -/

/-- Versions of other keys leave a key as it is. -/
theorem replayStep_other {vs : List (Version ν)} {k : κ} (hvs : ∀ v ∈ vs, key v.row ≠ k) (held : κ → Option ν) :
    vs.foldl (replayStep key) held k = held k := by
  induction vs generalizing held with
  | nil => rfl
  | cons v vs ih =>
    rw [List.foldl_cons, ih fun v' hv' => hvs v' (List.mem_cons_of_mem _ hv')]
    unfold replayStep
    rw [if_neg (hvs v List.mem_cons_self)]

/-- A key without versions holds nothing. -/
theorem replay_of_unseen {vs : List (Version ν)} {k : κ} (hvs : ∀ v ∈ vs, key v.row ≠ k) : replay key vs k = none :=
  replayStep_other hvs _

/-- **The newest version of a key is what the key holds.** -/
theorem replay_of_newest {h : History τ ν} (hh : h.Ordered key) {v : τ × Version ν} (hv : v ∈ h)
    (hnewest : ∀ v' ∈ h, key v'.2.row = key v.2.row → v'.1 ≤ v.1) :
    replay key (h.map Prod.snd) (key v.2.row) = v.2.held := by
  obtain ⟨before, after, rfl⟩ := List.append_of_mem hv
  -- no version of the key follows it
  have hafter : ∀ w ∈ after.map Prod.snd, key w.row ≠ key v.2.row := by
    intro w hw heq
    obtain ⟨v', hv', rfl⟩ := List.mem_map.mp hw
    have hlt := ((List.pairwise_cons.mp (List.pairwise_append.mp hh).2.1).1 v' hv').2 heq.symm
    exact absurd (hnewest v' (by simp [hv']) heq) (not_le.mpr hlt)
  unfold replay
  rw [List.map_append, List.map_cons, List.foldl_append, List.foldl_cons, replayStep_other hafter]
  exact if_pos rfl

section Versions

variable {ω : Type*} {skey : ω → κ} {F : Folding key skey} {N : Numbering F} {t : Table key}

/-- The versions of verdicts on different keys have different keys. -/
theorem nodup_versionsOfAll {os : List (Outcome κ ν ω)} (hn : (os.map Outcome.target).Nodup)
    (hk : ∀ o ∈ os, o.Keyed skey) (hf : ∀ o ∈ os, o.Fits t) :
    ((versionsOfAll N os).map fun v => key v.row).Nodup := by
  induction os with
  | nil => exact List.nodup_nil
  | cons o os ih =>
    rw [List.map_cons, List.nodup_cons] at hn
    have hall : versionsOfAll N (o :: os) = o.versions N ++ versionsOfAll N os := List.flatMap_cons
    rw [hall, List.map_append]
    have hrest := ih hn.2 (fun o' ho' => hk o' (List.mem_cons_of_mem _ ho'))
      fun o' ho' => hf o' (List.mem_cons_of_mem _ ho')
    have hone : ((o.versions N).map fun v => key v.row).Nodup := by
      cases o <;> simp [Outcome.versions]
    refine List.nodup_append.mpr ⟨hone, hrest, ?_⟩
    intro k hmem k' hmem' heq
    obtain ⟨v, hv, rfl⟩ := List.mem_map.mp hmem
    obtain ⟨v', hv', rfl⟩ := List.mem_map.mp hmem'
    obtain ⟨o', ho', hv''⟩ := List.mem_flatMap.mp hv'
    rw [key_versions (hk o List.mem_cons_self) (hf o List.mem_cons_self) hv,
      key_versions (hk o' (List.mem_cons_of_mem _ ho')) (hf o' (List.mem_cons_of_mem _ ho')) hv''] at heq
    exact hn.1 (heq ▸ List.mem_map_of_mem ho')

end Versions

/-! ## §3. The version a query takes. -/

variable [DecidableEq γ]

/-- The versions of a group. -/
def History.ofGroup (group : ν → γ) (c : γ) (h : History τ ν) : History τ ν :=
  h.filter fun v => decide (group v.2.row = c)

/-- Of the versions of a group the one with the greatest instant, and with the greatest revision among those. -/
def newest (group : ν → γ) (revision : ν → ℕ) (c : γ) (h : History τ ν) : Option (τ × Version ν) :=
  (h.ofGroup group c).argmax fun v => toLex (v.1, revision v.2.row)

variable {group : ν → γ} {revision : ν → ℕ} {c : γ} {h : History τ ν} {v : τ × Version ν}

omit [LinearOrder τ] in
theorem mem_ofGroup : v ∈ h.ofGroup group c ↔ v ∈ h ∧ group v.2.row = c := by
  unfold History.ofGroup
  rw [List.mem_filter, decide_eq_true_eq]

theorem newest_eq_some (hv : newest group revision c h = some v) :
    v ∈ h ∧ group v.2.row = c ∧
      ∀ v' ∈ h, group v'.2.row = c → v'.1 < v.1 ∨ v'.1 = v.1 ∧ revision v'.2.row ≤ revision v.2.row := by
  obtain ⟨hmem, hgroup⟩ := mem_ofGroup.mp (List.argmax_mem hv)
  refine ⟨hmem, hgroup, fun v' hv' hc => ?_⟩
  have hle := List.le_of_mem_argmax (mem_ofGroup.mpr ⟨hv', hc⟩) hv
  exact Prod.Lex.le_iff.mp hle

theorem newest_eq_none : newest group revision c h = none ↔ ∀ v ∈ h, group v.2.row ≠ c := by
  unfold newest
  rw [List.argmax_eq_none, List.eq_nil_iff_forall_not_mem]
  simp only [mem_ofGroup, not_and, ne_eq]

/-- **Where the group is one key, the version is what the key holds.** -/
theorem newest_held (hh : h.Ordered key) {k : κ} (hkey : ∀ v ∈ h, group v.2.row = c ↔ key v.2.row = k) :
    (newest group revision c h).bind (fun v => v.2.held) = replay key (h.map Prod.snd) k := by
  cases hn : newest group revision c h with
  | none =>
    have hunseen := newest_eq_none.mp hn
    refine (replay_of_unseen fun w hw heq => ?_).symm
    obtain ⟨v, hv, rfl⟩ := List.mem_map.mp hw
    exact hunseen v hv ((hkey v hv).mpr heq)
  | some v =>
    obtain ⟨hv, hgroup, hmax⟩ := newest_eq_some hn
    obtain rfl := (hkey v hv).mp hgroup
    refine (replay_of_newest hh hv fun v' hv' heq => ?_).symm
    obtain hlt | ⟨heq', -⟩ := hmax v' hv' ((hkey v' hv').mpr heq)
    · exact hlt.le
    · exact heq'.le

end RagPipeline.Lib
