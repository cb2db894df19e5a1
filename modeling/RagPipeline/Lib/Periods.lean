/-
  RagPipeline.Lib.Periods — the history of a value as periods that tile time.

    * `Tile start`       — the periods follow one another from `start`, and the last has no end;
    * `Tile.existsUnique`— one period covers each instant from `start` on;
    * `Tile.succeed`     — closing the open period where a new one opens;
    * `Tile.revalue`     — another value for the open period;
    * `changes`          — the entries of a log that change the value.
-/
import Mathlib.Data.List.Sort

namespace RagPipeline.Lib

/-- One value, and the span it was true for; no end means it still is. -/
structure Period (τ ν : Type*) where
  value : ν
  validFrom : τ
  validTo : Option τ := none
  deriving DecidableEq, Repr

namespace Period

variable {τ ν : Type*} [LinearOrder τ]

/-- Whether the value was true at an instant. -/
def covers (p : Period τ ν) (t : τ) : Bool :=
  decide (p.validFrom ≤ t) && p.validTo.all fun stop => decide (t < stop)

/-- The periods follow one another from `start`, and the last has no end. -/
def Tile (start : τ) : List (Period τ ν) → Prop
  | [] => False
  | [p] => p.validFrom = start ∧ p.validTo = none
  | p :: q :: rest =>
    p.validFrom = start ∧ p.validTo = some q.validFrom ∧ start < q.validFrom ∧ Tile q.validFrom (q :: rest)

variable {start : τ}

@[simp] theorem covers_open (value : ν) (s t : τ) :
    ({ value := value, validFrom := s, validTo := none } : Period τ ν).covers t = decide (s ≤ t) := by
  simp [covers]

@[simp] theorem covers_closed (value : ν) (s e t : τ) :
    ({ value := value, validFrom := s, validTo := some e } : Period τ ν).covers t =
      (decide (s ≤ t) && decide (t < e)) := rfl

theorem Tile.singleton (value : ν) (start : τ) :
    Tile start [({ value := value, validFrom := start } : Period τ ν)] := ⟨rfl, rfl⟩

/-- Every period starts at `start` or later. -/
theorem Tile.start_le {l : List (Period τ ν)} (h : Tile start l) : ∀ p ∈ l, start ≤ p.validFrom := by
  induction l generalizing start with
  | nil => exact h.elim
  | cons p rest ih =>
    intro r hr
    cases rest with
    | nil =>
      obtain rfl := List.mem_singleton.mp hr
      exact h.1.ge
    | cons q rest =>
      cases List.mem_cons.mp hr with
      | inl heq => exact heq ▸ h.1.ge
      | inr hmem => exact h.2.2.1.le.trans (ih h.2.2.2 r hmem)

/-- The periods are in the order of their starts. -/
theorem Tile.sorted {l : List (Period τ ν)} (h : Tile start l) :
    l.Pairwise fun p q => p.validFrom < q.validFrom := by
  induction l generalizing start with
  | nil => exact List.Pairwise.nil
  | cons p rest ih =>
    cases rest with
    | nil => exact List.pairwise_singleton _ _
    | cons q rest =>
      obtain ⟨hstart, -, hlt, hrest⟩ := h
      refine List.pairwise_cons.mpr ⟨?_, ih hrest⟩
      intro r hr
      exact (hstart.trans_lt hlt).trans_le (hrest.start_le r hr)

/-- **One period covers each instant.** -/
theorem Tile.existsUnique {l : List (Period τ ν)} (h : Tile start l) {t : τ} (ht : start ≤ t) :
    ∃ p ∈ l, p.covers t = true ∧ ∀ q ∈ l, q.covers t = true → q = p := by
  induction l generalizing start with
  | nil => exact h.elim
  | cons p rest ih =>
    cases rest with
    | nil =>
      refine ⟨p, List.mem_singleton_self p, ?_, fun q hq _ => List.mem_singleton.mp hq⟩
      simp [covers, h.1, h.2, ht]
    | cons q rest =>
      obtain ⟨hstart, hstop, hlt, hrest⟩ := h
      by_cases hbefore : t < q.validFrom
      · -- the later periods have not started
        refine ⟨p, List.mem_cons_self, ?_, ?_⟩
        · simp [covers, hstart, hstop, ht, hbefore]
        · intro r hr hcovers
          cases List.mem_cons.mp hr with
          | inl heq => exact heq
          | inr hmem =>
            have hfrom : r.validFrom ≤ t := by
              have := (Bool.and_eq_true _ _ ▸ hcovers : _ ∧ _).1
              exact of_decide_eq_true this
            exact absurd ((hrest.start_le r hmem).trans hfrom) (not_le.mpr hbefore)
      · -- the first one has ended
        obtain ⟨r, hr, hcovers, hunique⟩ := ih hrest (not_lt.mp hbefore)
        refine ⟨r, List.mem_cons_of_mem _ hr, hcovers, ?_⟩
        intro r' hr' hcovers'
        cases List.mem_cons.mp hr' with
        | inl heq =>
          subst heq
          simp [covers, hstop, hbefore] at hcovers'
        | inr hmem => exact hunique r' hmem hcovers'

/-- **The last period is the open one, and no other.** -/
theorem Tile.open_iff {init : List (Period τ ν)} {last : Period τ ν} (h : Tile start (init ++ [last])) :
    ∀ p ∈ init ++ [last], p.validTo = none ↔ p = last := by
  induction init generalizing start with
  | nil =>
    intro p hp
    obtain rfl : p = last := List.mem_singleton.mp hp
    exact ⟨fun _ => rfl, fun _ => h.2⟩
  | cons q init ih =>
    -- there is a period after `q`
    obtain ⟨r, rest, hr⟩ : ∃ r rest, init ++ [last] = r :: rest := by
      cases init with
      | nil => exact ⟨last, [], rfl⟩
      | cons r init => exact ⟨r, init ++ [last], rfl⟩
    rw [List.cons_append, hr] at h ⊢
    obtain ⟨hstart, hstop, hlt, hrest⟩ := h
    rw [← hr] at hrest
    intro p hp
    cases List.mem_cons.mp hp with
    | inr hmem => exact ih hrest p (hr ▸ hmem)
    | inl heq =>
      subst heq
      constructor
      · intro hnone
        exact absurd (hstop.symm.trans hnone) (by simp)
      · intro hlast
        have hle := hrest.start_le last (by simp)
        exact absurd (hstart ▸ hlast ▸ hle : r.validFrom ≤ start) (not_le.mpr hlt)

/-- The open period takes another value. -/
theorem Tile.revalue {init : List (Period τ ν)} {last : Period τ ν} (h : Tile start (init ++ [last]))
    (value : ν) : Tile start (init ++ [{ last with value := value }]) := by
  induction init generalizing start with
  | nil => exact h
  | cons q init ih =>
    cases init with
    | nil => exact ⟨h.1, h.2.1, h.2.2.1, ih h.2.2.2⟩
    | cons r init => exact ⟨h.1, h.2.1, h.2.2.1, ih h.2.2.2⟩

/-- **A new period closes the open one.** -/
theorem Tile.succeed {init : List (Period τ ν)} {last : Period τ ν} (h : Tile start (init ++ [last]))
    {t : τ} (ht : last.validFrom < t) (value : ν) :
    Tile start (init ++ [{ last with validTo := some t }, { value := value, validFrom := t }]) := by
  induction init generalizing start with
  | nil => exact ⟨h.1, rfl, h.1 ▸ ht, rfl, rfl⟩
  | cons q init ih =>
    cases init with
    | nil => exact ⟨h.1, h.2.1, h.2.2.1, ih h.2.2.2⟩
    | cons r init => exact ⟨h.1, h.2.1, h.2.2.1, ih h.2.2.2⟩

/-- One period is open. -/
theorem Tile.countP_open {l : List (Period τ ν)} (h : Tile start l) :
    l.countP (fun p => decide (p.validTo = none)) = 1 := by
  induction l generalizing start with
  | nil => exact h.elim
  | cons p rest ih =>
    cases rest with
    | nil => simp [h.2]
    | cons q rest =>
      rw [List.countP_cons_of_neg (by simp [h.2.1])]
      exact ih h.2.2.2

theorem Tile.last_open {init : List (Period τ ν)} {last : Period τ ν} (h : Tile start (init ++ [last])) :
    last.validTo = none :=
  (h.open_iff last (by simp)).mpr rfl

/-- Looking for a period that covers an instant, in any order, finds the one there is. -/
theorem Tile.find {l l' : List (Period τ ν)} (h : Tile start l) (hp : l'.Perm l) {t : τ} (ht : start ≤ t) :
    ∃ p ∈ l, p.covers t = true ∧ (∀ q ∈ l, q.covers t = true → q = p) ∧
      l'.find? (fun q => q.covers t) = some p := by
  obtain ⟨p, hmem, hcovers, hunique⟩ := h.existsUnique ht
  refine ⟨p, hmem, hcovers, hunique, ?_⟩
  cases hfind : l'.find? (fun q => q.covers t) with
  | none =>
    have hno := List.find?_eq_none.mp hfind p (hp.mem_iff.mpr hmem)
    exact absurd hcovers hno
  | some q =>
    have hcovers' : q.covers t = true := by simpa using List.find?_some hfind
    have hq := hunique q (hp.mem_iff.mp (List.mem_of_find?_eq_some hfind)) hcovers'
    rw [hq]

end Period

/-! ## Changes. -/

section Changes

variable {τ ν α : Type*} [LinearOrder τ] [DecidableEq ν] (valueOf : α → ν) (timeOf : α → τ)

/-- Whether an entry says another value, later than the current one took hold. -/
def changesFrom (value : ν) (since : τ) (a : α) : Bool :=
  decide (valueOf a ≠ value ∧ since < timeOf a)

/-- The entries of a log that change the value, in order. -/
def changes (value : ν) (since : τ) : List α → List α
  | [] => []
  | a :: log =>
    if changesFrom valueOf timeOf value since a then a :: changes (valueOf a) (timeOf a) log
    else changes value since log

/-- After the first entry that changes the value, none changes it again. -/
def ChangesOnce (value : ν) (since : τ) (log : List α) : Prop :=
  ∀ early a late, log = early ++ a :: late → (∀ b ∈ early, changesFrom valueOf timeOf value since b = false) →
    changesFrom valueOf timeOf value since a = true →
    ∀ b ∈ late, changesFrom valueOf timeOf (valueOf a) (timeOf a) b = false

variable {value : ν} {since : τ}

theorem changes_eq_nil_iff (log : List α) :
    changes valueOf timeOf value since log = [] ↔
      ∀ a ∈ log, changesFrom valueOf timeOf value since a = false := by
  induction log with
  | nil => simp [changes]
  | cons a log ih =>
    show (if changesFrom valueOf timeOf value since a then _ else _) = [] ↔ _
    cases hchange : changesFrom valueOf timeOf value since a with
    | true => simp [hchange]
    | false => simp [hchange, ih]

/-- The value after a log, and when it took hold. -/
def current (value : ν) (since : τ) : List α → ν × τ
  | [] => (value, since)
  | a :: log =>
    if changesFrom valueOf timeOf value since a then current (valueOf a) (timeOf a) log
    else current value since log

theorem changes_append (value : ν) (since : τ) (xs ys : List α) :
    changes valueOf timeOf value since (xs ++ ys) = changes valueOf timeOf value since xs ++
      changes valueOf timeOf (current valueOf timeOf value since xs).1
        (current valueOf timeOf value since xs).2 ys := by
  induction xs generalizing value since with
  | nil => rfl
  | cons a xs ih =>
    cases hchange : changesFrom valueOf timeOf value since a with
    | false => simp [changes, current, hchange, ih value since]
    | true => simp [changes, current, hchange, ih (valueOf a) (timeOf a)]

theorem current_append (value : ν) (since : τ) (xs ys : List α) :
    current valueOf timeOf value since (xs ++ ys) =
      current valueOf timeOf (current valueOf timeOf value since xs).1
        (current valueOf timeOf value since xs).2 ys := by
  induction xs generalizing value since with
  | nil => rfl
  | cons a xs ih =>
    cases hchange : changesFrom valueOf timeOf value since a with
    | false => simp [current, hchange, ih value since]
    | true => simp [current, hchange, ih (valueOf a) (timeOf a)]

theorem current_of_quiet {log : List α} (h : changes valueOf timeOf value since log = []) :
    current valueOf timeOf value since log = (value, since) := by
  induction log with
  | nil => rfl
  | cons a log ih =>
    cases hchange : changesFrom valueOf timeOf value since a with
    | true => exact absurd h (by simp [changes, hchange])
    | false =>
      simp only [changes, current, hchange, Bool.false_eq_true, if_false] at h ⊢
      exact ih h

theorem current_of_change {log : List α} {c : α} (h : changes valueOf timeOf value since log = [c]) :
    current valueOf timeOf value since log = (valueOf c, timeOf c) := by
  induction log with
  | nil => exact absurd h (by simp [changes])
  | cons a log ih =>
    cases hchange : changesFrom valueOf timeOf value since a with
    | true =>
      simp only [changes, current, hchange, if_true, List.cons.injEq] at h ⊢
      obtain ⟨rfl, hquiet⟩ := h
      exact current_of_quiet valueOf timeOf hquiet
    | false =>
      simp only [changes, current, hchange, Bool.false_eq_true, if_false] at h ⊢
      exact ih h

/-- Each change is later than the one before it. -/
theorem changes_sorted (value : ν) (since : τ) (log : List α) :
    (∀ a ∈ changes valueOf timeOf value since log, since < timeOf a) ∧
      (changes valueOf timeOf value since log).Pairwise fun a b => timeOf a < timeOf b := by
  induction log generalizing value since with
  | nil => exact ⟨fun a ha => absurd ha List.not_mem_nil, List.Pairwise.nil⟩
  | cons a log ih =>
    cases hchange : changesFrom valueOf timeOf value since a with
    | false =>
      rw [show changes valueOf timeOf value since (a :: log) = changes valueOf timeOf value since log by
        simp [changes, hchange]]
      exact ih value since
    | true =>
      have hlate : since < timeOf a := (of_decide_eq_true hchange).2
      obtain ⟨hafter, hsorted⟩ := ih (valueOf a) (timeOf a)
      rw [show changes valueOf timeOf value since (a :: log) =
        a :: changes valueOf timeOf (valueOf a) (timeOf a) log by simp [changes, hchange]]
      refine ⟨?_, List.pairwise_cons.mpr ⟨hafter, hsorted⟩⟩
      intro b hb
      cases List.mem_cons.mp hb with
      | inl heq => exact heq ▸ hlate
      | inr hmem => exact hlate.trans (hafter b hmem)

/-- **At most one change**, said of the log itself. -/
theorem changes_length_le_one_iff (log : List α) :
    (changes valueOf timeOf value since log).length ≤ 1 ↔ ChangesOnce valueOf timeOf value since log := by
  induction log with
  | nil =>
    constructor
    · intro _ early a late hlog
      exact absurd hlog (by simp)
    · intro _
      exact Nat.zero_le _
  | cons a log ih =>
    cases hchange : changesFrom valueOf timeOf value since a with
    | true =>
      -- `a` is the first change: the others would come after it
      have hlen : (changes valueOf timeOf value since (a :: log)).length ≤ 1 ↔
          ∀ b ∈ log, changesFrom valueOf timeOf (valueOf a) (timeOf a) b = false := by
        rw [← changes_eq_nil_iff, ← List.length_eq_zero_iff]
        simp [changes, hchange]
      rw [hlen]
      constructor
      · intro hquiet early b late hlog hearly _
        cases early with
        | nil =>
          obtain ⟨rfl, rfl⟩ := List.cons.inj hlog
          exact hquiet
        | cons c early =>
          obtain ⟨rfl, -⟩ := List.cons.inj hlog
          exact absurd (hearly a List.mem_cons_self) (by simp [hchange])
      · intro honce
        exact honce [] a log rfl (by simp) hchange
    | false =>
      have hlen : changes valueOf timeOf value since (a :: log) = changes valueOf timeOf value since log := by
        simp [changes, hchange]
      rw [hlen, ih]
      constructor
      · intro honce early b late hlog hearly hb
        cases early with
        | nil =>
          obtain ⟨rfl, -⟩ := List.cons.inj hlog
          exact absurd hb (by simp [hchange])
        | cons c early =>
          obtain ⟨rfl, htail⟩ := List.cons.inj hlog
          exact honce early b late htail (fun x hx => hearly x (List.mem_cons_of_mem _ hx)) hb
      · intro honce early b late hlog hearly hb
        refine honce (a :: early) b late (by rw [hlog]; rfl) ?_ hb
        intro x hx
        cases List.mem_cons.mp hx with
        | inl heq => exact heq ▸ hchange
        | inr hmem => exact hearly x hmem

end Changes

end RagPipeline.Lib
