/-
  RagPipeline.Lib.Ownership — a table in which every item has at most one owner.

  `Owners ε τ` gives an item its owner and its place among the owner's items, or nothing.  Two
  operations act on it:

    * `release p`    — every item of an owner that satisfies `p` goes free;
    * `claim t es`   — the items `es` go to `t`, in this order, whoever had them.

  A `Write` is the pair of them that a writer performs for one owner: `release` its items (unless the
  owner is `fresh`), then `claim` the new ones.  What a sequence of writes leaves is decided item by
  item: the LAST write that claims it (`writeAll_last`), else what the releases leave
  (`writeAll_unclaimed`).
-/
import Mathlib.Data.List.Basic
import Mathlib.Data.List.Nodup

namespace RagPipeline.Lib

/-- The owner of each item, and the item's place among the items of its owner. -/
abbrev Owners (ε τ : Type*) := ε → Option (τ × Nat)

/-- One owner's items, rewritten. -/
structure Write (ε τ : Type*) where
  owner : τ
  items : List ε
  fresh : Bool

namespace Owners

variable {ε τ : Type*}

/-! ## §1. The operations. -/

/-- Who owns the item. -/
def owner (o : Owners ε τ) (e : ε) : Option τ := (o e).map Prod.fst

/-- Every item whose owner satisfies `p` goes free. -/
def release (o : Owners ε τ) (p : τ → Bool) : Owners ε τ :=
  fun e => (o e).filter fun a => !p a.1

/-- The items go to `t`, in this order. -/
def claim [DecidableEq ε] (o : Owners ε τ) (t : τ) (es : List ε) : Owners ε τ :=
  fun e => if e ∈ es then some (t, es.idxOf e) else o e

theorem owner_eq_some {o : Owners ε τ} {e : ε} {t : τ} :
    o.owner e = some t ↔ ∃ n, o e = some (t, n) := by
  simp [owner]

theorem owner_eq_none {o : Owners ε τ} {e : ε} : o.owner e = none ↔ o e = none := by
  simp [owner]

/-! ## §2. One operation, item by item. -/

theorem release_eq_some {o : Owners ε τ} {p : τ → Bool} {e : ε} {a : τ × Nat} :
    o.release p e = some a ↔ o e = some a ∧ p a.1 = false := by
  simp [release, Option.filter_eq_some_iff]

theorem release_of_not {o : Owners ε τ} {p : τ → Bool} {e : ε}
    (h : ∀ t, o.owner e = some t → p t = false) : o.release p e = o e := by
  cases ho : o e with
  | none => simp [release, ho]
  | some a => exact release_eq_some.mpr ⟨ho, h a.1 (by simp [owner, ho])⟩

theorem release_of {o : Owners ε τ} {p : τ → Bool} {e : ε} {t : τ} (ho : o.owner e = some t)
    (h : p t = true) : o.release p e = none := by
  obtain ⟨n, hn⟩ := owner_eq_some.mp ho
  simp [release, hn, h]

theorem release_release (o : Owners ε τ) (p q : τ → Bool) :
    (o.release p).release q = o.release fun t => p t || q t := by
  funext e
  cases o e <;> simp [release, Option.filter_filter, Bool.not_or]

theorem release_congr {o : Owners ε τ} {p q : τ → Bool} (h : ∀ t, p t = q t) :
    o.release p = o.release q := by
  rw [funext h]

theorem claim_of_mem [DecidableEq ε] {o : Owners ε τ} {t : τ} {es : List ε} {e : ε} (h : e ∈ es) :
    o.claim t es e = some (t, es.idxOf e) := if_pos h

theorem claim_of_not_mem [DecidableEq ε] {o : Owners ε τ} {t : τ} {es : List ε} {e : ε} (h : e ∉ es) :
    o.claim t es e = o e := if_neg h

/-! ## §3. Writes. -/

variable [DecidableEq ε] [DecidableEq τ]

/-- One write: the owner's items go free unless the owner is fresh, then the new ones are claimed. -/
def write (o : Owners ε τ) (w : Write ε τ) : Owners ε τ :=
  (if w.fresh then o else o.release fun t => decide (t = w.owner)).claim w.owner w.items

/-- One write after the other. -/
def writeAll (o : Owners ε τ) (ws : List (Write ε τ)) : Owners ε τ := ws.foldl write o

@[simp] theorem writeAll_nil (o : Owners ε τ) : o.writeAll [] = o := rfl

@[simp] theorem writeAll_cons (o : Owners ε τ) (w : Write ε τ) (ws : List (Write ε τ)) :
    o.writeAll (w :: ws) = (o.write w).writeAll ws := rfl

/-- The owners whose items a sequence of writes lets go. -/
def releasedBy (ws : List (Write ε τ)) (t : τ) : Bool :=
  ws.any fun w => !w.fresh && decide (w.owner = t)

omit [DecidableEq ε] in
theorem releasedBy_eq_true {ws : List (Write ε τ)} {t : τ} :
    releasedBy ws t = true ↔ ∃ w ∈ ws, w.fresh = false ∧ w.owner = t := by
  simp [releasedBy]

theorem write_unclaimed {o : Owners ε τ} {w : Write ε τ} {e : ε} (h : e ∉ w.items) :
    o.write w e = o.release (releasedBy [w]) e := by
  rw [write, claim_of_not_mem h]
  cases hf : w.fresh with
  | true =>
    have hkeep : o.release (releasedBy [w]) e = o e :=
      release_of_not fun t _ => by simp [releasedBy, hf]
    simp [hkeep]
  | false =>
    have hp : ∀ t, decide (t = w.owner) = releasedBy [w] t := by
      intro t
      simp [releasedBy, hf, eq_comm]
    simpa using congrFun (release_congr hp) e

/-- An item no write claims keeps its owner unless a write releases that owner. -/
theorem writeAll_unclaimed (ws : List (Write ε τ)) {o : Owners ε τ} {e : ε}
    (h : ∀ w ∈ ws, e ∉ w.items) : o.writeAll ws e = o.release (releasedBy ws) e := by
  induction ws generalizing o with
  | nil => exact (release_of_not fun _ _ => rfl).symm
  | cons w ws ih =>
    have hw : e ∉ w.items := h w (by simp)
    have htail : (o.write w).writeAll ws e = (o.write w).release (releasedBy ws) e :=
      ih fun w' hw' => h w' (by simp [hw'])
    have hstep : (o.write w).release (releasedBy ws) e =
        (o.release (releasedBy [w])).release (releasedBy ws) e := by
      simp only [release, write_unclaimed hw]
    rw [writeAll_cons, htail, hstep, release_release]
    exact congrFun (release_congr fun t => by simp [releasedBy]) e

/-- An item belongs to the last write that claims it, when no later write is for the same owner. -/
theorem writeAll_last {pre post : List (Write ε τ)} {w : Write ε τ} {o : Owners ε τ} {e : ε}
    (hw : e ∈ w.items) (hpost : ∀ w' ∈ post, e ∉ w'.items)
    (howner : ∀ w' ∈ post, w'.owner ≠ w.owner) :
    o.writeAll (pre ++ w :: post) e = some (w.owner, w.items.idxOf e) := by
  have hclaim : ((o.writeAll pre).write w) e = some (w.owner, w.items.idxOf e) := claim_of_mem hw
  rw [writeAll, List.foldl_append, List.foldl_cons]
  show ((o.writeAll pre).write w).writeAll post e = _
  rw [writeAll_unclaimed post hpost]
  apply release_eq_some.mpr
  refine ⟨hclaim, ?_⟩
  rw [Bool.eq_false_iff, Ne, releasedBy_eq_true]
  rintro ⟨w', hw', -, heq⟩
  exact howner w' hw' heq

omit [DecidableEq ε] [DecidableEq τ] in
theorem owner_ne_of_nodup {pre post : List (Write ε τ)} {w : Write ε τ}
    (h : ((pre ++ w :: post).map Write.owner).Nodup) : ∀ w' ∈ post, w'.owner ≠ w.owner := by
  rw [List.map_append, List.map_cons] at h
  have hnot : w.owner ∉ post.map Write.owner := (List.nodup_cons.mp h.of_append_right).1
  intro w' hw' heq
  exact hnot (heq ▸ List.mem_map_of_mem hw')

/-- Among fresh writes an item stays with the one owner that has it or claims it. -/
theorem owner_writeAll_fresh {ws : List (Write ε τ)} {o : Owners ε τ} {e : ε} {t : τ}
    (hfresh : ∀ w ∈ ws, w.fresh = true) (hone : ∀ w ∈ ws, e ∈ w.items → w.owner = t)
    (h : o.owner e = some t ∨ ∃ w ∈ ws, e ∈ w.items) : (o.writeAll ws).owner e = some t := by
  induction ws generalizing o with
  | nil =>
    cases h with
    | inl hown => exact hown
    | inr hex =>
      obtain ⟨w, hw, -⟩ := hex
      exact absurd hw List.not_mem_nil
  | cons w ws ih =>
    have hwrite : o.write w = o.claim w.owner w.items := by
      unfold write
      rw [hfresh w List.mem_cons_self]
      rfl
    rw [writeAll_cons, hwrite]
    refine ih (fun w' hw' => hfresh w' (List.mem_cons_of_mem _ hw'))
      (fun w' hw' => hone w' (List.mem_cons_of_mem _ hw')) ?_
    by_cases hmem : e ∈ w.items
    · refine .inl ?_
      unfold owner
      rw [claim_of_mem hmem, ← hone w List.mem_cons_self hmem]
      rfl
    · cases h with
      | inl hown =>
        refine .inl ?_
        unfold owner
        rw [claim_of_not_mem hmem]
        exact hown
      | inr hex =>
        obtain ⟨w', hw', hin⟩ := hex
        cases List.mem_cons.mp hw' with
        | inl heq => exact absurd (heq ▸ hin) hmem
        | inr hrest => exact .inr ⟨w', hrest, hin⟩

/-- Writes that let nothing go leave an item of another owner. -/
theorem writeAll_other {o : Owners ε τ} {i : ε} {t : τ} {n : ℕ} (ws : List (Write ε τ))
    (hfresh : ∀ x ∈ ws, x.fresh = true) (hother : ∀ x ∈ ws, x.owner ≠ t)
    (hfree : ∀ x ∈ ws, i ∈ x.items → o.owner i ≠ some t) :
    o.writeAll ws i = some (t, n) ↔ o i = some (t, n) := by
  induction ws generalizing o with
  | nil => exact Iff.rfl
  | cons x ws ih =>
    have hx := List.mem_cons_self (a := x) (l := ws)
    have hwrite : o.write x = o.claim x.owner x.items := by
      unfold write
      rw [if_pos (hfresh x hx)]
    rw [writeAll_cons, hwrite]
    by_cases hmem : i ∈ x.items
    · -- this write gives the item to another owner, and it was not of this one before either
      have hnot : (o.claim x.owner x.items).owner i ≠ some t := by
        unfold owner
        rw [claim_of_mem hmem]
        exact fun heq => hother x hx (Option.some.inj heq)
      rw [ih (fun y hy => hfresh y (List.mem_cons_of_mem _ hy)) (fun y hy => hother y (List.mem_cons_of_mem _ hy))
        fun _ _ _ => hnot]
      constructor
      · intro hnew
        exact absurd (owner_eq_some.mpr ⟨n, hnew⟩) hnot
      · intro hold
        exact absurd (owner_eq_some.mpr ⟨n, hold⟩) (hfree x hx hmem)
    · have hsame : (o.claim x.owner x.items) i = o i := claim_of_not_mem hmem
      rw [ih (fun y hy => hfresh y (List.mem_cons_of_mem _ hy)) (fun y hy => hother y (List.mem_cons_of_mem _ hy))
        fun y hy hin => ?_, hsame]
      unfold owner
      rw [hsame]
      exact hfree y (List.mem_cons_of_mem _ hy) hin

end Owners

end RagPipeline.Lib
