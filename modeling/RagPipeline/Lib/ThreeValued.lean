/-
  RagPipeline.Lib.ThreeValued — conditions over columns that may be null.

  A comparison with a null is neither true nor false, and a condition selects a row only if it is true.

    * `selects_and`, `selects_or`  — the connectives select as one would think;
    * `selects_compare`            — a comparison selects only where both sides are there.
-/
import Mathlib.Data.Option.Basic

namespace RagPipeline.Lib

/-- True, false, or neither. -/
abbrev Truth := Option Bool

namespace Truth

variable {α : Type*}

/-- Only a true condition selects. -/
def selects (a : Truth) : Bool := a == some true

def and : Truth → Truth → Truth
  | some false, _ | _, some false => some false
  | some true, some true => some true
  | _, _ => none

def or : Truth → Truth → Truth
  | some true, _ | _, some true => some true
  | some false, some false => some false
  | _, _ => none

/-- A comparison; nothing is said of a null. -/
def compare (r : α → α → Bool) : Option α → Option α → Truth
  | some a, some b => some (r a b)
  | _, _ => none

/-- `IS NOT NULL` -/
def isNotNull (a : Option α) : Truth := some a.isSome

/-- `IS NULL` -/
def isNull (a : Option α) : Truth := some a.isNone

/-- `IS DISTINCT FROM`: a null is distinct from every value, and not from a null. -/
def isDistinctFrom [DecidableEq α] (a b : Option α) : Truth := some (decide (a ≠ b))

@[simp] theorem selects_some (b : Bool) : selects (some b) = b := by cases b <;> rfl

@[simp] theorem selects_and (a b : Truth) : selects (and a b) = (selects a && selects b) := by
  rcases a with _ | _ | _ <;> rcases b with _ | _ | _ <;> rfl

@[simp] theorem selects_or (a b : Truth) : selects (or a b) = (selects a || selects b) := by
  rcases a with _ | _ | _ <;> rcases b with _ | _ | _ <;> rfl

@[simp] theorem selects_isNotNull (a : Option α) : selects (isNotNull a) = a.isSome := selects_some _

@[simp] theorem selects_isNull (a : Option α) : selects (isNull a) = a.isNone := selects_some _

@[simp] theorem selects_isDistinctFrom [DecidableEq α] (a b : Option α) :
    selects (isDistinctFrom a b) = decide (a ≠ b) := selects_some _

theorem selects_compare {r : α → α → Bool} {a b : Option α} :
    selects (compare r a b) = true ↔ ∃ x ∈ a, ∃ y ∈ b, r x y = true := by
  cases a with
  | none => simp [compare, selects]
  | some x =>
    cases b with
    | none => simp [compare, selects]
    | some y => simp [compare]

end Truth

end RagPipeline.Lib
