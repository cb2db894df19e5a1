/-
  RagPipeline.Lib.Strip — text without what separates it.

  `stripBy p l` takes the elements with `p` off both ends of `l`.  What is left of a list when all
  elements with `p` are left out (`solid p l`) does not change when it is stripped, and stripping keeps
  what is inside: a stripped part of a list is a part of the stripped list.

  `isSpace` is what Python strips of a string.
-/
import Mathlib.Data.List.DropRight
import Mathlib.Data.List.Infix

namespace RagPipeline.Lib

/-- Python's white space, of `str.strip` and of `\s`. -/
def isSpace (c : Char) : Bool :=
  let n := c.toNat
  (9 ≤ n && n ≤ 13) || (28 ≤ n && n ≤ 32) || n == 0x85 || n == 0xA0 || n == 0x1680
    || (0x2000 ≤ n && n ≤ 0x200A) || n == 0x2028 || n == 0x2029 || n == 0x202F || n == 0x205F || n == 0x3000

variable {α : Type} {p : α → Bool}

/-- Without the elements with `p` at either end. -/
def stripBy (p : α → Bool) (l : List α) : List α := (l.dropWhile p).rdropWhile p

/-- Without the elements with `p`. -/
def solid (p : α → Bool) (l : List α) : List α := l.filter fun a => !p a

@[simp] theorem solid_nil : solid p ([] : List α) = [] := rfl

@[simp] theorem solid_append (l m : List α) : solid p (l ++ m) = solid p l ++ solid p m := List.filter_append ..

theorem solid_cons_pos {a : α} (h : p a = true) (l : List α) : solid p (a :: l) = solid p l := by
  simp [solid, h]

theorem solid_reverse (l : List α) : solid p l.reverse = (solid p l).reverse := List.filter_reverse ..

theorem solid_dropWhile (l : List α) : solid p (l.dropWhile p) = solid p l := by
  induction l with
  | nil => rfl
  | cons a l ih =>
    cases ha : p a with
    | true => rw [List.dropWhile_cons_of_pos ha, ih, solid_cons_pos ha]
    | false => rw [List.dropWhile_cons_of_neg (by simp [ha])]

/-- Stripping loses nothing but what it strips. -/
@[simp] theorem solid_stripBy (l : List α) : solid p (stripBy p l) = solid p l := by
  unfold stripBy List.rdropWhile
  rw [solid_reverse, solid_dropWhile, solid_reverse, List.reverse_reverse, solid_dropWhile]

theorem dropWhile_infix {m l : List α} (h : m <:+: l) : m.dropWhile p <:+: l.dropWhile p := by
  obtain ⟨a, b, rfl⟩ := h
  rw [List.append_assoc, List.dropWhile_append]
  split
  · rw [List.dropWhile_append]
    split
    · rename_i _ hm
      rw [List.isEmpty_iff.mp hm]
      exact List.nil_infix
    · exact (List.prefix_append _ _).isInfix
  · have hm : m.dropWhile p <:+: m ++ b :=
      (List.dropWhile_suffix p).isInfix.trans (List.prefix_append m b).isInfix
    exact hm.trans (List.suffix_append _ _).isInfix

/-- A stripped part is a part of the stripped list. -/
theorem stripBy_infix {m l : List α} (h : m <:+: l) : stripBy p m <:+: stripBy p l := by
  unfold stripBy List.rdropWhile
  rw [List.reverse_infix]
  refine dropWhile_infix ?_
  rw [List.reverse_infix]
  exact dropWhile_infix h

theorem stripBy_eq_nil_iff {l : List α} : stripBy p l = [] ↔ solid p l = [] := by
  constructor
  · intro h
    rw [← solid_stripBy, h]
    rfl
  · intro h
    have hall : ∀ a ∈ l, p a = true := by
      intro a ha
      have := List.filter_eq_nil_iff.mp h a ha
      simpa using this
    unfold stripBy
    rw [List.dropWhile_eq_nil_iff.mpr hall]
    rfl

end RagPipeline.Lib
