/-
  RagPipeline.Chunking.SplitLimit — how long the pieces of `_smart_split` are.

  The split is at blank lines and, in a paragraph over the limit, behind sentences.  A sentence is never
  cut, so the limit holds of every piece but these: a sentence that alone is over the limit is a piece.

    * `smartSplit_fits`  — a piece over the limit is such a sentence;
    * `smartSplit_whole` — a sentence that is over the limit without its white space is a piece;
    * `smartSplit_limit` — together, and that nothing is lost.
-/
import RagPipeline.Chunking.TextKept

namespace RagPipeline.Chunking

open RagPipeline.Lib

/-- A sentence over the limit, of one of the paragraphs over the limit. -/
def LongSentence (maxChars : Nat) (paras : List Text) (s : Text) : Prop :=
  maxChars < s.length ∧ ∃ p ∈ paras, maxChars < p.length ∧ s ∈ splitSents false false [] p

/-- The piece keeps to the limit, or is one such sentence. -/
def Fits (maxChars : Nat) (paras : List Text) (piece : Text) : Prop :=
  piece.length ≤ maxChars ∨ LongSentence maxChars paras piece

/-! ## §1. What is over the limit. -/

section Fits

variable {maxChars : Nat} {paras : List Text} {ps : Pieces}

/-- All pieces fit, and so does the one that grows. -/
structure Pieces.Fit (maxChars : Nat) (paras : List Text) (ps : Pieces) : Prop where
  pieces : ∀ piece ∈ ps.pieces, Fits maxChars paras piece
  cur : Fits maxChars paras ps.cur

theorem Pieces.Fit.flush (h : ps.Fit maxChars paras) : ∀ piece ∈ ps.flush, Fits maxChars paras piece := by
  intro piece hpiece
  unfold Pieces.flush at hpiece
  split at hpiece
  · exact h.pieces piece hpiece
  · rcases List.mem_append.mp hpiece with hpiece | hpiece
    · exact h.pieces piece hpiece
    · rw [List.mem_singleton.mp hpiece]
      exact h.cur

theorem Pieces.Fit.sentStep (h : ps.Fit maxChars paras) {p s : Text} (hp : p ∈ paras) (hlong : maxChars < p.length)
    (hs : s ∈ splitSents false false [] p) : (sentStep maxChars ps s).Fit maxChars paras := by
  unfold Chunking.sentStep
  simp only
  generalize (if ps.cur.isEmpty then s else strip (ps.cur ++ [' '] ++ s)) = c2
  split
  · next hle => exact ⟨h.pieces, .inl hle⟩
  · refine ⟨h.flush, ?_⟩
    rcases Nat.lt_or_ge maxChars s.length with hlt | hge
    · exact .inr ⟨hlt, p, hp, hlong, hs⟩
    · exact .inl hge

theorem Pieces.Fit.allSents (h : ps.Fit maxChars paras) {p : Text} (hp : p ∈ paras) (hlong : maxChars < p.length)
    (sents : List Text) (hsents : ∀ s ∈ sents, s ∈ splitSents false false [] p) :
    (sents.foldl (Chunking.sentStep maxChars) ps).Fit maxChars paras := by
  induction sents generalizing ps with
  | nil => exact h
  | cons s sents ih =>
    exact ih (h.sentStep hp hlong (hsents s List.mem_cons_self)) fun t ht => hsents t (List.mem_cons_of_mem s ht)

theorem Pieces.Fit.paraStep (h : ps.Fit maxChars paras) {p : Text} (hp : p ∈ paras) :
    (paraStep maxChars ps p).Fit maxChars paras := by
  unfold Chunking.paraStep
  simp only
  generalize (if ps.cur.isEmpty then p else strip (ps.cur ++ ['\n', '\n'] ++ p)) = cand
  split
  · next hle => exact ⟨h.pieces, .inl hle⟩
  · split
    · next hlong =>
      have hflushed : Pieces.Fit maxChars paras ⟨ps.flush, []⟩ := ⟨h.flush, .inl (Nat.zero_le _)⟩
      exact hflushed.allSents hp hlong _ fun s hs => hs
    · next hshort => exact ⟨h.flush, .inl (Nat.le_of_not_lt hshort)⟩

theorem Pieces.Fit.allParas (h : ps.Fit maxChars paras) (rest : List Text) (hrest : ∀ p ∈ rest, p ∈ paras) :
    (rest.foldl (Chunking.paraStep maxChars) ps).Fit maxChars paras := by
  induction rest generalizing ps with
  | nil => exact h
  | cons p rest ih => exact ih (h.paraStep (hrest p List.mem_cons_self)) fun q hq => hrest q (List.mem_cons_of_mem p hq)

/-- **A piece over the limit is one sentence as it stands.** -/
theorem smartSplit_fits (maxChars : Nat) (text : Text) :
    ∀ piece ∈ smartSplit maxChars text, Fits maxChars (splitParas false [] text) piece := by
  have hempty : Pieces.Fit maxChars (splitParas false [] text) {} := ⟨nofun, .inl (Nat.zero_le _)⟩
  exact (hempty.allParas _ fun p hp => hp).flush

end Fits

/-! ## §2. What no step cuts. -/

section Whole

variable {maxChars : Nat} {ps : Pieces} {s : Text}

/-- The sentence is a piece, or about to be one. -/
def Pieces.Holds (ps : Pieces) (s : Text) : Prop := s ∈ ps.pieces ∨ ps.cur = s

theorem Pieces.mem_flush {piece : Text} (h : piece ∈ ps.pieces) : piece ∈ ps.flush := by
  unfold Pieces.flush
  split
  · exact h
  · exact List.mem_append_left _ h

/-- A sentence over the limit is not empty. -/
theorem isEmpty_of_over (h : maxChars < (strip s).length) : s.isEmpty = false := by
  cases s with
  | nil => exact absurd h (Nat.not_lt_zero _)
  | cons c s => rfl

theorem Pieces.Holds.flush (hs : maxChars < (strip s).length) (h : ps.Holds s) : s ∈ ps.flush := by
  rcases h with h | h
  · exact Pieces.mem_flush h
  · unfold Pieces.flush
    rw [h, isEmpty_of_over hs]
    exact List.mem_append_right _ List.mem_cons_self

/-- What has the sentence in it is over the limit, even when it is stripped. -/
theorem over_of_part {t : Text} (hs : maxChars < (strip s).length) (h : s <:+: t) : maxChars < (strip t).length := by
  have hpart : strip s <:+: strip t := stripBy_infix h
  exact Nat.lt_of_lt_of_le hs hpart.length_le

theorem length_strip_le (t : Text) : (strip t).length ≤ t.length :=
  ((List.rdropWhile_prefix _ _).isInfix.trans (List.dropWhile_suffix _).isInfix).length_le

/-- What `cur` grows to is over the limit when `cur` or what comes to it has the sentence in it. -/
theorem grown_over (hs : maxChars < (strip s).length) {cur sep t : Text} (h : s <:+: cur ∨ s <:+: t) :
    maxChars < (if cur.isEmpty then t else strip (cur ++ sep ++ t)).length := by
  split
  · next hcur =>
    rw [List.isEmpty_iff.mp hcur] at h
    rcases h with h | h
    · rw [List.eq_nil_of_infix_nil h] at hs
      exact absurd hs (Nat.not_lt_zero _)
    · exact Nat.lt_of_lt_of_le (over_of_part hs h) (length_strip_le t)
  · rcases h with h | h
    · exact over_of_part hs (h.trans ⟨[], sep ++ t, by simp⟩)
    · exact over_of_part hs (h.trans (List.suffix_append _ _).isInfix)

theorem Pieces.Holds.sentStep (hs : maxChars < (strip s).length) (h : ps.Holds s) (t : Text) :
    (Chunking.sentStep maxChars ps t).Holds s := by
  unfold Chunking.sentStep
  simp only
  rcases h with h | h
  · generalize (if ps.cur.isEmpty then t else strip (ps.cur ++ [' '] ++ t)) = c2
    split
    · exact .inl h
    · exact .inl (Pieces.mem_flush h)
  · have hinfix : s <:+: ps.cur := h ▸ List.infix_refl s
    rw [if_neg (Nat.not_le_of_lt (grown_over hs (.inl hinfix)))]
    exact .inl (Pieces.Holds.flush hs (.inr h))

theorem Pieces.Holds.allSents (hs : maxChars < (strip s).length) (h : ps.Holds s) (sents : List Text) :
    (sents.foldl (Chunking.sentStep maxChars) ps).Holds s := by
  induction sents generalizing ps with
  | nil => exact h
  | cons t sents ih => exact ih (h.sentStep hs t)

theorem sentStep_holds (hs : maxChars < (strip s).length) (ps : Pieces) : (sentStep maxChars ps s).Holds s := by
  unfold sentStep
  simp only
  rw [if_neg (Nat.not_le_of_lt (grown_over hs (.inr (List.infix_refl s))))]
  exact .inr rfl

theorem sents_holds (hs : maxChars < (strip s).length) (sents : List Text) (hmem : s ∈ sents) (ps : Pieces) :
    (sents.foldl (sentStep maxChars) ps).Holds s := by
  obtain ⟨before, after, rfl⟩ := List.append_of_mem hmem
  rw [List.foldl_append, List.foldl_cons]
  exact (sentStep_holds hs _).allSents hs after

theorem Pieces.Holds.paraStep (hs : maxChars < (strip s).length) (h : ps.Holds s) (p : Text) :
    (Chunking.paraStep maxChars ps p).Holds s := by
  have hflushed : s ∈ ps.flush := h.flush hs
  have hnext : (if p.length > maxChars then (splitSents false false [] p).foldl (Chunking.sentStep maxChars) ⟨ps.flush, []⟩
      else ⟨ps.flush, p⟩ : Pieces).Holds s := by
    split
    · exact Pieces.Holds.allSents hs (.inl hflushed) _
    · exact .inl hflushed
  unfold Chunking.paraStep
  simp only
  rcases h with h | h
  · generalize (if ps.cur.isEmpty then p else strip (ps.cur ++ ['\n', '\n'] ++ p)) = cand
    split
    · exact .inl h
    · exact hnext
  · have hinfix : s <:+: ps.cur := h ▸ List.infix_refl s
    rw [if_neg (Nat.not_le_of_lt (grown_over hs (.inl hinfix)))]
    exact hnext

theorem Pieces.Holds.allParas (hs : maxChars < (strip s).length) (h : ps.Holds s) (paras : List Text) :
    (paras.foldl (Chunking.paraStep maxChars) ps).Holds s := by
  induction paras generalizing ps with
  | nil => exact h
  | cons p paras ih => exact ih (h.paraStep hs p)

/-- A sentence stands in its paragraph. -/
theorem splitSents_infix (inSep ended : Bool) (cur text : Text) (hcur : inSep = true → cur = []) :
    ∀ s ∈ splitSents inSep ended cur text, s <:+: cur ++ text := by
  fun_induction splitSents inSep ended cur text with
  | case1 _ _ cur =>
    intro s hs
    rw [List.mem_singleton.mp hs, List.append_nil]
  | case2 _ cur c rest hc ih =>
    intro s hs
    rw [hcur rfl] at ih hs ⊢
    exact (ih (fun _ => rfl) s hs).trans (List.suffix_cons c rest).isInfix
  | case3 _ cur c rest hc ih =>
    intro s hs
    rw [show cur ++ c :: rest = cur ++ [c] ++ rest by simp]
    exact ih (fun h => absurd h Bool.false_ne_true) s hs
  | case4 ended cur c rest hc ih =>
    intro s hs
    rcases List.mem_cons.mp hs with rfl | hs
    · exact (List.prefix_append _ _).isInfix
    · exact (ih (fun _ => rfl) s hs).trans ⟨cur ++ [c], [], by simp⟩
  | case5 ended cur c rest hc ih =>
    intro s hs
    rw [show cur ++ c :: rest = cur ++ [c] ++ rest by simp]
    exact ih (fun h => absurd h Bool.false_ne_true) s hs

theorem paraStep_holds (hs : maxChars < (strip s).length) {p : Text} (hmem : s ∈ splitSents false false [] p)
    (ps : Pieces) : (paraStep maxChars ps p).Holds s := by
  have hinfix : s <:+: p := splitSents_infix false false [] p nofun s hmem
  have hlong : maxChars < p.length := Nat.lt_of_lt_of_le (over_of_part hs hinfix) (length_strip_le p)
  unfold paraStep
  simp only
  rw [if_neg (Nat.not_le_of_lt (grown_over hs (.inr hinfix))), if_pos hlong]
  exact sents_holds hs _ hmem _

/-- **A sentence that is over the limit without its white space is a piece**, as it stands. -/
theorem smartSplit_whole (maxChars : Nat) (text : Text) {p s : Text} (hp : p ∈ splitParas false [] text)
    (hmem : s ∈ splitSents false false [] p) (hs : maxChars < (strip s).length) : s ∈ smartSplit maxChars text := by
  obtain ⟨before, after, hparas⟩ := List.append_of_mem hp
  unfold smartSplit
  rw [hparas, List.foldl_append, List.foldl_cons]
  exact ((paraStep_holds hs hmem _).allParas hs after).flush hs

end Whole

/-! ## §3. Together. -/

/-- **The pieces lose white space only, keep to the limit but for single sentences, and a sentence that does
not fit the limit is never cut.** -/
theorem smartSplit_limit (maxChars : Nat) (text : Text) :
    (smartSplit maxChars text).flatMap inked = inked text ∧
      (∀ piece ∈ smartSplit maxChars text, Fits maxChars (splitParas false [] text) piece) ∧
      ∀ p ∈ splitParas false [] text, ∀ s ∈ splitSents false false [] p, maxChars < (strip s).length →
        s ∈ smartSplit maxChars text :=
  ⟨smartSplit_solid maxChars text, smartSplit_fits maxChars text,
    fun _ hp _ hmem hs => smartSplit_whole maxChars text hp hmem hs⟩

/-- One sentence of five characters, and a limit of three. -/
theorem smartSplit_over :
    ¬ ∀ (maxChars : Nat) (text : Text), 0 < maxChars → ∀ piece ∈ smartSplit maxChars text, piece.length ≤ maxChars := by
  intro h
  have hpiece : ['a', 'b', 'c', 'd', 'e'] ∈ smartSplit 3 ['a', 'b', 'c', 'd', 'e'] := by decide
  exact absurd (h 3 _ (by decide) _ hpiece) (by decide)

end RagPipeline.Chunking
