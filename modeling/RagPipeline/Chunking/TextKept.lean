/-
  RagPipeline.Chunking.TextKept — what the multi-pass chunker keeps of a document.

  The bodies: the chunks' texts, in order and without white space, are the body lines in order and
  without white space; and a line of a section that is not too long is in one chunk as it stands.  The
  headings: a heading over a body that is in the tree below it is in a chunk's path, and so is that of a
  body that is long enough not to be merged.  A heading over nothing is in no chunk, and neither is that of
  a short body that went into its neighbour.

    * `smartSplit_solid` — splitting loses white space only;
    * `nest_sections`    — the tree in preorder is the list it was made of;
    * `carve_lines`      — the sections' bodies are all lines that are no headings;
    * `absorbed`         — the chunks are consecutive groups of the pieces;
    * `text_kept`        — together.
-/
import RagPipeline.Chunking.MultiPass
import RagPipeline.Lib.Groups
import Mathlib.Data.List.Forall2

namespace RagPipeline.Chunking

open RagPipeline.Lib

/-! ## §1. Splitting. -/

/-- The text without white space. -/
def inked (t : Text) : Text := solid isSpace t

@[simp] theorem inked_nil : inked [] = [] := rfl

theorem inked_append (t u : Text) : inked (t ++ u) = inked t ++ inked u := solid_append t u

theorem inked_cons_space {c : Char} (h : isSpace c = true) (t : Text) : inked (c :: t) = inked t :=
  solid_cons_pos h t

theorem inked_snoc (cur : Text) (c : Char) (rest : Text) :
    inked (cur ++ [c]) ++ inked rest = inked cur ++ inked (c :: rest) := by
  rw [inked_append, List.append_assoc, ← inked_append]
  rfl

theorem inked_join (sep : Text) (hsep : inked sep = []) (parts : List Text) :
    inked (join sep parts) = parts.flatMap inked := by
  unfold join
  induction parts with
  | nil => rfl
  | cons p parts ih =>
    cases parts with
    | nil => simp
    | cons q parts =>
      rw [List.intercalate_cons_cons, inked_append, inked_append, hsep, List.append_nil, ih]
      rfl

/-- A part is in the joined text. -/
theorem part_join (sep : Text) {p : Text} {parts : List Text} (h : p ∈ parts) : p <:+: join sep parts := by
  unfold join
  induction parts with
  | nil => cases h
  | cons q parts ih =>
    cases parts with
    | nil =>
      rw [List.mem_singleton.mp h, List.intercalate_singleton]
    | cons r parts =>
      rw [List.intercalate_cons_cons]
      rcases List.mem_cons.mp h with rfl | h
      · rw [List.append_assoc]
        exact (List.prefix_append _ _).isInfix
      · exact (ih h).trans (List.suffix_append _ _).isInfix

theorem inked_strip (t : Text) : inked (strip t) = inked t := solid_stripBy t

theorem isSpace_newline : isSpace '\n' = true := by decide

theorem isSpace_blank : isSpace ' ' = true := by decide

theorem splitParas_inked (inSep : Bool) (cur text : Text) :
    (splitParas inSep cur text).flatMap inked = inked cur ++ inked text := by
  fun_induction splitParas inSep cur text with
  | case1 _ cur => simp
  | case2 cur rest ih => rw [ih, inked_cons_space isSpace_newline]
  | case3 cur c rest hc ih =>
    rw [ih, inked_snoc]
  | case4 cur rest ih =>
    rw [List.flatMap_cons, ih, inked_cons_space isSpace_newline, inked_cons_space isSpace_newline]
    rfl
  | case5 cur c rest hne ih =>
    rw [ih, inked_snoc]

theorem splitSents_inked (inSep ended : Bool) (cur text : Text) :
    (splitSents inSep ended cur text).flatMap inked = inked cur ++ inked text := by
  fun_induction splitSents inSep ended cur text with
  | case1 _ _ cur => simp
  | case2 _ cur c rest hc ih => rw [ih, inked_cons_space hc]
  | case3 _ cur c rest hc ih =>
    rw [ih, inked_snoc]
  | case4 ended cur c rest hc ih =>
    rw [Bool.and_eq_true] at hc
    rw [List.flatMap_cons, ih, inked_cons_space hc.2]
    rfl
  | case5 ended cur c rest hc ih =>
    rw [ih, inked_snoc]

/-- What is in the pieces so far. -/
def Pieces.ink (ps : Pieces) : Text := ps.pieces.flatMap inked ++ inked ps.cur

theorem Pieces.flush_inked (ps : Pieces) : ps.flush.flatMap inked = ps.ink := by
  unfold Pieces.flush Pieces.ink
  cases hcur : ps.cur.isEmpty with
  | true =>
    rw [List.isEmpty_iff.mp hcur]
    simp
  | false => simp

theorem sentStep_inked (maxChars : Nat) (ps : Pieces) (s : Text) :
    (sentStep maxChars ps s).ink = ps.ink ++ inked s := by
  have hgrown : inked (if ps.cur.isEmpty then s else strip (ps.cur ++ [' '] ++ s)) =
      inked ps.cur ++ inked s := by
    cases hcur : ps.cur.isEmpty with
    | true => simp [List.isEmpty_iff.mp hcur]
    | false =>
      rw [if_neg (by decide), inked_strip, inked_append, inked_append, inked_cons_space isSpace_blank]
      simp
  unfold sentStep
  simp only
  generalize (if ps.cur.isEmpty then s else strip (ps.cur ++ [' '] ++ s)) = c2 at hgrown
  split
  · show ps.pieces.flatMap inked ++ inked _ = _
    rw [hgrown, ← List.append_assoc]
    rfl
  · show ps.flush.flatMap inked ++ inked s = _
    rw [Pieces.flush_inked]

theorem sents_inked (maxChars : Nat) (sents : List Text) (ps : Pieces) :
    (sents.foldl (sentStep maxChars) ps).ink = ps.ink ++ sents.flatMap inked := by
  induction sents generalizing ps with
  | nil => simp
  | cons s sents ih => rw [List.foldl_cons, ih, sentStep_inked, List.flatMap_cons, List.append_assoc]

theorem paraStep_inked (maxChars : Nat) (ps : Pieces) (p : Text) :
    (paraStep maxChars ps p).ink = ps.ink ++ inked p := by
  have hgrown : inked (if ps.cur.isEmpty then p else strip (ps.cur ++ ['\n', '\n'] ++ p)) =
      inked ps.cur ++ inked p := by
    cases hcur : ps.cur.isEmpty with
    | true => simp [List.isEmpty_iff.mp hcur]
    | false =>
      rw [if_neg (by decide), inked_strip, inked_append, inked_append, inked_cons_space isSpace_newline,
        inked_cons_space isSpace_newline]
      simp
  have hflushed : Pieces.ink ⟨ps.flush, []⟩ = ps.ink := by
    show ps.flush.flatMap inked ++ [] = _
    rw [Pieces.flush_inked, List.append_nil]
  unfold paraStep
  simp only
  generalize (if ps.cur.isEmpty then p else strip (ps.cur ++ ['\n', '\n'] ++ p)) = cand at hgrown
  split
  · show ps.pieces.flatMap inked ++ inked _ = _
    rw [hgrown, ← List.append_assoc]
    rfl
  · split
    · rw [sents_inked, hflushed, splitSents_inked]
      rfl
    · show ps.flush.flatMap inked ++ inked p = _
      rw [Pieces.flush_inked]

theorem paras_inked (maxChars : Nat) (paras : List Text) (ps : Pieces) :
    (paras.foldl (paraStep maxChars) ps).ink = ps.ink ++ paras.flatMap inked := by
  induction paras generalizing ps with
  | nil => simp
  | cons p paras ih => rw [List.foldl_cons, ih, paraStep_inked, List.flatMap_cons, List.append_assoc]

/-- **Splitting loses white space only.** -/
theorem smartSplit_solid (maxChars : Nat) (text : Text) :
    (smartSplit maxChars text).flatMap inked = inked text := by
  unfold smartSplit
  rw [Pieces.flush_inked, paras_inked, splitParas_inked]
  rfl

theorem inked_bodyText (s : Section) : inked (bodyText s) = s.contentLines.flatMap fun l => inked l.text := by
  unfold bodyText
  rw [inked_strip, inked_join _ (by rw [inked_cons_space isSpace_newline]; rfl), List.flatMap_map]

/-! ## §2. Nesting and walking. -/

mutual

/-- The sections of a tree, in preorder. -/
def SectionTree.sections : SectionTree → List Section
  | .node s children => s :: sectionsOf children

/-- The sections of some trees. -/
def sectionsOf : List SectionTree → List Section
  | [] => []
  | t :: ts => t.sections ++ sectionsOf ts

end

theorem sectionsOf_append (ts us : List SectionTree) : sectionsOf (ts ++ us) = sectionsOf ts ++ sectionsOf us := by
  induction ts with
  | nil => rfl
  | cons t ts ih =>
    show t.sections ++ sectionsOf (ts ++ us) = t.sections ++ sectionsOf ts ++ sectionsOf us
    rw [ih, List.append_assoc]

theorem sectionsOf_node (s : Section) (children : List SectionTree) :
    sectionsOf [.node s children] = s :: sectionsOf children := List.append_nil _

/-- The sections nested so far, in order. -/
def Nesting.sections (n : Nesting) : List Section :=
  sectionsOf n.root ++ n.stack.reverse.flatMap fun p => p.1 :: sectionsOf p.2

theorem closeTop_sections (root : List SectionTree) (stack : List (Section × List SectionTree)) :
    (closeTop root stack).sections = Nesting.sections ⟨root, stack⟩ := by
  match stack with
  | [] => rfl
  | [(s, children)] =>
    show sectionsOf (root ++ [.node s children]) ++ [] = _
    rw [sectionsOf_append, List.append_nil]
    rfl
  | (s, children) :: (parent, siblings) :: rest =>
    show sectionsOf root ++ ((parent, siblings ++ [.node s children]) :: rest).reverse.flatMap _ =
      sectionsOf root ++ ((s, children) :: (parent, siblings) :: rest).reverse.flatMap _
    simp only [List.reverse_cons, List.flatMap_append, List.flatMap_cons, List.flatMap_nil, List.append_nil,
      sectionsOf_append, sectionsOf_node, List.append_assoc, List.cons_append, List.nil_append]

theorem popTo_sections (level fuel : Nat) (n : Nesting) : (popTo level fuel n).sections = n.sections := by
  induction fuel generalizing n with
  | zero => rfl
  | succ fuel ih =>
    unfold popTo
    split
    · rfl
    · split
      · rw [ih, closeTop_sections]
      · rfl

theorem nestStep_sections (n : Nesting) (s : Section) : (nestStep n s).sections = n.sections ++ [s] := by
  have hpop := popTo_sections s.level n.stack.length n
  unfold nestStep
  simp only
  generalize popTo s.level n.stack.length n = n₁ at hpop
  rw [← hpop]
  show sectionsOf n₁.root ++ ((s, []) :: n₁.stack).reverse.flatMap _ = _
  rw [List.reverse_cons, List.flatMap_append, ← List.append_assoc]
  rfl

theorem length_closeTop {root : List SectionTree} {stack : List (Section × List SectionTree)} :
    (closeTop root stack).stack.length = stack.length - 1 := by
  match stack with
  | [] => rfl
  | [_] => rfl
  | _ :: _ :: rest => rfl

theorem closeAll_sections (fuel : Nat) (n : Nesting) (h : n.stack.length ≤ fuel) :
    sectionsOf (closeAll fuel n) = n.sections := by
  induction fuel generalizing n with
  | zero =>
    have hnil : n.stack = [] := List.eq_nil_of_length_eq_zero (by omega)
    unfold Nesting.sections
    rw [hnil]
    show sectionsOf n.root = sectionsOf n.root ++ []
    rw [List.append_nil]
  | succ fuel ih =>
    have hshorter : (closeTop n.root n.stack).stack.length ≤ fuel := by
      rw [length_closeTop]
      omega
    show sectionsOf (closeAll fuel (closeTop n.root n.stack)) = _
    rw [ih _ hshorter, closeTop_sections]

/-- **The tree in preorder is the list it was made of.** -/
theorem nest_sections (flat : List Section) : sectionsOf (nest flat) = flat := by
  have hfold : ∀ (flat : List Section) (n : Nesting), (flat.foldl nestStep n).sections = n.sections ++ flat := by
    intro flat
    induction flat with
    | nil =>
      intro n
      exact (List.append_nil _).symm
    | cons s flat ih =>
      intro n
      rw [List.foldl_cons, ih, nestStep_sections, List.append_assoc]
      rfl
  unfold nest
  simp only
  rw [closeAll_sections _ _ (le_refl _), hfold]
  rfl

theorem emit_inked (path : List Text) (s : Section) :
    (emit path s).flatMap (fun rc => inked rc.text) = inked (bodyText s) := by
  unfold emit
  simp only
  cases hempty : (bodyText s).isEmpty with
  | true =>
    rw [List.isEmpty_iff.mp hempty]
    rfl
  | false => simp

mutual

theorem walkOne_inked (path : List Text) (t : SectionTree) :
    (walkOne path t).flatMap (fun rc => inked rc.text) = t.sections.flatMap fun s => inked (bodyText s) := by
  match t with
  | .node s children =>
    unfold walkOne SectionTree.sections
    rw [List.flatMap_append, emit_inked, walk_inked, List.flatMap_cons]

theorem walk_inked (path : List Text) (ts : List SectionTree) :
    (walk path ts).flatMap (fun rc => inked rc.text) = (sectionsOf ts).flatMap fun s => inked (bodyText s) := by
  match ts with
  | [] => rfl
  | t :: ts =>
    unfold walk sectionsOf
    rw [List.flatMap_append, walkOne_inked, walk_inked, List.flatMap_append]

end

/-! ## §3. Carving. -/

/-- The lines that are no headings. -/
def bodyLines (lines : List RawLine) (boundaries : List Boundary) : List RawLine :=
  lines.filter fun l => decide (∀ b ∈ boundaries, l.lineIndex ≠ b.lineIndex)

/-- The lines after the first heading that are no headings. -/
theorem carveFrom_lines {lines : List RawLine} (hlines : lines.Pairwise fun a b => a.lineIndex < b.lineIndex)
    (b : Boundary) (rest : List Boundary) (hbounds : (b :: rest).Pairwise fun a b => a.lineIndex < b.lineIndex) :
    (carveFrom lines (b :: rest)).flatMap (·.contentLines) =
      lines.filter fun l => decide (b.lineIndex < l.lineIndex ∧ ∀ b' ∈ rest, l.lineIndex ≠ b'.lineIndex) := by
  induction rest generalizing b with
  | nil =>
    show lines.filter _ ++ [] = _
    rw [List.append_nil]
    refine List.filter_congr fun l hl => ?_
    -- the last section goes on to the end of the file
    have hstop : l.lineIndex < sectionEnd lines b none := by
      obtain ⟨init, last, rfl⟩ := (List.eq_nil_or_concat' lines).resolve_left fun h => by rw [h] at hl; cases hl
      unfold sectionEnd
      rw [List.getLast?_concat]
      show l.lineIndex < last.lineIndex + 1
      rcases List.mem_append.mp hl with hl | hl
      · have hlt := (List.pairwise_append.mp hlines).2.2 l hl last (List.mem_singleton_self last)
        omega
      · rw [List.mem_singleton.mp hl]
        omega
    simp only [List.head?_nil, hstop, decide_true, Bool.and_true, List.not_mem_nil, false_imp_iff, implies_true,
      and_true]
    rfl
  | cons b' rest ih =>
    obtain ⟨hfirst, hrest⟩ := List.pairwise_cons.mp hbounds
    show lines.filter _ ++ (carveFrom lines (b' :: rest)).flatMap (·.contentLines) = _
    rw [ih b' hrest]
    show (lines.filter fun l => decide (b.lineIndex + 1 ≤ l.lineIndex) && decide (l.lineIndex < b'.lineIndex)) ++ _ = _
    -- the lines of this section come before those of the next, so together they are one filter
    rw [filter_append_sorted (·.lineIndex) hlines]
    · refine List.filter_congr fun l _ => ?_
      have hb := hfirst b' List.mem_cons_self
      have hafter := fun x hx => (List.pairwise_cons.mp hrest).1 x hx
      rw [Bool.eq_iff_iff]
      simp only [Bool.or_eq_true, Bool.and_eq_true, decide_eq_true_eq, List.forall_mem_cons]
      constructor
      · rintro (⟨hlo, hhi⟩ | ⟨hlo, hne⟩)
        · refine ⟨by omega, by omega, fun x hx => ?_⟩
          have := hafter x hx
          omega
        · exact ⟨by omega, by omega, hne⟩
      · rintro ⟨hlo, hne, hrest'⟩
        rcases lt_or_gt_of_ne hne with h | h
        · exact Or.inl ⟨by omega, h⟩
        · exact Or.inr ⟨h, hrest'⟩
    · intro x y hx hy
      simp only [Bool.and_eq_true, decide_eq_true_eq] at hx hy
      exact lt_trans hx.2 hy.1

/-- **The sections' bodies are the lines that are no headings.** -/
theorem carve_lines {lines : List RawLine} (hlines : lines.Pairwise fun a b => a.lineIndex < b.lineIndex)
    {boundaries : List Boundary} (hbounds : boundaries.Pairwise fun a b => a.lineIndex < b.lineIndex) :
    (carve lines boundaries).flatMap (·.contentLines) = bodyLines lines boundaries := by
  unfold bodyLines
  cases boundaries with
  | nil =>
    show lines ++ [] = _
    simp
  | cons b rest =>
    -- an empty preamble is no section, and has no lines
    have hpreamble : (carve lines (b :: rest)).flatMap (·.contentLines) =
        (lines.filter fun l => decide (l.lineIndex < b.lineIndex)) ++
          (carveFrom lines (b :: rest)).flatMap (·.contentLines) := by
      unfold carve
      simp only
      rw [List.flatMap_append]
      cases hempty : (lines.filter fun l => decide (l.lineIndex < b.lineIndex)).isEmpty with
      | true =>
        rw [List.isEmpty_iff.mp hempty]
        rfl
      | false =>
        show (lines.filter fun l => decide (l.lineIndex < b.lineIndex)) ++ [] ++ _ = _
        rw [List.append_nil]
    rw [hpreamble, carveFrom_lines hlines b rest hbounds, filter_append_sorted (·.lineIndex) hlines]
    · refine List.filter_congr fun l _ => ?_
      have hafter := fun x hx => (List.pairwise_cons.mp hbounds).1 x hx
      rw [Bool.eq_iff_iff]
      simp only [Bool.or_eq_true, decide_eq_true_eq, List.forall_mem_cons]
      constructor
      · rintro (hlt | ⟨hlt, hne⟩)
        · refine ⟨by omega, fun x hx => ?_⟩
          have := hafter x hx
          omega
        · exact ⟨by omega, hne⟩
      · rintro ⟨hne, hrest⟩
        rcases lt_or_gt_of_ne hne with h | h
        · exact Or.inl h
        · exact Or.inr ⟨h, hrest⟩
    · intro x y hx hy
      simp only [decide_eq_true_eq] at hx hy
      exact lt_trans hx hy.1

/-! ## §4. Merging. -/

/-- The piece is in the chunk's text, under the same parents; and under its own heading, unless it is short. -/
structure Holds (cfg : ChunkerConfig) (c : ChunkResult) (p : Raw) : Prop where
  text : p.text <:+: c.text
  parents : c.contextPath.dropLast = p.contextPath.dropLast
  heading : c.contextPath = p.contextPath ∨ cfg.est (fullOf p) < cfg.minChunkTokens

variable {cfg : ChunkerConfig}

/-- What one turn of the loop does with the next piece. -/
theorem absorb_cases (final : List ChunkResult) (p : Raw) :
    absorb cfg final p = final ++ [makeChunk cfg p] ∨
      ∃ init prev, final = init ++ [prev] ∧ cfg.est (fullOf p) < cfg.minChunkTokens ∧
        sameParent p.contextPath prev.contextPath = true ∧
        absorb cfg final p = init ++ [mergeInto cfg prev (makeChunk cfg p)] := by
  rcases List.eq_nil_or_concat' final with rfl | ⟨init, prev, rfl⟩
  · exact Or.inl rfl
  unfold absorb
  simp only [List.getLast?_concat]
  split
  · rename_i h
    refine Or.inr ⟨init, prev, rfl, h.1, h.2.1, ?_⟩
    rw [List.dropLast_concat]
  · exact Or.inl rfl

theorem sameParent_dropLast {path prev : List Text} (h : sameParent path prev = true) :
    prev.dropLast = path.dropLast := by
  unfold sameParent at h
  split at h
  · exact (of_decide_eq_true h).symm
  · rw [of_decide_eq_true h]

theorem holds_makeChunk (p : Raw) : Holds cfg (makeChunk cfg p) p := ⟨List.infix_refl _, rfl, Or.inl rfl⟩

/-- What a chunk holds it holds with the next one in it. -/
theorem Holds.mergeInto {prev : ChunkResult} {p : Raw} (h : Holds cfg prev p) (chunk : ChunkResult) :
    Holds cfg (mergeInto cfg prev chunk) p := by
  refine ⟨h.text.trans ?_, h.parents, h.heading⟩
  show prev.text <:+: prev.text ++ ['\n'] ++ chunk.text
  rw [List.append_assoc]
  exact (List.prefix_append _ _).isInfix

/-- A chunk holds some pieces. -/
def HoldsAll (cfg : ChunkerConfig) (ps : List Raw) (c : ChunkResult) : Prop := ∀ p ∈ ps, Holds cfg c p

/-- The last of the related elements. -/
theorem forall₂_concat_right {α β : Type} {R : α → β → Prop} {l : List α} {init : List β} {b : β}
    (h : List.Forall₂ R l (init ++ [b])) : ∃ linit a, l = linit ++ [a] ∧ List.Forall₂ R linit init ∧ R a b := by
  induction init generalizing l with
  | nil =>
    cases h with
    | cons hab hnil =>
      cases hnil
      exact ⟨[], _, rfl, .nil, hab⟩
  | cons x init ih =>
    cases h with
    | cons hax hrest =>
      obtain ⟨linit, a, rfl, hinit, hab⟩ := ih hrest
      exact ⟨_ :: linit, a, rfl, .cons hax hinit, hab⟩

/-- One turn of the loop gives the next piece to the last chunk, or to a new one. -/
theorem absorb_groups {groups : List (List Raw)} {final : List ChunkResult}
    (h : List.Forall₂ (HoldsAll cfg) groups final) (p : Raw) :
    ∃ groups', groups'.flatten = groups.flatten ++ [p] ∧
      List.Forall₂ (HoldsAll cfg) groups' (absorb cfg final p) := by
  rcases @absorb_cases cfg final p with heq | ⟨init, prev, rfl, hsmall, hsame, heq⟩
  · refine ⟨groups ++ [[p]], by simp, ?_⟩
    rw [heq]
    refine List.rel_append h (.cons (fun q hq => ?_) .nil)
    rw [List.mem_singleton.mp hq]
    exact holds_makeChunk p
  · obtain ⟨ginit, last, rfl, hinit, hlast⟩ := forall₂_concat_right h
    refine ⟨ginit ++ [last ++ [p]], by simp, ?_⟩
    rw [heq]
    refine List.rel_append hinit (.cons (fun q hq => ?_) .nil)
    rcases List.mem_append.mp hq with hq | hq
    · exact (hlast q hq).mergeInto _
    · rw [List.mem_singleton.mp hq]
      refine ⟨?_, sameParent_dropLast hsame, Or.inr hsmall⟩
      show p.text <:+: prev.text ++ ['\n'] ++ p.text
      exact (List.suffix_append _ _).isInfix

/-- **The chunks are consecutive groups of the pieces.** -/
theorem absorbed (pieces : List Raw) {groups : List (List Raw)} {final : List ChunkResult}
    (h : List.Forall₂ (HoldsAll cfg) groups final) :
    ∃ groups', groups'.flatten = groups.flatten ++ pieces ∧
      List.Forall₂ (HoldsAll cfg) groups' (pieces.foldl (absorb cfg) final) := by
  induction pieces generalizing groups final with
  | nil => exact ⟨groups, (List.append_nil _).symm, h⟩
  | cons p pieces ih =>
    obtain ⟨groups₁, hflat₁, hgroups₁⟩ := absorb_groups h p
    obtain ⟨groups', hflat, hgroups⟩ := ih hgroups₁
    refine ⟨groups', ?_, hgroups⟩
    rw [hflat, hflat₁, List.append_assoc]
    rfl

/-- Each piece of the groups is in a chunk. -/
theorem held_of_groups {groups : List (List Raw)} {chunks : List ChunkResult}
    (h : List.Forall₂ (HoldsAll cfg) groups chunks) {p : Raw} (hp : p ∈ groups.flatten) :
    ∃ c ∈ chunks, Holds cfg c p := by
  induction h with
  | nil => cases hp
  | @cons ps c _ _ hc _ ih =>
    rw [List.flatten_cons] at hp
    rcases List.mem_append.mp hp with hp | hp
    · exact ⟨c, List.mem_cons_self, hc p hp⟩
    · obtain ⟨c', hc', hholds⟩ := ih hp
      exact ⟨c', List.mem_cons_of_mem _ hc', hholds⟩

theorem absorb_inked (final : List ChunkResult) (p : Raw) :
    (absorb cfg final p).flatMap (fun c => inked c.text) = final.flatMap (fun c => inked c.text) ++ inked p.text := by
  rcases @absorb_cases cfg final p with heq | ⟨init, prev, rfl, -, -, heq⟩
  · rw [heq, List.flatMap_append]
    show _ ++ (inked p.text ++ []) = _
    rw [List.append_nil]
  · rw [heq, List.flatMap_append, List.flatMap_append, List.append_assoc]
    show _ ++ (inked (prev.text ++ ['\n'] ++ p.text) ++ []) = _ ++ (inked prev.text ++ [] ++ inked p.text)
    rw [inked_append, inked_append, inked_cons_space isSpace_newline, inked_nil]
    simp

theorem postprocess_inked (raw : List Raw) :
    (postprocess cfg raw).flatMap (fun c => inked c.text) = raw.flatMap fun rc => inked rc.text := by
  have hfold : ∀ (pieces : List Raw) (final : List ChunkResult),
      (pieces.foldl (absorb cfg) final).flatMap (fun c => inked c.text) =
        final.flatMap (fun c => inked c.text) ++ pieces.flatMap fun p => inked p.text := by
    intro pieces
    induction pieces with
    | nil =>
      intro final
      exact (List.append_nil _).symm
    | cons p pieces ih =>
      intro final
      rw [List.foldl_cons, ih, absorb_inked, List.flatMap_cons, List.append_assoc]
  unfold postprocess expand
  rw [hfold, List.flatMap_assoc]
  refine List.flatMap_congr fun rc _ => ?_
  split
  · exact List.append_nil _
  · rw [List.flatMap_map]
    exact smartSplit_solid _ _

/-! ## §5. Headings. -/

/-- A section of the tree, with everything under it. -/
inductive SubtreeOf : SectionTree → List SectionTree → Prop
  | here (t : SectionTree) (ts : List SectionTree) : SubtreeOf t (t :: ts)
  | later {t : SectionTree} (u : SectionTree) {ts : List SectionTree} (h : SubtreeOf t ts) : SubtreeOf t (u :: ts)
  | inside {t : SectionTree} (s : Section) {children : List SectionTree} (ts : List SectionTree)
      (h : SubtreeOf t children) : SubtreeOf t (.node s children :: ts)

theorem SubtreeOf.walked {t : SectionTree} {ts : List SectionTree} (h : SubtreeOf t ts) (path : List Text) :
    ∃ path', ∀ rc ∈ walkOne path' t, rc ∈ walk path ts := by
  induction h generalizing path with
  | here ts => exact ⟨path, fun rc hrc => List.mem_append_left _ hrc⟩
  | later u h ih =>
    obtain ⟨path', hpath⟩ := ih path
    exact ⟨path', fun rc hrc => List.mem_append_right _ (hpath rc hrc)⟩
  | inside s ts h ih =>
    obtain ⟨path', hpath⟩ := ih (path ++ [s.heading])
    refine ⟨path', fun rc hrc => List.mem_append_left _ ?_⟩
    unfold walkOne
    exact List.mem_append_right _ (hpath rc hrc)

theorem exists_emit (path : List Text) {s : Section} (h : bodyText s ≠ []) :
    ∃ rc ∈ emit path s, rc.text = bodyText s ∧ rc.contextPath = path := by
  unfold emit
  simp only
  rw [if_neg (by rw [List.isEmpty_iff]; exact h)]
  exact ⟨_, List.mem_singleton_self _, rfl, rfl⟩

mutual

/-- A body is emitted under its heading, and that under the headings of the tree it is in. -/
theorem walkOne_body (path : List Text) (t : SectionTree) {s : Section} (hs : s ∈ t.sections)
    (hbody : bodyText s ≠ []) :
    ∃ rc ∈ walkOne path t, rc.text = bodyText s ∧ ∃ mid, rc.contextPath = path ++ mid ++ [s.heading] := by
  match t with
  | .node s' children =>
    unfold SectionTree.sections at hs
    unfold walkOne
    rcases List.mem_cons.mp hs with rfl | hs
    · obtain ⟨rc, hrc, htext, hpath⟩ := exists_emit (path ++ [s.heading]) hbody
      exact ⟨rc, List.mem_append_left _ hrc, htext, [], by rw [hpath, List.append_nil]⟩
    · obtain ⟨rc, hrc, htext, mid, hpath⟩ := walk_body (path ++ [s'.heading]) children hs hbody
      refine ⟨rc, List.mem_append_right _ hrc, htext, s'.heading :: mid, ?_⟩
      rw [hpath]
      simp

theorem walk_body (path : List Text) (ts : List SectionTree) {s : Section} (hs : s ∈ sectionsOf ts)
    (hbody : bodyText s ≠ []) :
    ∃ rc ∈ walk path ts, rc.text = bodyText s ∧ ∃ mid, rc.contextPath = path ++ mid ++ [s.heading] := by
  match ts with
  | [] => cases hs
  | t :: ts =>
    unfold sectionsOf at hs
    unfold walk
    rcases List.mem_append.mp hs with hs | hs
    · obtain ⟨rc, hrc, h⟩ := walkOne_body path t hs hbody
      exact ⟨rc, List.mem_append_left _ hrc, h⟩
    · obtain ⟨rc, hrc, h⟩ := walk_body path ts hs hbody
      exact ⟨rc, List.mem_append_right _ hrc, h⟩

end

/-- The pieces a body is cut into. -/
def piecesOf (cfg : ChunkerConfig) (t : Text) : List Text :=
  if t.length ≤ cfg.maxChars then [t] else smartSplit cfg.maxChars t

theorem piecesOf_ne_nil {t : Text} (h : inked t ≠ []) : piecesOf cfg t ≠ [] := by
  unfold piecesOf
  split
  · exact List.cons_ne_nil _ _
  · intro hnil
    have hsolid := smartSplit_solid cfg.maxChars t
    rw [hnil] at hsolid
    exact h hsolid.symm

theorem mem_expand {raw : List Raw} {rc : Raw} (hrc : rc ∈ raw) {t : Text} (ht : t ∈ piecesOf cfg rc.text) :
    { rc with text := t } ∈ expand cfg raw := by
  refine List.mem_flatMap.mpr ⟨rc, hrc, ?_⟩
  unfold piecesOf at ht
  split
  · rename_i h
    rw [if_pos h, List.mem_singleton] at ht
    rw [ht]
    exact List.mem_singleton_self _
  · rename_i h
    rw [if_neg h] at ht
    exact List.mem_map.mpr ⟨t, ht, rfl⟩

theorem inked_bodyText_ne_nil {s : Section} (h : bodyText s ≠ []) : inked (bodyText s) ≠ [] := by
  intro hnil
  unfold bodyText strip at h hnil
  rw [show inked (stripBy isSpace _) = _ from solid_stripBy _] at hnil
  exact h (stripBy_eq_nil_iff.mpr hnil)

/-! ## §6. What is kept. -/

/-- The bodies of the sections in source order, the long ones in pieces. -/
def piecesInOrder (cfg : ChunkerConfig) (lines : List RawLine) (boundaries : List Boundary) : List Raw :=
  expand cfg (walk [] (nest (carve lines boundaries)))

/-- What the chunks keep of a document. -/
structure TextKept (cfg : ChunkerConfig) (lines : List RawLine) (boundaries : List Boundary) : Prop where
  /-- The chunks are consecutive groups of the pieces. -/
  order : ∃ groups, groups.flatten = piecesInOrder cfg lines boundaries ∧
    List.Forall₂ (HoldsAll cfg) groups (buildAndChunk cfg lines boundaries)
  /-- The body lines, in order, up to white space. -/
  bodies : (buildAndChunk cfg lines boundaries).flatMap (fun c => inked c.text) =
    (bodyLines lines boundaries).flatMap fun l => inked l.text
  /-- Each line of a section that is not too long, as it stands. -/
  line : ∀ s ∈ carve lines boundaries, (bodyText s).length ≤ cfg.maxChars → ∀ l ∈ s.contentLines,
    strip l.text ≠ [] → ∃ c ∈ buildAndChunk cfg lines boundaries, strip l.text <:+: c.text
  /-- Each piece of a body, under the heading of its section unless it is short. -/
  own : ∀ s ∈ carve lines boundaries, bodyText s ≠ [] → ∃ rc : Raw, rc.contextPath.getLast? = some s.heading ∧
    ∀ t ∈ piecesOf cfg (bodyText s), ∃ c ∈ buildAndChunk cfg lines boundaries, Holds cfg c { rc with text := t }
  /-- Each heading over a body further down the tree. -/
  above : ∀ s children, SubtreeOf (.node s children) (nest (carve lines boundaries)) →
    (∃ s' ∈ sectionsOf children, bodyText s' ≠ []) →
    ∃ c ∈ buildAndChunk cfg lines boundaries, s.heading ∈ c.contextPath

/-- **What the multi-pass chunker keeps.** -/
theorem text_kept (cfg : ChunkerConfig) (lines : List RawLine) (boundaries : List Boundary)
    (hlines : lines.Pairwise fun a b => a.lineIndex < b.lineIndex)
    (hbounds : boundaries.Pairwise fun a b => a.lineIndex < b.lineIndex) : TextKept cfg lines boundaries := by
  obtain ⟨groups, hflat, hgroups⟩ := @absorbed cfg (piecesInOrder cfg lines boundaries) [] [] .nil
  -- every piece is in the group of a chunk
  have hheld : ∀ p ∈ expand cfg (walk [] (nest (carve lines boundaries))),
      ∃ c ∈ buildAndChunk cfg lines boundaries, Holds cfg c p :=
    fun p hp => held_of_groups hgroups (hflat ▸ hp)
  have hown : ∀ s ∈ carve lines boundaries, bodyText s ≠ [] → ∃ rc : Raw,
      rc.contextPath.getLast? = some s.heading ∧ ∀ t ∈ piecesOf cfg (bodyText s),
        ∃ c ∈ buildAndChunk cfg lines boundaries, Holds cfg c { rc with text := t } := by
    intro s hs hbody
    rw [← nest_sections (carve lines boundaries)] at hs
    obtain ⟨rc, hrc, htext, mid, hpath⟩ := walk_body [] _ hs hbody
    refine ⟨rc, by rw [hpath, List.getLast?_concat], fun t ht => ?_⟩
    rw [← htext] at ht
    exact hheld _ (mem_expand hrc ht)
  refine ⟨⟨groups, hflat, hgroups⟩, ?_, ?_, hown, ?_⟩
  · unfold buildAndChunk
    rw [postprocess_inked, walk_inked, nest_sections, ← carve_lines hlines hbounds, List.flatMap_assoc]
    exact List.flatMap_congr fun s _ => inked_bodyText s
  · intro s hs hshort l hl hink
    have hpart : strip l.text <:+: bodyText s := by
      refine stripBy_infix (part_join ['\n'] ?_)
      exact List.mem_map_of_mem hl
    have hbody : bodyText s ≠ [] := by
      intro hnil
      rw [hnil] at hpart
      exact hink (List.infix_nil.mp hpart)
    obtain ⟨rc, -, hpieces⟩ := hown s hs hbody
    -- a short body is one piece
    have hwhole : bodyText s ∈ piecesOf cfg (bodyText s) := by
      unfold piecesOf
      rw [if_pos hshort]
      exact List.mem_singleton_self _
    obtain ⟨c, hc, hholds⟩ := hpieces _ hwhole
    exact ⟨c, hc, hpart.trans hholds.text⟩
  · rintro s children hsub ⟨s', hs', hbody⟩
    -- a child with a body has pieces, and each carries the parent in its path
    obtain ⟨path, hwalked⟩ := hsub.walked []
    obtain ⟨rc, hrc, htext, mid, hpath⟩ := walk_body (path ++ [s.heading]) children hs' hbody
    have hraw : rc ∈ walk [] (nest (carve lines boundaries)) := by
      refine hwalked rc ?_
      unfold walkOne
      exact List.mem_append_right _ hrc
    obtain ⟨t, ht⟩ := List.exists_mem_of_ne_nil _ (@piecesOf_ne_nil cfg _ (inked_bodyText_ne_nil hbody))
    rw [← htext] at ht
    obtain ⟨c, hc, hholds⟩ := hheld _ (mem_expand hraw ht)
    refine ⟨c, hc, List.mem_of_mem_dropLast ?_⟩
    rw [hholds.parents]
    show s.heading ∈ rc.contextPath.dropLast
    rw [hpath, List.dropLast_concat]
    simp

/-- A line of a document: index and text. -/
private def docLine (i : Nat) (text : String) : RawLine := ⟨text.toList, 1, i⟩

/-- A heading: index, text and level. -/
private def docHeading (i : Nat) (text : String) (level : Nat) : Boundary := ⟨i, text.toList, level, 1⟩

/-- A heading over three others: two with a short body, the last with none. -/
def shortSections : List RawLine × List Boundary :=
  ([docLine 0 "Profile", docLine 1 "Skills", docLine 2 "Python", docLine 3 "Languages", docLine 4 "Danish",
    docLine 5 "References"],
   [docHeading 0 "Profile" 1, docHeading 1 "Skills" 2, docHeading 3 "Languages" 2, docHeading 5 "References" 2])

theorem text_kept_short : TextKept {} shortSections.1 shortSections.2 :=
  text_kept {} shortSections.1 shortSections.2 (by decide) (by decide)

/-- Every line's text is in a chunk's text or in its path. -/
def EveryLineKept (cfg : ChunkerConfig) (lines : List RawLine) (boundaries : List Boundary) : Prop :=
  ∀ l ∈ lines, strip l.text ≠ [] → ∃ c ∈ buildAndChunk cfg lines boundaries,
    strip l.text <:+: c.text ∨ ∃ h ∈ c.contextPath, strip l.text <:+: h

/-- **Headings are lost**: of a section that was merged into its neighbour, and of one without a body. -/
theorem shortSections_not_kept :
    (buildAndChunk {} shortSections.1 shortSections.2).map (fun c => (c.contextPath, c.text)) =
        [(["Profile".toList, "Skills".toList], "Python\nDanish".toList)] ∧
      ¬ EveryLineKept {} shortSections.1 shortSections.2 := by
  have hchunks : (buildAndChunk {} shortSections.1 shortSections.2).map (fun c => (c.contextPath, c.text)) =
      [(["Profile".toList, "Skills".toList], "Python\nDanish".toList)] := by decide +kernel
  refine ⟨hchunks, fun h => ?_⟩
  have hlanguages : docLine 3 "Languages" ∈ shortSections.1 := by simp [shortSections]
  obtain ⟨c, hc, hkept⟩ := h (docLine 3 "Languages") hlanguages (by decide +kernel)
  have hone : (c.contextPath, c.text) = (["Profile".toList, "Skills".toList], "Python\nDanish".toList) := by
    have hmem := List.mem_map_of_mem (f := fun c : ChunkResult => (c.contextPath, c.text)) hc
    rw [hchunks] at hmem
    exact List.mem_singleton.mp hmem
  obtain ⟨hpath, htext⟩ := Prod.mk.inj hone
  rw [hpath, htext] at hkept
  revert hkept
  decide +kernel

end RagPipeline.Chunking
