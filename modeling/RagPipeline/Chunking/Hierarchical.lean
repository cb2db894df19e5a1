/-
  RagPipeline.Chunking.Hierarchical — a document cut at its headings, each section chunked on its own.

  The headings are looked for one after the other, each from the end of the one before; one whose title is not found
  is passed over.  The text between two that are found is the section of the first, and its content.

    * `sections_keep_text` — up to white space the document is its preamble, then title and section of each heading
                             found; no text is lost, none is in two sections;
    * `breadcrumb_path`    — a breadcrumb names the headings the section is under, by increasing level, its own last;
    * `indices_count`      — the chunks of a document are numbered in order, from the first on, a parent after its
                             leaves.
-/
import Mathlib.Data.List.Sort
import Mathlib.Data.List.Range
import RagPipeline.Chunking.MultiPass
import RagPipeline.Lib.OrderedDict

namespace RagPipeline.Chunking.Hierarchical

open RagPipeline.Lib

/-! ## §1. Headings and sections. -/

structure HeadingNode where
  level : ℕ
  title : Text
  deriving DecidableEq, Repr

structure Section where
  breadcrumb : Text
  heading : Option HeadingNode
  text : Text
  deriving DecidableEq, Repr

/-- `raw_text.find(title, start)`. -/
def find (rawText title : Text) (start : ℕ) : Option ℕ :=
  (List.range (rawText.length + 1)).find? fun i => decide (start ≤ i) && title.isPrefixOf (rawText.drop i)

/-- The headings that are found, where they stand. -/
def headingPositions (rawText : Text) : ℕ → List HeadingNode → List (ℕ × HeadingNode)
  | _, [] => []
  | searchStart, h :: headings =>
    match find rawText h.title searchStart with
    | none => headingPositions rawText searchStart headings
    | some idx => (idx, h) :: headingPositions rawText (idx + h.title.length) headings

/-- `raw_text[a:b]`. -/
def slice (rawText : Text) (a b : ℕ) : Text := (rawText.take b).drop a

/-- The headings in force, by level. -/
abbrev Active := OrderedDict ℕ Text

/-- A heading takes its level, and the deeper ones end. -/
def activeAfter (active : Active) (h : HeadingNode) : Active :=
  (active.set h.level h.title).filterKeys fun level => decide (level ≤ h.level)

def byLevel (a b : ℕ × Text) : Bool := decide (a.1 ≤ b.1)

def pathOf (active : Active) : List (ℕ × Text) := active.items.mergeSort byLevel

def breadcrumbOf (active : Active) : Text := join " > ".toList ((pathOf active).map Prod.snd)

def textEnd (rawText : Text) : List (ℕ × HeadingNode) → ℕ
  | [] => rawText.length
  | (pos, _) :: _ => pos

/-- Each heading found, with its breadcrumb and its content. -/
def contents (rawText : Text) : Active → List (ℕ × HeadingNode) → List (HeadingNode × Text × Text)
  | _, [] => []
  | active, (pos, h) :: rest =>
    let active' := activeAfter active h
    (h, breadcrumbOf active', strip (slice rawText (pos + h.title.length) (textEnd rawText rest))) ::
      contents rawText active' rest

/-- A heading without text has no section. -/
def sectionOf (c : HeadingNode × Text × Text) : Option Section :=
  if c.2.2 = [] then none else some ⟨c.2.1, some c.1, c.2.2⟩

def preambleOf (rawText : Text) (found : List (ℕ × HeadingNode)) : Text :=
  strip (slice rawText 0 (textEnd rawText found))

def splitIntoSections (rawText : Text) (headings : List HeadingNode) : List Section :=
  match headingPositions rawText 0 headings with
  | [] => [⟨[], none, rawText⟩]
  | found =>
    let preamble := preambleOf rawText found
    (if preamble = [] then [] else [⟨[], none, preamble⟩]) ++ (contents rawText .empty found).filterMap sectionOf

/-! ## §2. Where a heading is found. -/

theorem find_some {rawText title : Text} {start idx : ℕ} (h : find rawText title start = some idx) :
    start ≤ idx ∧ idx ≤ rawText.length ∧ title <+: rawText.drop idx := by
  have hmem := List.mem_of_find?_eq_some h
  have hfound := List.find?_some h
  rw [Bool.and_eq_true, decide_eq_true_eq] at hfound
  exact ⟨hfound.1, Nat.le_of_lt_succ (List.mem_range.mp hmem), List.isPrefixOf_iff_prefix.mp hfound.2⟩

/-- What is left from a heading on is its title and the rest. -/
theorem drop_found {rawText title : Text} {start idx : ℕ} (h : find rawText title start = some idx) :
    rawText.drop idx = title ++ rawText.drop (idx + title.length) := by
  obtain ⟨rest, hrest⟩ := (find_some h).2.2
  rw [← hrest, ← List.drop_drop, ← hrest, List.drop_left]

theorem drop_slice {rawText : Text} {a b : ℕ} (hab : a ≤ b) (hb : b ≤ rawText.length) :
    rawText.drop a = slice rawText a b ++ rawText.drop b := by
  have hle : a ≤ (rawText.take b).length := by
    rw [List.length_take]
    omega
  unfold slice
  rw [← List.drop_append_of_le_length hle, List.take_append_drop]

theorem contents_cons (rawText : Text) (active : Active) (pos : ℕ) (h : HeadingNode) (rest : List (ℕ × HeadingNode)) :
    contents rawText active ((pos, h) :: rest) =
      (h, breadcrumbOf (activeAfter active h), strip (slice rawText (pos + h.title.length) (textEnd rawText rest))) ::
        contents rawText (activeAfter active h) rest := rfl

/-- From where the search starts: what comes before the next heading found, then title and content of each. -/
theorem drop_contents (rawText : Text) (headings : List HeadingNode) :
    ∀ (start : ℕ) (active : Active),
      solid isSpace (rawText.drop start) =
        solid isSpace (slice rawText start (textEnd rawText (headingPositions rawText start headings))) ++
          (contents rawText active (headingPositions rawText start headings)).flatMap
            fun c => solid isSpace c.1.title ++ solid isSpace c.2.2 := by
  induction headings with
  | nil =>
    intro start active
    have hslice : slice rawText start rawText.length = rawText.drop start := by
      unfold slice
      rw [List.take_length]
    show solid isSpace (rawText.drop start) = solid isSpace (slice rawText start rawText.length) ++ []
    rw [hslice, List.append_nil]
  | cons h headings ih =>
    intro start active
    unfold headingPositions
    split
    · exact ih start active
    · next idx hidx =>
      obtain ⟨hstart, hlength, -⟩ := find_some hidx
      have hrest := ih (idx + h.title.length) (activeAfter active h)
      show solid isSpace (rawText.drop start) = solid isSpace (slice rawText start idx) ++ _
      rw [drop_slice hstart hlength, solid_append, drop_found hidx, solid_append, hrest, contents_cons, List.flatMap_cons]
      unfold strip
      rw [solid_stripBy]
      simp only [List.append_assoc]

theorem contents_headings (rawText : Text) (found : List (ℕ × HeadingNode)) :
    ∀ active, (contents rawText active found).map Prod.fst = found.map Prod.snd := by
  induction found with
  | nil => exact fun _ => rfl
  | cons entry found ih =>
    intro active
    rw [contents_cons, List.map_cons, List.map_cons, ih]

/-- A content without text has nothing to lose. -/
theorem sections_solid (parts : List (HeadingNode × Text × Text)) :
    (parts.filterMap sectionOf).flatMap (fun sec => solid isSpace sec.text) =
      parts.flatMap fun c => solid isSpace c.2.2 := by
  induction parts with
  | nil => rfl
  | cons c parts ih =>
    rw [List.flatMap_cons, ← ih]
    by_cases hempty : c.2.2 = []
    · have hnone : sectionOf c = none := if_pos hempty
      rw [List.filterMap_cons_none hnone, hempty, solid_nil, List.nil_append]
    · have hsome : sectionOf c = some ⟨c.2.1, some c.1, c.2.2⟩ := if_neg hempty
      rw [List.filterMap_cons_some hsome, List.flatMap_cons]

/-- **No text is lost.**  Up to white space the document is its preamble, then title and content of each heading
found, in this order; and the sections hold preamble and contents, each once. -/
theorem sections_keep_text (rawText : Text) (headings : List HeadingNode) :
    ∃ (preamble : Text) (parts : List (HeadingNode × Text × Text)),
      parts.map Prod.fst = (headingPositions rawText 0 headings).map Prod.snd ∧
      solid isSpace rawText =
        solid isSpace preamble ++ parts.flatMap (fun c => solid isSpace c.1.title ++ solid isSpace c.2.2) ∧
      (splitIntoSections rawText headings).flatMap (fun sec => solid isSpace sec.text) =
        solid isSpace preamble ++ parts.flatMap fun c => solid isSpace c.2.2 := by
  have hall := drop_contents rawText headings 0 .empty
  rw [List.drop_zero] at hall
  refine ⟨preambleOf rawText (headingPositions rawText 0 headings),
    contents rawText .empty (headingPositions rawText 0 headings), contents_headings _ _ _, ?_, ?_⟩
  · unfold preambleOf strip
    rw [solid_stripBy]
    exact hall
  · unfold splitIntoSections
    split
    · next hnone =>
      rw [hnone] at hall ⊢
      unfold preambleOf strip
      rw [solid_stripBy]
      show solid isSpace rawText ++ [] = _
      rw [List.append_nil]
      exact hall
    · rw [List.flatMap_append, sections_solid]
      congr 1
      split
      · next hempty =>
        rw [hempty]
        rfl
      · exact List.append_nil _

/-! ## §3. Breadcrumbs. -/

/-- The headings in force after those of a list. -/
def activeOf (headings : List HeadingNode) : Active := headings.foldl activeAfter .empty

/-- A heading of the list which none of its own level, or of a level above it, comes after. -/
def InForce (headings : List HeadingNode) (entry : ℕ × Text) : Prop :=
  ∃ before h after, headings = before ++ h :: after ∧ entry = (h.level, h.title) ∧ ∀ g ∈ after, h.level < g.level

theorem activeOf_concat (headings : List HeadingNode) (h : HeadingNode) :
    activeOf (headings ++ [h]) = activeAfter (activeOf headings) h := by
  unfold activeOf
  rw [List.foldl_append]
  rfl

theorem mem_activeAfter {active : Active} {h : HeadingNode} {entry : ℕ × Text} :
    entry ∈ (activeAfter active h).items ↔ entry = (h.level, h.title) ∨ (entry ∈ active.items ∧ entry.1 < h.level) := by
  obtain ⟨level, title⟩ := entry
  have hitems : (level, title) ∈ (activeAfter active h).items ↔
      (level, title) ∈ (active.set h.level h.title).items ∧ level ≤ h.level := by
    show (level, title) ∈ (active.set h.level h.title).items.filter _ ↔ _
    rw [List.mem_filter, decide_eq_true_eq]
  rw [hitems, OrderedDict.mem_set]
  constructor
  · rintro ⟨⟨rfl, rfl⟩ | ⟨hne, hmem⟩, hle⟩
    · exact .inl rfl
    · exact .inr ⟨hmem, Nat.lt_of_le_of_ne hle hne⟩
  · rintro (heq | ⟨hmem, hlt⟩)
    · obtain ⟨rfl, rfl⟩ := Prod.mk.inj heq
      exact ⟨.inl ⟨rfl, rfl⟩, Nat.le_refl _⟩
    · exact ⟨.inr ⟨Nat.ne_of_lt hlt, hmem⟩, Nat.le_of_lt hlt⟩

theorem inForce_concat {headings : List HeadingNode} {h : HeadingNode} {entry : ℕ × Text} :
    InForce (headings ++ [h]) entry ↔ entry = (h.level, h.title) ∨ (InForce headings entry ∧ entry.1 < h.level) := by
  constructor
  · rintro ⟨before, g, after, heq, rfl, hafter⟩
    rcases List.eq_nil_or_concat after with rfl | ⟨rest, last, rfl⟩
    · obtain ⟨-, hlast⟩ := List.append_inj' heq rfl
      obtain rfl := List.singleton_inj.mp hlast
      exact .inl rfl
    · rw [List.concat_eq_append, ← List.cons_append, ← List.append_assoc] at heq
      obtain ⟨rfl, hlast⟩ := List.append_inj' heq rfl
      obtain rfl := List.singleton_inj.mp hlast
      rw [List.concat_eq_append] at hafter
      refine .inr ⟨⟨before, g, rest, rfl, rfl, fun k hk => hafter k (List.mem_append_left _ hk)⟩, ?_⟩
      exact hafter h (List.mem_append_right _ (List.mem_singleton_self _))
  · rintro (rfl | ⟨⟨before, g, after, rfl, rfl, hafter⟩, hlt⟩)
    · exact ⟨headings, h, [], rfl, rfl, fun g hg => nomatch hg⟩
    · refine ⟨before, g, after ++ [h], by rw [List.append_assoc, List.cons_append], rfl, fun k hk => ?_⟩
      rcases List.mem_append.mp hk with hk | hk
      · exact hafter k hk
      · obtain rfl := List.mem_singleton.mp hk
        exact hlt

/-- The dictionary holds the headings in force. -/
theorem mem_activeOf (headings : List HeadingNode) (entry : ℕ × Text) :
    entry ∈ (activeOf headings).items ↔ InForce headings entry := by
  induction headings using List.reverseRecOn with
  | nil =>
    constructor
    · intro h
      cases h
    · rintro ⟨before, h, after, heq, -⟩
      cases before <;> cases heq
  | append_singleton headings h ih => rw [activeOf_concat, mem_activeAfter, inForce_concat, ih]

/-- The path is sorted, and no level is in it twice. -/
theorem pathOf_increasing (active : Active) : (pathOf active).Pairwise fun a b => a.1 < b.1 := by
  have hsorted : (pathOf active).Pairwise fun a b => byLevel a b = true := by
    refine List.pairwise_mergeSort (fun a b c hab hbc => ?_) (fun a b => ?_) _
    · exact decide_eq_true (Nat.le_trans (of_decide_eq_true hab) (of_decide_eq_true hbc))
    · unfold byLevel
      rw [Bool.or_eq_true, decide_eq_true_eq, decide_eq_true_eq]
      exact Nat.le_total a.1 b.1
  have hnodup : ((pathOf active).map Prod.fst).Nodup :=
    ((List.mergeSort_perm active.items byLevel).map Prod.fst).nodup_iff.mpr active.nodup
  refine (hsorted.and (List.pairwise_map.mp hnodup)).imp fun {a b} hab => ?_
  exact Nat.lt_of_le_of_ne (of_decide_eq_true hab.1) hab.2

theorem contents_path (rawText : Text) (found : List (ℕ × HeadingNode)) :
    ∀ (past : List HeadingNode) (c : HeadingNode × Text × Text), c ∈ contents rawText (activeOf past) found →
      ∃ before after, found.map Prod.snd = before ++ c.1 :: after ∧
        c.2.1 = breadcrumbOf (activeOf (past ++ before ++ [c.1])) := by
  induction found with
  | nil => exact fun _ _ h => nomatch h
  | cons entry found ih =>
    intro past c hc
    rw [contents_cons, ← activeOf_concat] at hc
    rcases List.mem_cons.mp hc with rfl | hc
    · exact ⟨[], found.map Prod.snd, rfl, by rw [List.append_nil]⟩
    · obtain ⟨before, after, hfound, hcrumb⟩ := ih (past ++ [entry.2]) c hc
      refine ⟨entry.2 :: before, after, by rw [List.map_cons, hfound, List.cons_append], ?_⟩
      rw [hcrumb, List.append_assoc past]
      rfl

/-- **A breadcrumb names what the section is under.**  For a section with a heading it is the titles of the headings
in force there, by increasing level, and the last is the section's own. -/
theorem breadcrumb_path {rawText : Text} {headings : List HeadingNode} {sec : Section} {h : HeadingNode}
    (hsec : sec ∈ splitIntoSections rawText headings) (hheading : sec.heading = some h) :
    ∃ (before after : List HeadingNode) (path : List (ℕ × Text)),
      (headingPositions rawText 0 headings).map Prod.snd = before ++ h :: after ∧
      sec.breadcrumb = join " > ".toList (path.map Prod.snd) ∧ path.Pairwise (fun a b => a.1 < b.1) ∧
      (∀ entry, entry ∈ path ↔ InForce (before ++ [h]) entry) ∧ path.getLast? = some (h.level, h.title) := by
  have hmem : ∃ c ∈ contents rawText .empty (headingPositions rawText 0 headings), sectionOf c = some sec := by
    unfold splitIntoSections at hsec
    split at hsec
    · obtain rfl := List.mem_singleton.mp hsec
      cases hheading
    · rcases List.mem_append.mp hsec with hsec | hsec
      · split at hsec
        · cases hsec
        · obtain rfl := List.mem_singleton.mp hsec
          cases hheading
      · exact List.mem_filterMap.mp hsec
  obtain ⟨c, hc, hsection⟩ := hmem
  obtain ⟨before, after, hfound, hcrumb⟩ := contents_path rawText _ [] c hc
  have hown : c.1 = h ∧ sec.breadcrumb = c.2.1 := by
    unfold sectionOf at hsection
    split at hsection
    · cases hsection
    · cases hsection
      exact ⟨Option.some.inj hheading, rfl⟩
  obtain ⟨rfl, hbreadcrumb⟩ := hown
  rw [List.nil_append] at hcrumb
  have hpath : ∀ entry, entry ∈ pathOf (activeOf (before ++ [c.1])) ↔ InForce (before ++ [c.1]) entry := fun entry =>
    List.mem_mergeSort.trans (mem_activeOf _ entry)
  refine ⟨before, after, pathOf (activeOf (before ++ [c.1])), hfound, hbreadcrumb.trans hcrumb, pathOf_increasing _,
    hpath, ?_⟩
  -- Every other heading in force has a level above it.
  have hmem := (hpath (c.1.level, c.1.title)).mpr (inForce_concat.mpr (.inl rfl))
  obtain ⟨pre, post, hsplit⟩ := List.append_of_mem hmem
  have hincreasing := pathOf_increasing (activeOf (before ++ [c.1]))
  rw [hsplit] at hincreasing ⊢
  cases post with
  | nil => rw [List.getLast?_concat]
  | cons next post =>
    exfalso
    have hlt : c.1.level < next.1 :=
      List.rel_of_pairwise_cons (List.pairwise_append.mp hincreasing).2.1 (List.mem_cons_self ..)
    have hnext : next ∈ pathOf (activeOf (before ++ [c.1])) := by
      rw [hsplit]
      exact List.mem_append_right _ (List.mem_cons_of_mem _ (List.mem_cons_self ..))
    rcases inForce_concat.mp ((hpath next).mp hnext) with rfl | ⟨-, habove⟩
    · exact Nat.lt_irrefl _ hlt
    · exact Nat.lt_asymm hlt habove

/-- Two headings, one under the other. -/
def shortDocument : Text := ['A', 'x', 'B', 'y']

def shortHeadings : List HeadingNode := [⟨1, ['A']⟩, ⟨2, ['B']⟩]

theorem breadcrumb_path_short : ∃ sec ∈ splitIntoSections shortDocument shortHeadings, ∃ path : List (ℕ × Text),
    sec.breadcrumb = join " > ".toList (path.map Prod.snd) ∧ (1, ['A']) ∈ path ∧ path.getLast? = some (2, ['B']) := by
  have hsecond : (splitIntoSections shortDocument shortHeadings)[1]? =
      some ⟨breadcrumbOf (activeOf shortHeadings), some ⟨2, ['B']⟩, ['y']⟩ := rfl
  have hsec := List.mem_of_getElem? hsecond
  obtain ⟨before, after, path, hfound, hcrumb, -, hpath, hlast⟩ := breadcrumb_path hsec rfl
  refine ⟨_, hsec, path, hcrumb, (hpath _).mpr ?_, hlast⟩
  have hall : shortHeadings = before ++ ⟨2, ['B']⟩ :: after := hfound
  obtain ⟨first, rfl⟩ : ∃ first, before = [first] := by
    match before, hall with
    | [], h => cases h
    | [first], _ => exact ⟨first, rfl⟩
    | _ :: _ :: rest, h =>
      have hlength := congrArg List.length h
      simp only [shortHeadings, List.length_cons, List.length_nil, List.length_append] at hlength
      omega
  cases hall
  exact ⟨[], ⟨1, ['A']⟩, [⟨2, ['B']⟩], rfl, rfl, by decide⟩

/-! ## §4. Chunks. -/

/-- The splitter and the tokens, which are not the repository's. -/
structure Tokenizer where
  splitText : Text → List Text
  encode : Text → List ℕ
  decode : List ℕ → Text
  chunkSize : ℕ

structure Leaf where
  text : Text
  tokenCount : ℕ
  headingBreadcrumb : Option Text
  chunkIndex : ℕ
  deriving DecidableEq, Repr

structure Parent where
  text : Text
  tokenCount : ℕ
  headingBreadcrumb : Option Text
  chunkIndex : ℕ
  childCount : ℕ
  children : List Leaf
  deriving DecidableEq, Repr

/-- `breadcrumb or None`. -/
def crumbOf (sec : Section) : Option Text := if sec.breadcrumb = [] then none else some sec.breadcrumb

def Tokenizer.leaf (t : Tokenizer) (crumb : Option Text) (index : ℕ) (text : Text) : Leaf :=
  ⟨text, (t.encode text).length, crumb, index⟩

def Tokenizer.leavesFrom (t : Tokenizer) (crumb : Option Text) : ℕ → List Text → List Leaf
  | _, [] => []
  | index, text :: texts => t.leaf crumb index text :: t.leavesFrom crumb (index + 1) texts

/-- The parent's text and tokens: of all leaves, as far as a chunk goes. -/
def Tokenizer.parentText (t : Tokenizer) (leafTexts : List Text) : Text × ℕ :=
  let text := join ['\n', '\n'] leafTexts
  let tokens := t.encode text
  if t.chunkSize < tokens.length then (t.decode (tokens.take t.chunkSize), (tokens.take t.chunkSize).length)
  else (text, tokens.length)

/-- The chunks of one section, from the number `index` on. -/
def Tokenizer.chunkSection (t : Tokenizer) (index : ℕ) (sec : Section) : Parent :=
  match t.splitText sec.text with
  | [only] => ⟨only, (t.encode only).length, crumbOf sec, index, 0, []⟩
  | leafTexts =>
    let leaves := t.leavesFrom (crumbOf sec) index leafTexts
    let parent := t.parentText leafTexts
    ⟨parent.1, parent.2, crumbOf sec, index + leaves.length, leaves.length, leaves⟩

def Tokenizer.chunkSections (t : Tokenizer) : ℕ → List Section → List Parent
  | _, [] => []
  | index, sec :: sections =>
    let parent := t.chunkSection index sec
    parent :: t.chunkSections (parent.chunkIndex + 1) sections

def Tokenizer.chunkDocument (t : Tokenizer) (rawText : Text) (headings : List HeadingNode) : List Parent :=
  t.chunkSections 0 (splitIntoSections rawText headings)

/-- The numbers of a parent and its leaves, in the order they are given. -/
def Parent.indices (p : Parent) : List ℕ := p.children.map Leaf.chunkIndex ++ [p.chunkIndex]

section Indices

variable (t : Tokenizer)

theorem leavesFrom_indices (crumb : Option Text) (texts : List Text) :
    ∀ index, (t.leavesFrom crumb index texts).map Leaf.chunkIndex = List.range' index texts.length := by
  induction texts with
  | nil => exact fun _ => rfl
  | cons text texts ih =>
    intro index
    show index :: (t.leavesFrom crumb (index + 1) texts).map Leaf.chunkIndex = _
    rw [ih, List.length_cons, List.range'_succ]

theorem leavesFrom_length (crumb : Option Text) (texts : List Text) (index : ℕ) :
    (t.leavesFrom crumb index texts).length = texts.length := by
  rw [← List.length_map Leaf.chunkIndex, leavesFrom_indices, List.length_range']

/-- A section takes the numbers from the first free one on, its parent the last of them. -/
theorem chunkSection_indices (index : ℕ) (sec : Section) :
    (t.chunkSection index sec).chunkIndex = index + (t.chunkSection index sec).children.length ∧
      (t.chunkSection index sec).indices = List.range' index ((t.chunkSection index sec).children.length + 1) := by
  unfold Tokenizer.chunkSection
  split
  · exact ⟨rfl, rfl⟩
  · refine ⟨rfl, ?_⟩
    unfold Parent.indices
    dsimp only
    rw [leavesFrom_indices, leavesFrom_length, List.range'_concat, Nat.one_mul]

theorem chunkSections_indices (sections : List Section) :
    ∀ index, (t.chunkSections index sections).flatMap Parent.indices =
      List.range' index ((t.chunkSections index sections).flatMap Parent.indices).length := by
  induction sections with
  | nil => exact fun _ => rfl
  | cons sec sections ih =>
    intro index
    obtain ⟨hlast, hown⟩ := chunkSection_indices t index sec
    show (t.chunkSection index sec).indices ++
        (t.chunkSections ((t.chunkSection index sec).chunkIndex + 1) sections).flatMap Parent.indices =
      List.range' index ((t.chunkSection index sec).indices ++
        (t.chunkSections ((t.chunkSection index sec).chunkIndex + 1) sections).flatMap Parent.indices).length
    rw [List.length_append, hown, List.length_range', hlast, ih, List.length_range', Nat.add_assoc index]
    exact List.range'_append_1 ..

theorem chunkSections_children (sections : List Section) :
    ∀ index, ∀ p ∈ t.chunkSections index sections, p.childCount = p.children.length ∧
      (p.children ≠ [] → p.tokenCount ≤ t.chunkSize) := by
  induction sections with
  | nil => exact fun _ _ hp => nomatch hp
  | cons sec sections ih =>
    intro index p hp
    rcases List.mem_cons.mp hp with rfl | hp
    · unfold Tokenizer.chunkSection
      split
      · exact ⟨rfl, fun h => absurd rfl h⟩
      · refine ⟨rfl, fun _ => ?_⟩
        unfold Tokenizer.parentText
        dsimp only
        split
        · exact List.length_take_le _ _
        · exact Nat.le_of_not_lt ‹_›
    · exact ih _ p hp

/-- **The chunks of a document are numbered in order.**  The numbers of all leaves and parents, in the order they are
stored, count up from zero; a parent counts its leaves, and where it has any it is no longer than a chunk. -/
theorem indices_count (rawText : Text) (headings : List HeadingNode) :
    (t.chunkDocument rawText headings).flatMap Parent.indices =
        List.range ((t.chunkDocument rawText headings).flatMap Parent.indices).length ∧
      ∀ p ∈ t.chunkDocument rawText headings, p.childCount = p.children.length ∧
        (p.children ≠ [] → p.tokenCount ≤ t.chunkSize) := by
  refine ⟨?_, chunkSections_children t _ 0⟩
  rw [List.range_eq_range']
  exact chunkSections_indices t _ 0

end Indices

end RagPipeline.Chunking.Hierarchical
