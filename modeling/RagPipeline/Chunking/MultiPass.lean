/-
  RagPipeline.Chunking.MultiPass — the second pass of the multi-pass chunker.

  The first pass has scored the lines and found the headings (`Boundary`).  The second pass carves the
  lines between two headings into sections (`carve`), nests the sections by level (`nest`), walks the
  tree (`walk`) and turns each section with a body into chunks: a body that is too long is split at blank
  lines and sentence ends (`smartSplit`), and a chunk that is too short goes into its predecessor
  (`absorb`).

  A text is a list of characters.  The chunk's number, kind and metadata are left out: nothing reads them.
-/
import RagPipeline.Lib.Strip
import Mathlib.Data.List.Sort
import Mathlib.Data.List.Dedup

namespace RagPipeline.Chunking

open RagPipeline.Lib

/-! ## §1. Data. -/

abbrev Text := List Char

/-- `s.strip()`. -/
def strip (t : Text) : Text := stripBy isSpace t

/-- `sep.join(parts)`. -/
def join (sep : Text) (parts : List Text) : Text := sep.intercalate parts

/-- `ChunkerConfig`. -/
structure ChunkerConfig where
  maxChunkTokens : Nat := 512
  minChunkTokens : Nat := 40
  charsPerToken : Nat := 4

/-- `RawLine`: what the second pass reads of it. -/
structure RawLine where
  text : Text
  page : Nat
  lineIndex : Nat

/-- `Boundary`: a line that is a heading. -/
structure Boundary where
  lineIndex : Nat
  text : Text
  level : Nat
  page : Nat

/-- `Section`, without its children. -/
structure Section where
  heading : Text
  level : Nat
  contentLines : List RawLine
  pageStart : Nat
  pageEnd : Nat

/-- A section with its children. -/
inductive SectionTree where
  | node (sect : Section) (children : List SectionTree)

/-- What `_walk` emits: a body under its headings. -/
structure Raw where
  text : Text
  contextPath : List Text
  pages : List Nat

/-- `ChunkResult`. -/
structure ChunkResult where
  text : Text
  contextPath : List Text
  contextHeader : Text
  fullText : Text
  pageNumbers : List Nat
  tokenEstimate : Nat

/-! ## §2. Carve. -/

/-- `sorted(set(…))`. -/
def sortedPages (pages : List Nat) : List Nat := pages.dedup.insertionSort (· ≤ ·)

/-- A section of some lines; `lone` is the page when there is none. -/
def sectionOf (heading : Text) (level : Nat) (content all : List RawLine) (lone : Nat) : Section :=
  let pages := sortedPages (all.map (·.page))
  { heading := heading
    level := level
    contentLines := content
    pageStart := pages.headD lone
    pageEnd := pages.getLastD lone }

/-- Where the section of `b` ends: at the next heading, else after the last line. -/
def sectionEnd (lines : List RawLine) (b : Boundary) (next : Option Boundary) : Nat :=
  match next, lines.getLast? with
  | some b', _ => b'.lineIndex
  | none, some l => l.lineIndex + 1
  | none, none => b.lineIndex + 1

/-- The sections of the headings. -/
def carveFrom (lines : List RawLine) : List Boundary → List Section
  | [] => []
  | b :: rest =>
      let stop := sectionEnd lines b rest.head?
      let content := lines.filter fun l => decide (b.lineIndex + 1 ≤ l.lineIndex) && decide (l.lineIndex < stop)
      let all := lines.filter fun l => decide (b.lineIndex ≤ l.lineIndex) && decide (l.lineIndex < stop)
      sectionOf (strip b.text) b.level content all b.page :: carveFrom lines rest

/-- `_carve`. -/
def carve (lines : List RawLine) (boundaries : List Boundary) : List Section :=
  match boundaries with
  | [] => [sectionOf "(Document)".toList 1 lines lines 1]
  | b :: _ =>
      let preamble := lines.filter fun l => decide (l.lineIndex < b.lineIndex)
      (if preamble.isEmpty then [] else [sectionOf "(Preamble)".toList 1 preamble preamble 1])
        ++ carveFrom lines boundaries

/-! ## §3. Nest. -/

/-- The open sections, innermost first, each with its closed children; and the closed roots. -/
structure Nesting where
  root : List SectionTree := []
  stack : List (Section × List SectionTree) := []

/-- `stack.pop()`: the innermost open section is a child of the next one, or a root. -/
def closeTop (root : List SectionTree) : List (Section × List SectionTree) → Nesting
  | [] => ⟨root, []⟩
  | [(s, children)] => ⟨root ++ [.node s children], []⟩
  | (s, children) :: (parent, siblings) :: rest => ⟨root, (parent, siblings ++ [.node s children]) :: rest⟩

/-- `while stack and stack[-1][0] >= s.level: stack.pop()`. -/
def popTo (level : Nat) : Nat → Nesting → Nesting
  | 0, n => n
  | fuel + 1, n => match n.stack with
      | [] => n
      | (top, _) :: _ => if top.level ≥ level then popTo level fuel (closeTop n.root n.stack) else n

/-- One turn of the loop of `_nest`. -/
def nestStep (n : Nesting) (s : Section) : Nesting :=
  let n := popTo s.level n.stack.length n
  { n with stack := (s, []) :: n.stack }

/-- The sections that are open at the end stay where they are. -/
def closeAll : Nat → Nesting → List SectionTree
  | 0, n => n.root
  | fuel + 1, n => closeAll fuel (closeTop n.root n.stack)

/-- `_nest`. -/
def nest (flat : List Section) : List SectionTree :=
  let n := flat.foldl nestStep {}
  closeAll n.stack.length n

/-! ## §4. Walk. -/

/-- The body of a section. -/
def bodyText (s : Section) : Text := strip (join ['\n'] (s.contentLines.map (·.text)))

/-- What a section emits itself. -/
def emit (path : List Text) (s : Section) : List Raw :=
  let pages := if s.contentLines.isEmpty then [s.pageStart] else sortedPages (s.contentLines.map (·.page))
  if (bodyText s).isEmpty then [] else [⟨bodyText s, path, pages⟩]

mutual

/-- `_walk`, of one section. -/
def walkOne (path : List Text) : SectionTree → List Raw
  | .node s children => emit (path ++ [s.heading]) s ++ walk (path ++ [s.heading]) children

/-- `_walk`. -/
def walk (path : List Text) : List SectionTree → List Raw
  | [] => []
  | t :: ts => walkOne path t ++ walk path ts

end

/-! ## §5. Split. -/

/-- `re.split(r'\n\n+', text)`; `inSep` inside a run that separates. -/
def splitParas : Bool → Text → Text → List Text
  | _, cur, [] => [cur]
  | true, cur, c :: rest => if c = '\n' then splitParas true cur rest else splitParas false (cur ++ [c]) rest
  | false, cur, '\n' :: '\n' :: rest => cur :: splitParas true [] rest
  | false, cur, c :: rest => splitParas false (cur ++ [c]) rest

/-- A sentence ends here. -/
def endsSentence (c : Char) : Bool := c = '.' || c = '!' || c = '?'

/-- `re.split(r'(?<=[.!?])\s+', p)`; `ended` right after a sentence's last character. -/
def splitSents : Bool → Bool → Text → Text → List Text
  | _, _, cur, [] => [cur]
  | true, _, cur, c :: rest =>
      if isSpace c then splitSents true false cur rest else splitSents false (endsSentence c) (cur ++ [c]) rest
  | false, ended, cur, c :: rest =>
      if ended && isSpace c then cur :: splitSents true false [] rest
      else splitSents false (endsSentence c) (cur ++ [c]) rest

/-- The pieces so far, and the one that grows. -/
structure Pieces where
  pieces : List Text := []
  cur : Text := []

/-- `if cur: pieces.append(cur)`. -/
def Pieces.flush (ps : Pieces) : List Text := if ps.cur.isEmpty then ps.pieces else ps.pieces ++ [ps.cur]

/-- One sentence of a long paragraph. -/
def sentStep (maxChars : Nat) (ps : Pieces) (s : Text) : Pieces :=
  let c2 := if ps.cur.isEmpty then s else strip (ps.cur ++ [' '] ++ s)
  if c2.length ≤ maxChars then { ps with cur := c2 } else ⟨ps.flush, s⟩

/-- One paragraph. -/
def paraStep (maxChars : Nat) (ps : Pieces) (p : Text) : Pieces :=
  let cand := if ps.cur.isEmpty then p else strip (ps.cur ++ ['\n', '\n'] ++ p)
  if cand.length ≤ maxChars then { ps with cur := cand }
  else if p.length > maxChars then (splitSents false false [] p).foldl (sentStep maxChars) ⟨ps.flush, []⟩
  else ⟨ps.flush, p⟩

/-- `_smart_split`. -/
def smartSplit (maxChars : Nat) (text : Text) : List Text :=
  ((splitParas false [] text).foldl (paraStep maxChars) {}).flush

/-! ## §6. Merge. -/

namespace ChunkerConfig

/-- `max_chars`. -/
def maxChars (cfg : ChunkerConfig) : Nat := cfg.maxChunkTokens * cfg.charsPerToken

/-- `_est`. -/
def est (cfg : ChunkerConfig) (t : Text) : Nat := max 1 (t.length / cfg.charsPerToken)

end ChunkerConfig

/-- The header of a path: each heading one step further in. -/
def headerOf (path : List Text) : Text :=
  join ['\n'] (path.mapIdx fun i h => List.replicate (2 * i) ' ' ++ ['>', ' '] ++ h)

/-- The text under its header. -/
def fullOf (raw : Raw) : Text :=
  let hdr := headerOf raw.contextPath
  if hdr.isEmpty then raw.text else strip (hdr ++ ['\n', '\n'] ++ raw.text)

/-- `_make_chunk`. -/
def makeChunk (cfg : ChunkerConfig) (raw : Raw) : ChunkResult :=
  { text := raw.text
    contextPath := raw.contextPath
    contextHeader := headerOf raw.contextPath
    fullText := fullOf raw
    pageNumbers := raw.pages
    tokenEstimate := cfg.est (fullOf raw) }

/-- `same_parent`. -/
def sameParent (path prev : List Text) : Bool :=
  if 1 < path.length ∧ 1 < prev.length then decide (path.dropLast = prev.dropLast) else decide (path = prev)

/-- A chunk with the next one in it. -/
def mergeInto (cfg : ChunkerConfig) (prev chunk : ChunkResult) : ChunkResult :=
  let merged := prev.text ++ ['\n'] ++ chunk.text
  let full := prev.contextHeader ++ ['\n', '\n'] ++ merged
  { prev with
    text := merged
    fullText := full
    tokenEstimate := cfg.est full
    pageNumbers := sortedPages (prev.pageNumbers ++ chunk.pageNumbers) }

/-- One turn of the loop of `_postprocess`; 1.2 times the limit is `6/5` of it. -/
def absorb (cfg : ChunkerConfig) (final : List ChunkResult) (raw : Raw) : List ChunkResult :=
  let chunk := makeChunk cfg raw
  match final.getLast? with
  | none => final ++ [chunk]
  | some prev =>
      if chunk.tokenEstimate < cfg.minChunkTokens ∧ sameParent chunk.contextPath prev.contextPath
          ∧ 5 * cfg.est (prev.text ++ ['\n'] ++ chunk.text) ≤ 6 * cfg.maxChunkTokens then
        final.dropLast ++ [mergeInto cfg prev chunk]
      else final ++ [chunk]

/-- The bodies, the long ones in pieces. -/
def expand (cfg : ChunkerConfig) (raw : List Raw) : List Raw :=
  raw.flatMap fun rc =>
    if rc.text.length ≤ cfg.maxChars then [rc]
    else (smartSplit cfg.maxChars rc.text).map fun piece => { rc with text := piece }

/-- `_postprocess`. -/
def postprocess (cfg : ChunkerConfig) (raw : List Raw) : List ChunkResult :=
  (expand cfg raw).foldl (absorb cfg) []

/-- **`build_and_chunk`.** -/
def buildAndChunk (cfg : ChunkerConfig) (lines : List RawLine) (boundaries : List Boundary) : List ChunkResult :=
  postprocess cfg (walk [] (nest (carve lines boundaries)))

end RagPipeline.Chunking
