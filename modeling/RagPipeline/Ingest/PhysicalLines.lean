/-
  RagPipeline.Ingest.PhysicalLines — what the parser makes of the lines that a file has.

  A physical line ends at LF or CRLF.  `str.splitlines` also ends a line at a lone CR, VT, FF, the separators
  FS to RS, NEL, U+2028 and U+2029: an odd break.

    * `length_splitLines`  — every odd break is one line more;
    * `join_rawBodies`     — the records put together are the lines from the first header on;
    * `parse_physical_iff` — the parser is lossless over physical lines, and compositional, exactly without odd
                             breaks.
-/
import RagPipeline.Ingest.ChunkCuts

namespace RagPipeline.Ingest

open RagPipeline.Lib RagPipeline.Stage2

/-! ## §1. Physical lines. -/

/-- The lines of a file, `cur` being what the first one has so far. -/
def physicalLines : LogText → LogText → List LogText
  | cur, [] => if cur.isEmpty then [] else [cur]
  | cur, '\r' :: '\n' :: rest => cur :: physicalLines [] rest
  | cur, c :: rest => if c = '\n' then cur :: physicalLines [] rest else physicalLines (cur ++ [c]) rest

/-- How many breaks end no physical line. -/
def oddBreaks : LogText → ℕ
  | [] => 0
  | '\r' :: '\n' :: rest => oddBreaks rest
  | c :: rest => (if isLineBreak c = true ∧ c ≠ '\n' then 1 else 0) + oddBreaks rest

/-- What follows the last physical line that is ended. -/
def openLine : LogText → LogText → LogText
  | cur, [] => cur
  | _, '\r' :: '\n' :: rest => openLine [] rest
  | cur, c :: rest => if c = '\n' then openLine [] rest else openLine (cur ++ [c]) rest

/-- `'\n'.join`. -/
def joinLines (lines : List LogText) : LogText := List.intercalate ['\n'] lines

/-- No character of it ends a line. -/
def BreakFree (t : LogText) : Prop := ∀ c ∈ t, isLineBreak c = false

section Cons

variable {c : Char} {rest : LogText} (h : ∀ r, c = '\r' → rest = '\n' :: r → False)

include h

theorem physicalLines_cons (cur : LogText) : physicalLines cur (c :: rest) =
    if c = '\n' then cur :: physicalLines [] rest else physicalLines (cur ++ [c]) rest := by
  rw [physicalLines]
  exact h

theorem oddBreaks_cons : oddBreaks (c :: rest) =
    (if isLineBreak c = true ∧ c ≠ '\n' then 1 else 0) + oddBreaks rest := by
  rw [oddBreaks]
  exact h

theorem openLine_cons (cur : LogText) : openLine cur (c :: rest) =
    if c = '\n' then openLine [] rest else openLine (cur ++ [c]) rest := by
  rw [openLine]
  exact h

end Cons

theorem isLineBreak_newline : isLineBreak '\n' = true := rfl

/-! ## §2. Both readings. -/

/-- **Without odd breaks** the two readings are one. -/
theorem splitLines_eq (cur t : LogText) (h : oddBreaks t = 0) : splitLines cur t = physicalLines cur t := by
  fun_induction splitLines cur t with
  | case1 cur hempty => rw [physicalLines, if_pos hempty]
  | case2 cur hne => rw [physicalLines, if_neg hne]
  | case3 cur rest ih => exact congrArg (cur :: ·) (ih h)
  | case4 cur c rest hnot hc ih =>
    rw [oddBreaks_cons hnot] at h
    by_cases hcn : c = '\n'
    · rw [physicalLines_cons hnot, if_pos hcn, ih (by omega)]
    · rw [if_pos ⟨hc, hcn⟩] at h
      omega
  | case5 cur c rest hnot hc ih =>
    have hcn : c ≠ '\n' := fun hcn => hc (hcn ▸ isLineBreak_newline)
    rw [oddBreaks_cons hnot] at h
    rw [physicalLines_cons hnot, if_neg hcn, ih (by omega)]

/-- **Every odd break is one line more**, where the text does not end behind one.  Between two odd breaks the
reading of the code begins a line anew; the physical line has the break in it. -/
theorem length_splitLines (cur cur' t : LogText) (hcur : cur' = cur ∨ ¬BreakFree cur')
    (hopen : BreakFree (openLine cur' t)) :
    (splitLines cur t).length = (physicalLines cur' t).length + oddBreaks t := by
  -- on the splitter, whose open line may already hold a break that the reader ignores
  fun_induction splitLines cur t generalizing cur' with
  | case1 cur hempty =>
    have heq := hcur.resolve_right (not_not_intro hopen)
    rw [heq, physicalLines, if_pos hempty]
    rfl
  | case2 cur hne =>
    have heq := hcur.resolve_right (not_not_intro hopen)
    rw [heq, physicalLines, if_neg hne]
    rfl
  | case3 cur rest ih =>
    have hrest := ih [] (Or.inl rfl) hopen
    show (splitLines [] rest).length + 1 = (physicalLines [] rest).length + 1 + oddBreaks rest
    omega
  | case4 cur c rest hnot hc ih =>
    rw [openLine_cons hnot] at hopen
    rw [physicalLines_cons hnot, oddBreaks_cons hnot, List.length_cons]
    by_cases hcn : c = '\n'
    · rw [if_pos hcn] at hopen ⊢
      have hrest := ih [] (Or.inl rfl) hopen
      rw [if_neg fun h => h.2 hcn, List.length_cons]
      omega
    · rw [if_neg hcn] at hopen ⊢
      have hbreak : ¬BreakFree (cur' ++ [c]) := fun h =>
        absurd hc (by simp [h c (List.mem_append_right _ List.mem_cons_self)])
      have hrest := ih (cur' ++ [c]) (Or.inr hbreak) hopen
      rw [if_pos ⟨hc, hcn⟩]
      omega
  | case5 cur c rest hnot hc ih =>
    have hcn : c ≠ '\n' := fun hcn => hc (hcn ▸ isLineBreak_newline)
    rw [openLine_cons hnot, if_neg hcn] at hopen
    rw [physicalLines_cons hnot, oddBreaks_cons hnot, if_neg hcn, if_neg fun h => hc h.1, Nat.zero_add]
    refine ih (cur' ++ [c]) ?_ hopen
    exact hcur.imp (congrArg (· ++ [c])) fun h hfree => h fun d hd => hfree d (List.mem_append_left _ hd)

/-- The lines of the code's reading have no break in them. -/
theorem breakFree_splitLines (cur t : LogText) (hcur : BreakFree cur) : ∀ l ∈ splitLines cur t, BreakFree l := by
  have hnil : BreakFree [] := fun c hc => absurd hc List.not_mem_nil
  fun_induction splitLines cur t with
  | case1 cur hempty => exact fun l hl => absurd hl List.not_mem_nil
  | case2 cur hne => exact fun l hl => List.mem_singleton.mp hl ▸ hcur
  | case3 cur rest ih => exact List.forall_mem_cons.mpr ⟨hcur, ih hnil⟩
  | case4 cur c rest hnot hc ih => exact List.forall_mem_cons.mpr ⟨hcur, ih hnil⟩
  | case5 cur c rest hnot hc ih =>
    refine ih fun d hd => ?_
    cases List.mem_append.mp hd with
    | inl hold => exact hcur d hold
    | inr hlast => exact List.mem_singleton.mp hlast ▸ Bool.eq_false_iff.mpr hc

/-- No physical line has a newline in it. -/
theorem newline_not_mem_physical (cur t : LogText) (hcur : '\n' ∉ cur) : ∀ l ∈ physicalLines cur t, '\n' ∉ l := by
  fun_induction physicalLines cur t with
  | case1 cur hempty => exact fun l hl => absurd hl List.not_mem_nil
  | case2 cur hne => exact fun l hl => List.mem_singleton.mp hl ▸ hcur
  | case3 cur rest ih => exact List.forall_mem_cons.mpr ⟨hcur, ih List.not_mem_nil⟩
  | case4 cur rest hnot ih => exact List.forall_mem_cons.mpr ⟨hcur, ih List.not_mem_nil⟩
  | case5 cur c rest hnot hc ih =>
    refine ih fun hmem => ?_
    cases List.mem_append.mp hmem with
    | inl hold => exact hcur hold
    | inr hlast => exact hc (List.mem_singleton.mp hlast).symm

/-- The last physical line is the open one, if it is not empty. -/
theorem getLast?_physicalLines (cur t : LogText) (h : openLine cur t ≠ []) :
    (physicalLines cur t).getLast? = some (openLine cur t) := by
  have hcons : ∀ {cur rest : LogText}, (physicalLines [] rest).getLast? = some (openLine [] rest) →
      (cur :: physicalLines [] rest).getLast? = some (openLine [] rest) := by
    intro cur rest hrest
    rw [List.getLast?_cons, hrest]
    rfl
  fun_induction physicalLines cur t with
  | case1 cur hempty => exact absurd (List.isEmpty_iff.mp hempty) h
  | case2 cur hne => rfl
  | case3 cur rest ih => exact hcons (ih h)
  | case4 cur rest hnot ih =>
    rw [openLine_cons hnot, if_pos rfl] at h ⊢
    exact hcons (ih h)
  | case5 cur c rest hnot hc ih =>
    rw [openLine_cons hnot, if_neg hc] at h ⊢
    exact ih h

/-- A text that ends with a newline leaves no line open. -/
theorem openLine_newline (cur : LogText) {t : LogText} (h : t.getLast? = some '\n') : openLine cur t = [] := by
  have hrest : ∀ {c : Char} {rest : LogText}, (c :: rest).getLast? = some '\n' → rest ≠ [] →
      rest.getLast? = some '\n' := by
    intro c rest hlast hne
    rwa [List.getLast?_cons, List.getLast?_eq_some_getLast hne, Option.getD_some,
      ← List.getLast?_eq_some_getLast hne] at hlast
  fun_induction openLine cur t with
  | case1 cur => cases h
  | case2 cur rest ih =>
    by_cases hnil : rest = []
    · rw [hnil]
      rfl
    · exact ih (hrest (hrest h (List.cons_ne_nil _ _)) hnil)
  | case3 cur rest hnot ih =>
    by_cases hnil : rest = []
    · rw [hnil]
      rfl
    · exact ih (hrest h hnil)
  | case4 cur c rest hnot hc ih =>
    by_cases hnil : rest = []
    · rw [hnil] at h
      exact absurd (Option.some.inj h) hc
    · exact ih (hrest h hnil)

/-! ## §3. Joined lines. -/

theorem joinLines_singleton (l : LogText) : joinLines [l] = l := by simp [joinLines, List.intercalate]

theorem joinLines_append {xs ys : List LogText} (hx : xs ≠ []) (hy : ys ≠ []) :
    joinLines (xs ++ ys) = joinLines xs ++ '\n' :: joinLines ys := by
  induction xs with
  | nil => exact absurd rfl hx
  | cons x xs ih =>
    cases xs with
    | nil =>
      cases ys with
      | nil => exact absurd rfl hy
      | cons y ys => simp [joinLines, List.intercalate]
    | cons x' xs =>
      have hrest := ih (List.cons_ne_nil x' xs)
      have hcons : ∀ l : List LogText, joinLines (x :: x' :: l) = x ++ '\n' :: joinLines (x' :: l) := fun l => by
        simp [joinLines, List.intercalate]
      show joinLines (x :: x' :: (xs ++ ys)) = _
      rw [hcons, hcons]
      show x ++ '\n' :: joinLines (x' :: xs ++ ys) = _
      rw [hrest, List.append_assoc]
      rfl

theorem joinLines_cons (x : LogText) {xs : List LogText} (h : xs ≠ []) :
    joinLines (x :: xs) = x ++ '\n' :: joinLines xs := by
  have happend := joinLines_append (List.cons_ne_nil x []) h
  rw [joinLines_singleton] at happend
  exact happend

/-- The newlines of a join are between its lines. -/
theorem count_joinLines {lines : List LogText} (hne : lines ≠ []) (h : ∀ l ∈ lines, '\n' ∉ l) :
    (joinLines lines).count '\n' + 1 = lines.length := by
  induction lines with
  | nil => exact absurd rfl hne
  | cons l lines ih =>
    have hl : l.count '\n' = 0 := List.count_eq_zero.mpr (h l List.mem_cons_self)
    by_cases hnil : lines = []
    · subst hnil
      rw [joinLines_singleton, hl]
      rfl
    · have hrest := ih hnil fun l' hl' => h l' (List.mem_cons_of_mem _ hl')
      rw [joinLines_cons l hnil, List.count_append, List.count_cons_self, hl, List.length_cons]
      omega

theorem mem_joinLines {lines : List LogText} {c : Char} (hc : c ∈ joinLines lines) :
    c = '\n' ∨ ∃ l ∈ lines, c ∈ l := by
  induction lines with
  | nil => cases hc
  | cons l lines ih =>
    by_cases hnil : lines = []
    · subst hnil
      rw [joinLines_singleton] at hc
      exact Or.inr ⟨l, List.mem_cons_self, hc⟩
    · rw [joinLines_cons l hnil] at hc
      cases List.mem_append.mp hc with
      | inl hmem => exact Or.inr ⟨l, List.mem_cons_self, hmem⟩
      | inr hrest =>
        cases List.mem_cons.mp hrest with
        | inl hnewline => exact Or.inl hnewline
        | inr hmem => exact (ih hmem).imp_right fun ⟨l', hl', hin⟩ => ⟨l', List.mem_cons_of_mem _ hl', hin⟩

theorem subset_joinLines {lines : List LogText} {l : LogText} (hl : l ∈ lines) : l ⊆ joinLines lines := by
  induction lines with
  | nil => cases hl
  | cons l' lines ih =>
    intro c hc
    by_cases hnil : lines = []
    · subst hnil
      rw [joinLines_singleton]
      exact List.mem_singleton.mp hl ▸ hc
    · rw [joinLines_cons l' hnil]
      cases List.mem_cons.mp hl with
      | inl heq => exact List.mem_append_left _ (heq ▸ hc)
      | inr hmem => exact List.mem_append_right _ (List.mem_cons_of_mem _ (ih hmem hc))

/-! ## §4. Entries and their lines. -/

section Entries

variable {Hash : Type} (w : ParserWorld Hash)

/-- The numbers of the header lines, counted from `idx`. -/
def headerNumbers : ℕ → List LogText → List ℕ
  | _, [] => []
  | idx, l :: lines => if isHeader w l then idx :: headerNumbers (idx + 1) lines else headerNumbers (idx + 1) lines

/-- From the first header line on. -/
def fromHeader (lines : List LogText) : List LogText := lines.dropWhile fun l => !isHeader w l

theorem header_ne_nil {l : LogText} (h : isHeader w l = true) : l ≠ [] := by
  rintro rfl
  cases h

theorem fromHeader_eq_nil {lines : List LogText} : fromHeader w lines = [] ↔ ∀ l ∈ lines, isHeader w l = false := by
  unfold fromHeader
  rw [List.dropWhile_eq_nil_iff]
  simp

/-- The join from a header on is not empty. -/
theorem joinLines_fromHeader {lines : List LogText} (h : joinLines (fromHeader w lines) = []) :
    fromHeader w lines = [] := by
  cases hlines : fromHeader w lines with
  | nil => rfl
  | cons l rest =>
    have hl : isHeader w l = true := by
      have hhead := List.head?_dropWhile_not (fun l => !isHeader w l) lines
      unfold fromHeader at hlines
      rw [hlines] at hhead
      simpa using hhead
    rw [hlines] at h
    have hsub := subset_joinLines (show l ∈ l :: rest from List.mem_cons_self)
    rw [h] at hsub
    exact absurd (List.subset_nil.mp hsub) (header_ne_nil w hl)

/-- **The records put together** are the lines from the first header on. -/
theorem join_rawBodies (cur : Option RawEntry) (idx : ℕ) (lines : List LogText) :
    joinLines ((splitEntries w cur idx lines).map rawBodyOf) =
      match cur with
      | none => joinLines (fromHeader w lines)
      | some e => joinLines (e.header :: e.body ++ lines) := by
  induction lines generalizing cur idx with
  | nil =>
    cases cur with
    | none => rfl
    | some e =>
      show joinLines [rawBodyOf e] = joinLines (e.header :: e.body ++ [])
      rw [joinLines_singleton, List.append_nil]
      rfl
  | cons l lines ih =>
    rw [splitEntries_cons]
    by_cases hl : isHeader w l = true
    · rw [if_pos hl]
      have hrest := ih (some ⟨l, [], idx⟩) (idx + 1)
      cases cur with
      | none =>
        have hfrom : fromHeader w (l :: lines) = l :: lines := by
          unfold fromHeader
          rw [List.dropWhile_cons_of_neg (by simp [hl])]
        show joinLines ((splitEntries w (some ⟨l, [], idx⟩) (idx + 1) lines).map rawBodyOf) =
          joinLines (fromHeader w (l :: lines))
        rw [hrest, hfrom]
        rfl
      | some e =>
        -- the next record is not empty: it begins with its header
        have hne : (splitEntries w (some ⟨l, [], idx⟩) (idx + 1) lines).map rawBodyOf ≠ [] := by
          intro hnil
          rw [hnil] at hrest
          have hsub := subset_joinLines (show l ∈ l :: lines from List.mem_cons_self)
          rw [show joinLines (l :: lines) = [] from hrest.symm] at hsub
          exact header_ne_nil w hl (List.subset_nil.mp hsub)
        show joinLines (rawBodyOf e :: (splitEntries w (some ⟨l, [], idx⟩) (idx + 1) lines).map rawBodyOf) =
          joinLines (e.header :: e.body ++ l :: lines)
        rw [joinLines_cons _ hne, hrest, joinLines_append (List.cons_ne_nil _ _) (List.cons_ne_nil _ _)]
        rfl
    · rw [if_neg hl, ih]
      cases cur with
      | none =>
        show joinLines (fromHeader w lines) = joinLines (fromHeader w (l :: lines))
        unfold fromHeader
        rw [List.dropWhile_cons_of_pos (by simp [hl])]
      | some e =>
        show joinLines (e.header :: (e.body ++ [l]) ++ lines) = joinLines (e.header :: e.body ++ l :: lines)
        simp

theorem startLines (cur : Option RawEntry) (idx : ℕ) (lines : List LogText) :
    (splitEntries w cur idx lines).map RawEntry.startLine =
      cur.toList.map RawEntry.startLine ++ headerNumbers w idx lines := by
  induction lines generalizing cur idx with
  | nil => exact (List.append_nil _).symm
  | cons l lines ih =>
    rw [splitEntries_cons, headerNumbers]
    split
    · rw [List.map_append, ih]
      rfl
    · rw [ih]
      cases cur <;> rfl

/-- The first header line comes after the lines before it. -/
theorem head?_headerNumbers (idx : ℕ) {lines : List LogText} (h : fromHeader w lines ≠ []) :
    (headerNumbers w idx lines).head? = some (idx + (lines.takeWhile fun l => !isHeader w l).length) := by
  induction lines generalizing idx with
  | nil => exact absurd rfl h
  | cons l lines ih =>
    rw [headerNumbers]
    by_cases hl : isHeader w l = true
    · rw [if_pos hl, List.takeWhile_cons_of_neg (by simp [hl])]
      rfl
    · have hrest : fromHeader w (l :: lines) = fromHeader w lines := by
        unfold fromHeader
        rw [List.dropWhile_cons_of_pos (by simp [hl])]
      rw [if_neg hl, ih (idx + 1) (hrest ▸ h), List.takeWhile_cons_of_pos (by simp [hl]), List.length_cons]
      congr 1
      omega

/-- Entries counted from further on. -/
theorem splitEntries_shift (n : ℕ) (cur : Option RawEntry) (idx : ℕ) (lines : List LogText) :
    splitEntries w (cur.map fun e => { e with startLine := e.startLine + n }) (idx + n) lines =
      (splitEntries w cur idx lines).map fun e => { e with startLine := e.startLine + n } := by
  induction lines generalizing cur idx with
  | nil => cases cur <;> rfl
  | cons l lines ih =>
    rw [splitEntries_cons, splitEntries_cons]
    split
    · have hrest := ih (some ⟨l, [], idx⟩) (idx + 1)
      rw [List.map_append, ← hrest, Nat.add_right_comm]
      cases cur <;> rfl
    · have hrest := ih (cur.map fun e => { e with body := e.body ++ [l] }) (idx + 1)
      rw [← hrest, Nat.add_right_comm]
      cases cur <;> rfl

end Entries

/-! ## §5. The parser. -/

section Parser

variable {Hash : Type} (w : ParserWorld Hash)

/-- The records are the physical lines from the first header on, each under the number of its header. -/
structure PhysicallyLossless (text : LogText) : Prop where
  bodies : joinLines ((parse w text).map LogRecord.rawBody) = joinLines (fromHeader w (physicalLines [] text))
  numbers : (parse w text).map LogRecord.lineNumber = headerNumbers w 1 (physicalLines [] text)

/-- A record that is found further down. -/
def LogRecord.shift (n : ℕ) (rec : LogRecord) : LogRecord := { rec with lineNumber := rec.lineNumber + n }

/-- Neither reading of the text has a header line. -/
def NoHeader (text : LogText) : Prop :=
  (∀ l ∈ splitLines [] text, isHeader w l = false) ∧ ∀ l ∈ physicalLines [] text, isHeader w l = false

theorem physicallyLossless_iff_lines (text : LogText) : PhysicallyLossless w text ↔
    joinLines (fromHeader w (splitLines [] text)) = joinLines (fromHeader w (physicalLines [] text)) ∧
      headerNumbers w 1 (splitLines [] text) = headerNumbers w 1 (physicalLines [] text) := by
  have hbodies : joinLines ((parse w text).map LogRecord.rawBody) = joinLines (fromHeader w (splitLines [] text)) := by
    have hjoin := join_rawBodies w none 1 (splitLines [] text)
    unfold parse
    rw [List.map_map]
    exact hjoin
  have hnumbers : (parse w text).map LogRecord.lineNumber = headerNumbers w 1 (splitLines [] text) := by
    have hstarts := startLines w none 1 (splitLines [] text)
    unfold parse
    rw [List.map_map]
    exact hstarts
  constructor
  · intro h
    exact ⟨hbodies ▸ h.bodies, hnumbers ▸ h.numbers⟩
  · intro h
    exact ⟨hbodies.trans h.1, hnumbers.trans h.2⟩

/-- **Lossless exactly without odd breaks**: with one, and a header line, the code has more lines than the file, or
its join has a newline where the file has the break. -/
theorem physicallyLossless_iff (text : LogText) : PhysicallyLossless w text ↔ oddBreaks text = 0 ∨ NoHeader w text := by
  rw [physicallyLossless_iff_lines]
  constructor
  · rintro ⟨hbodies, hnumbers⟩
    by_cases hheader : fromHeader w (splitLines [] text) = []
    · right
      refine ⟨(fromHeader_eq_nil w).mp hheader, (fromHeader_eq_nil w).mp (joinLines_fromHeader w ?_)⟩
      rw [← hbodies, hheader]
      rfl
    · left
      have hphysical : fromHeader w (physicalLines [] text) ≠ [] := fun hnil =>
        hheader (joinLines_fromHeader w (by rw [hbodies, hnil]; rfl))
      have hsplit : ∀ l ∈ fromHeader w (splitLines [] text), BreakFree l := fun l hl =>
        breakFree_splitLines [] text (fun c hc => absurd hc List.not_mem_nil) l ((List.dropWhile_sublist _).subset hl)
      have hnewline : ∀ l ∈ fromHeader w (physicalLines [] text), '\n' ∉ l := fun l hl =>
        newline_not_mem_physical [] text List.not_mem_nil l ((List.dropWhile_sublist _).subset hl)
      -- as many lines from the first header on, and as many before it
      have hafter : (fromHeader w (splitLines [] text)).length = (fromHeader w (physicalLines [] text)).length := by
        have hleft := count_joinLines hheader fun l hl hmem => by
          have hfree := hsplit l hl _ hmem
          rw [isLineBreak_newline] at hfree
          cases hfree
        have hright := count_joinLines hphysical hnewline
        rw [hbodies] at hleft
        omega
      have hbefore : ((splitLines [] text).takeWhile fun l => !isHeader w l).length =
          ((physicalLines [] text).takeWhile fun l => !isHeader w l).length := by
        have hheads := congrArg List.head? hnumbers
        rw [head?_headerNumbers w 1 hheader, head?_headerNumbers w 1 hphysical] at hheads
        exact Nat.add_left_cancel (Option.some.inj hheads)
      have hlength : (splitLines [] text).length = (physicalLines [] text).length := by
        have hleft := congrArg List.length (List.takeWhile_append_dropWhile (p := fun l => !isHeader w l)
          (l := splitLines [] text))
        have hright := congrArg List.length (List.takeWhile_append_dropWhile (p := fun l => !isHeader w l)
          (l := physicalLines [] text))
        rw [List.length_append] at hleft hright
        unfold fromHeader at hafter
        omega
      -- the last line has no break in it, because the join of the code has none
      have hopen : BreakFree (openLine [] text) := by
        intro c hc
        have hne : openLine [] text ≠ [] := List.ne_nil_of_mem hc
        have hlast := getLast?_physicalLines [] text hne
        have hmem : openLine [] text ∈ fromHeader w (physicalLines [] text) := by
          rw [← List.takeWhile_append_dropWhile (p := fun l => !isHeader w l) (l := physicalLines [] text)] at hlast
          have hend := List.getLast?_append_of_ne_nil
            ((physicalLines [] text).takeWhile fun l => !isHeader w l) hphysical
          exact List.mem_of_getLast? (hend.symm.trans hlast)
        have hjoin : c ∈ joinLines (fromHeader w (splitLines [] text)) := by
          rw [hbodies]
          exact subset_joinLines hmem hc
        cases mem_joinLines hjoin with
        | inl hnl => exact absurd (hnl ▸ hc) (hnewline _ hmem)
        | inr hline =>
          obtain ⟨l, hl, hin⟩ := hline
          exact hsplit l hl c hin
      have hcount := length_splitLines [] [] text (Or.inl rfl) hopen
      omega
  · intro h
    cases h with
    | inl hodd =>
      rw [splitLines_eq [] text hodd]
      exact ⟨rfl, rfl⟩
    | inr hnone =>
      have hleft := (fromHeader_eq_nil w).mpr hnone.1
      have hright := (fromHeader_eq_nil w).mpr hnone.2
      refine ⟨by rw [hleft, hright], ?_⟩
      have hnil : ∀ idx : ℕ, ∀ lines : List LogText, (∀ l ∈ lines, isHeader w l = false) →
          headerNumbers w idx lines = [] := by
        intro idx lines hall
        induction lines generalizing idx with
        | nil => rfl
        | cons l lines ih =>
          rw [headerNumbers, if_neg (by simp [hall l List.mem_cons_self])]
          exact ih (idx + 1) fun l' hl' => hall l' (List.mem_cons_of_mem _ hl')
      rw [hnil 1 _ hnone.1, hnil 1 _ hnone.2]

/-- No digit ends a line. -/
def DigitsStay (w : ParserWorld Hash) : Prop := ∀ c, w.isDecimal c = true → isLineBreak c = false

/-- A line that has begun is the first one. -/
theorem splitLines_begun (t : LogText) {cur : LogText} (hcur : cur ≠ []) :
    ∃ l lines, splitLines cur t = (cur ++ l) :: lines := by
  fun_induction splitLines cur t with
  | case1 cur hempty => exact absurd (List.isEmpty_iff.mp hempty) hcur
  | case2 cur hne => exact ⟨[], [], by rw [List.append_nil]⟩
  | case3 cur rest ih => exact ⟨[], splitLines [] rest, by rw [List.append_nil]⟩
  | case4 cur c rest hnot hc ih => exact ⟨[], splitLines [] rest, by rw [List.append_nil]⟩
  | case5 cur c rest hnot hc ih =>
    obtain ⟨l, lines, heq⟩ := ih (List.append_ne_nil_of_left_ne_nil hcur [c])
    exact ⟨c :: l, lines, by rw [heq, List.append_assoc, List.singleton_append]⟩

/-- A text that begins as a pattern without breaks has a first line that does. -/
theorem splitLines_startsLike {ps : List (Char → Bool)} (hps : ∀ p ∈ ps, ∀ c, p c = true → isLineBreak c = false)
    {t : LogText} (h : startsLike ps t = true) (cur : LogText) (hne : ps ≠ [] ∨ cur ≠ []) :
    ∃ l lines, splitLines cur t = (cur ++ l) :: lines ∧ startsLike ps l = true := by
  induction ps generalizing t cur with
  | nil =>
    obtain ⟨l, lines, heq⟩ := splitLines_begun t (hne.resolve_left (not_not_intro rfl))
    exact ⟨l, lines, heq, by cases l <;> rfl⟩
  | cons p ps ih =>
    cases t with
    | nil => cases h
    | cons c t =>
      obtain ⟨hc, ht⟩ := Bool.and_eq_true_iff.mp h
      have hstay := hps p List.mem_cons_self c hc
      have hrest := ih (fun q hq => hps q (List.mem_cons_of_mem _ hq)) ht (cur ++ [c])
        (Or.inr (List.append_ne_nil_of_right_ne_nil cur (List.cons_ne_nil c [])))
      obtain ⟨l, lines, heq, hl⟩ := hrest
      have hcr : ∀ r, c = '\r' → t = '\n' :: r → False := by
        rintro r rfl -
        cases hstay
      refine ⟨c :: l, lines, ?_, Bool.and_eq_true_iff.mpr ⟨hc, hl⟩⟩
      rw [splitLines_cons cur hcr, if_neg (by simp [hstay]), heq, List.append_assoc, List.singleton_append]

theorem timestampShape_stays (h : DigitsStay w) : ∀ p ∈ timestampShape w, ∀ c, p c = true → isLineBreak c = false := by
  intro p hp c hc
  have his : ∀ x : Char, isLineBreak x = false → decide (c = x) = true → isLineBreak c = false :=
    fun x hx heq => of_decide_eq_true heq ▸ hx
  simp only [timestampShape, List.mem_cons, List.not_mem_nil, or_false] at hp
  have hcases : p = w.isDecimal ∨ ∃ x : Char, isLineBreak x = false ∧ p = fun c => decide (c = x) := by
    rcases hp with h | h | h | h | h | h | h | h | h | h | h | h | h | h | h | h | h | h | h | h | h | h | h | h <;>
      first
      | exact Or.inl h
      | exact Or.inr ⟨_, rfl, h⟩
  cases hcases with
  | inl hdigit => exact h c (hdigit ▸ hc)
  | inr hsign =>
    obtain ⟨x, hx, rfl⟩ := hsign
    exact his x hx hc

/-- A text that begins as a header has a header as its first line. -/
theorem startsEntry_of_isHeader (h : DigitsStay w) {b : LogText} (hb : isHeader w b = true) :
    StartsEntry w (splitLines [] b) ∧ splitLines [] b ≠ [] := by
  obtain ⟨l, lines, heq, hl⟩ := splitLines_startsLike (timestampShape_stays w h) hb []
    (Or.inl (List.cons_ne_nil _ _))
  rw [heq]
  refine ⟨fun l' hl' => ?_, List.cons_ne_nil _ _⟩
  exact Option.some.inj hl' ▸ hl

/-- A text in two parts, the first ended and the second begun with a header. -/
theorem parse_append (h : DigitsStay w) {a b : LogText} (ha : a.getLast? = some '\n') (hb : isHeader w b = true) :
    parse w (a ++ b) = parse w a ++ (parse w b).map (LogRecord.shift (splitLines [] a).length) := by
  obtain ⟨a', rfl⟩ : ∃ a', a = a' ++ ['\n'] := List.getLast?_eq_some_iff.mp ha
  have hlines : splitLines [] (a' ++ ['\n'] ++ b) = splitLines [] (a' ++ ['\n']) ++ splitLines [] b := by
    rw [List.append_assoc, List.singleton_append, splitLines_append]
  have hshift := splitEntries_shift w (splitLines [] (a' ++ ['\n'])).length none 1 (splitLines [] b)
  unfold parse
  rw [hlines, splitEntries_append w none 1 _ (startsEntry_of_isHeader w h hb).1, List.map_append,
    show splitEntries w none (1 + _) (splitLines [] b) = _ from hshift, List.map_map, List.map_map]
  rfl

/-- **Compositional exactly without odd breaks**: with one in the first part, the numbers of the second are more by it
than the physical lines of the first. -/
theorem parse_append_iff (h : DigitsStay w) {a b : LogText} (ha : a.getLast? = some '\n') (hb : isHeader w b = true) :
    parse w (a ++ b) = parse w a ++ (parse w b).map (LogRecord.shift (physicalLines [] a).length) ↔ oddBreaks a = 0 := by
  have hlength := length_splitLines [] [] a (Or.inl rfl)
    (by rw [openLine_newline [] ha]; exact fun c hc => absurd hc List.not_mem_nil)
  rw [parse_append w h ha hb]
  constructor
  · intro heq
    have hmap := congrArg (List.map LogRecord.lineNumber) (List.append_cancel_left heq)
    have hne : parse w b ≠ [] := by
      intro hnil
      have hnumbers := startLines w none 1 (splitLines [] b)
      have hentries : splitEntries w none 1 (splitLines [] b) = [] := by
        unfold parse at hnil
        exact List.map_eq_nil_iff.mp hnil
      obtain ⟨hfirst, hsome⟩ := startsEntry_of_isHeader w h hb
      cases hlines : splitLines [] b with
      | nil => exact hsome hlines
      | cons l lines =>
        rw [hentries, hlines, headerNumbers, if_pos (hfirst l (by rw [hlines]; rfl))] at hnumbers
        cases hnumbers
    cases hrecords : parse w b with
    | nil => exact absurd hrecords hne
    | cons rec records =>
      rw [hrecords] at hmap
      have hhead : rec.lineNumber + (splitLines [] a).length = rec.lineNumber + (physicalLines [] a).length :=
        (List.cons.inj hmap).1
      omega
  · intro hodd
    rw [splitLines_eq [] a hodd]

/-- **The parser over physical lines**: it is lossless exactly for a text that has no odd break, or no header; and
compositional exactly where the first part has no odd break. -/
theorem parse_physical_iff (hdigits : DigitsStay w) :
    (∀ text, PhysicallyLossless w text ↔ oddBreaks text = 0 ∨ NoHeader w text) ∧
      ∀ a b, a.getLast? = some '\n' → isHeader w b = true →
        (parse w (a ++ b) = parse w a ++ (parse w b).map (LogRecord.shift (physicalLines [] a).length) ↔
          oddBreaks a = 0) :=
  ⟨physicallyLossless_iff w, fun _ _ ha hb => parse_append_iff w hdigits ha hb⟩

end Parser

/-- An entry with U+2028 in its payload. -/
def dividedEntry : LogText := "2026-01-01 00:00:00,000 (U) [7] INFO A\nnote: a\u2028b\n".toList

def nextEntry : LogText := "2026-01-01 00:00:01,000 (U) [7] INFO B".toList

theorem plainWorld_digitsStay : DigitsStay plainWorld := by
  intro c hc
  have hrange : 48 ≤ c.toNat ∧ c.toNat ≤ 57 := by
    obtain ⟨hlow, hhigh⟩ := Bool.and_eq_true_iff.mp (show c.isDigit = true from hc)
    exact ⟨of_decide_eq_true hlow, of_decide_eq_true hhigh⟩
  have hmiss : ∀ n : ℕ, 48 ≤ n ∧ n ≤ 57 → n ≠ 0x85 ∧ n ≠ 0x2028 ∧ n ≠ 0x2029 ∧ ¬n ≤ 13 ∧ ¬n ≤ 30 := by
    intro n hn
    omega
  obtain ⟨hnel, hline, hparagraph, hcontrol, hseparator⟩ := hmiss _ hrange
  simp [isLineBreak, hnel, hline, hparagraph, hcontrol, hseparator]

theorem parse_physical_iff_divided : DigitsStay plainWorld ∧
    ¬PhysicallyLossless plainWorld (dividedEntry ++ nextEntry) ∧
      PhysicallyLossless plainWorld nextEntry := by
  have hparse := parse_physical_iff plainWorld plainWorld_digitsStay
  refine ⟨plainWorld_digitsStay, fun h => ?_, (hparse.1 nextEntry).mpr (Or.inl (by decide))⟩
  have hcondition := (hparse.1 _).mp h
  revert hcondition
  unfold NoHeader
  decide +kernel

/-- The entry has three lines, where the file has two, and the next is the fourth, where it is the third. -/
theorem dividedEntry_shifts : ¬(∀ text, PhysicallyLossless plainWorld text) ∧
    ¬∀ a b, a.getLast? = some '\n' → isHeader plainWorld b = true →
      parse plainWorld (a ++ b) =
        parse plainWorld a ++ (parse plainWorld b).map (LogRecord.shift (physicalLines [] a).length) := by
  constructor
  · intro h
    have hnumbers := (h (dividedEntry ++ nextEntry)).numbers
    revert hnumbers
    decide +kernel
  · intro h
    have hrecords := h dividedEntry nextEntry (by decide +kernel) (by decide +kernel)
    have hnumbers := congrArg (List.map LogRecord.lineNumber) hrecords
    revert hnumbers
    decide +kernel

end RagPipeline.Ingest
