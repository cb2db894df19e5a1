/-
  RagPipeline.Notifications.Redact — `redact.py`: secrets out of a text before it leaves.

  Five patterns, one after the other; each finds a secret name and what stands under it.

    * `findQuery`, `findObject`, `findString`, `findEncoded`, `findBearer` — what a pattern finds at a
      place, and under each what that says of the text (`findQuery_eq_some`, and so on);
    * `redactSecrets` — the five substitutions.
-/
import Mathlib.Data.List.TakeWhile
import Mathlib.Data.Option.Basic
import RagPipeline.Lib.Strip
import RagPipeline.Lib.Substitute

namespace RagPipeline.Notifications.Redact

open RagPipeline.Lib

/-! ## §1. Letters and names. -/

/-- What differs from a letter of a pattern in case only; `ı`, `İ`, `ſ` and the sign of the kelvin do. -/
def foldings : List (Char × Char) :=
  "ABCDEFGHIJKLMNOPQRSTUVWXYZ".toList.zip "abcdefghijklmnopqrstuvwxyz".toList
    ++ [(Char.ofNat 0x130, 'i'), (Char.ofNat 0x131, 'i'), (Char.ofNat 0x17F, 's'), (Char.ofNat 0x212A, 'k')]

theorem forall_of_all {P : Char → Prop} [DecidablePred P] {l : List Char} (h : (l.all fun c => decide (P c)) = true) :
    ∀ c ∈ l, P c := by
  intro c hc
  exact of_decide_eq_true (List.all_eq_true.mp h c hc)

/-- `(?i)`: the letter a pattern has for this one. -/
def lowered (c : Char) : Char := ((foldings.find? fun f => f.1 == c).map Prod.snd).getD c

/-- What no letter is lowered to was that before. -/
theorem of_lowered {c m : Char} (h : lowered c = m) (hm : m ∉ foldings.map Prod.snd) : c = m := by
  unfold lowered at h
  cases hf : foldings.find? (fun f => f.1 == c) with
  | none => rwa [hf] at h
  | some f =>
    rw [hf] at h
    exact absurd (List.mem_map.mpr ⟨f, List.mem_of_find?_eq_some hf, h⟩) hm

def asciiWord (c : Char) : Bool :=
  ('a' ≤ c && c ≤ 'z') || ('A' ≤ c && c ≤ 'Z') || ('0' ≤ c && c ≤ '9') || c == '_'

/-- The table behind `\w`, as far as the patterns depend on it. -/
structure Words where
  word : Char → Bool
  ascii : ∀ c, c.toNat < 128 → word c = asciiWord c
  letters : ∀ f ∈ foldings, word f.1 = true
  spaces : ∀ c, isSpace c = true → word c = false

variable (W : Words)

/-- `[\w.-]`. -/
def Words.nameChar (c : Char) : Bool := W.word c || c == '.' || c == '-'

/-- What a secret name ends in. -/
def keywords : List (List Char) :=
  ["credentials".toList, "password".toList, "passwd".toList, "token".toList, "secret".toList,
    "apikey".toList, "api_key".toList, "api-key".toList]

def secretName (name : List Char) : Bool := keywords.any fun k => k.isSuffixOf (name.map lowered)

/-! ## §2. The patterns. -/

/-- `<redacted>`. -/
def redacted : List Char := "<redacted>".toList

/-- The characters of a pattern, in either case. -/
def literal (l t : List Char) : Option (List Char × List Char) :=
  if (t.take l.length).map lowered = l then some (t.take l.length, t.drop l.length) else none

/-- `_NAME`, where what comes next in the pattern is no character of a name. -/
def secretRun (t : List Char) : Option (List Char × List Char) :=
  if secretName (t.takeWhile W.nameChar) then some (t.takeWhile W.nameChar, t.dropWhile W.nameChar) else none

/-- `"_NAME"\s*:\s*`, where what comes next in the pattern is no space. -/
def secretKey (t : List Char) : Option (List Char × List Char) := do
  let (opening, t) ← literal ['"'] t
  let (name, t) ← secretRun W t
  let (closing, t) ← literal ['"'] t
  let (colon, u) ← literal [':'] (t.dropWhile isSpace)
  some (opening ++ name ++ closing ++ t.takeWhile isSpace ++ colon ++ u.takeWhile isSpace, u.dropWhile isSpace)

/-- `[^&\s"'<>]`. -/
def valueChar (c : Char) : Bool := !(isSpace c || ['&', '"', Char.ofNat 39, '<', '>'].contains c)

/-- `_QUERY`. -/
def findQuery (before : Option Char) (t : List Char) : Option (Found Char) := do
  guard (!before.any W.nameChar)
  let (name, t) ← secretRun W t
  let (eq, t) ← literal ['='] t
  guard (!redacted.isPrefixOf (t.map lowered))
  some ⟨name ++ eq ++ t.takeWhile valueChar, name ++ eq ++ redacted, t.dropWhile valueChar⟩

/-- `[^{}]`. -/
def noBrace (c : Char) : Bool := !(['{', '}'].contains c)

/-- `_JSON_OBJECT`. -/
def findObject (t : List Char) : Option (Found Char) := do
  let (key, t) ← secretKey W t
  let (opening, t) ← literal ['{'] t
  let (closing, rest) ← literal ['}'] (t.dropWhile noBrace)
  some ⟨key ++ opening ++ t.takeWhile noBrace ++ closing, key ++ ('"' :: redacted ++ ['"']), rest⟩

/-- `[^"]`. -/
def noQuote (c : Char) : Bool := c != '"'

/-- `_JSON_STRING`. -/
def findString (t : List Char) : Option (Found Char) := do
  let (key, t) ← secretKey W t
  let (opening, t) ← literal ['"'] t
  let (closing, rest) ← literal ['"'] (t.dropWhile noQuote)
  some ⟨key ++ opening ++ t.takeWhile noQuote ++ closing, key ++ opening ++ redacted ++ closing, rest⟩

/-- `.*?(%22)`. -/
def upToMark : List Char → Option (List Char × List Char)
  | [] => none
  | c :: t =>
    match literal ['%', '2', '2'] (c :: t) with
    | some (_, rest) => some ([], rest)
    | none => if c = '\n' then none else (upToMark t).map fun (v, rest) => (c :: v, rest)

/-- `_ENCODED`. -/
def findEncoded (t : List Char) : Option (Found Char) := do
  let (opening, t) ← literal "%22".toList t
  let (name, t) ← secretRun W t
  let (middle, t) ← literal "%22%3a%22".toList t
  let (v, rest) ← upToMark t
  some ⟨opening ++ name ++ middle ++ v ++ "%22".toList, opening ++ name ++ middle ++ redacted ++ "%22".toList, rest⟩

/-- `[A-Za-z0-9._~+/=-]`, in either case. -/
def tokenChar (c : Char) : Bool :=
  ('a' ≤ lowered c && lowered c ≤ 'z') || ('0' ≤ c && c ≤ '9') || "._~+/=-".toList.contains c

/-- `_BEARER`; `\b` before its first letter is no word character before it. -/
def findBearer (before : Option Char) (t : List Char) : Option (Found Char) := do
  guard (!before.any W.word)
  let (bearer, t) ← literal "bearer".toList t
  let u := t.dropWhile isSpace
  guard (!(t.takeWhile isSpace).isEmpty && !(u.takeWhile tokenChar).isEmpty)
  some ⟨bearer ++ t.takeWhile isSpace ++ u.takeWhile tokenChar,
    bearer ++ t.takeWhile isSpace ++ redacted, u.dropWhile tokenChar⟩

/-! ## §3. What each pattern finds. -/

section Readers

variable {W}

theorem redacted_eq : redacted = ['<', 'r', 'e', 'd', 'a', 'c', 't', 'e', 'd', '>'] := by decide

theorem takeWhile_dropWhile_iff {p : Char → Bool} {t a b : List Char} :
    (t.takeWhile p = a ∧ t.dropWhile p = b) ↔ t = a ++ b ∧ (∀ c ∈ a, p c = true) ∧ ∀ c ∈ b.head?, p c = false := by
  constructor
  · rintro ⟨rfl, rfl⟩
    refine ⟨(List.takeWhile_append_dropWhile).symm, fun c hc => List.mem_takeWhile_imp hc, fun c hc => ?_⟩
    cases hp : p c with
    | false => rfl
    | true => 
      have := List.head?_dropWhile_not p t
      rw [Option.mem_def.mp hc] at this
      simp [hp] at this
  · rintro ⟨rfl, ha, hb⟩
    rw [List.takeWhile_append_of_pos ha, List.dropWhile_append_of_pos ha]
    cases b with
    | nil => simp
    | cons c b =>
      have hc : p c = false := hb c rfl
      simp [hc]

theorem literal_eq_some {l t m r : List Char} :
    literal l t = some (m, r) ↔ t = m ++ r ∧ m.map lowered = l := by
  unfold literal
  split
  · next h =>
    constructor
    · intro heq
      obtain ⟨rfl, rfl⟩ := Prod.mk.inj (Option.some.inj heq)
      exact ⟨(List.take_append_drop ..).symm, h⟩
    · rintro ⟨rfl, rfl⟩
      simp
  · next h =>
    constructor
    · nofun
    · rintro ⟨rfl, rfl⟩
      simp at h

theorem head_false {p : Char → Bool} {c : Char} (h : p c = false) {t : List Char} :
    ∀ d ∈ (c :: t).head?, p d = false := by
  intro d hd
  obtain rfl : c = d := by simpa using hd
  exact h

theorem literal_mark {c : Char} (hc : c ∉ foldings.map Prod.snd) (hl : lowered c = c) {t m r : List Char} :
    literal [c] t = some (m, r) ↔ t = c :: r ∧ m = [c] := by
  rw [literal_eq_some]
  constructor
  · rintro ⟨rfl, hm⟩
    obtain ⟨d, rfl, hd⟩ := List.map_eq_singleton_iff.mp hm
    rw [of_lowered hd hc]
    exact ⟨rfl, rfl⟩
  · rintro ⟨rfl, rfl⟩
    exact ⟨rfl, congrArg (fun d => [d]) hl⟩

theorem literal_quote {t m r : List Char} : literal ['"'] t = some (m, r) ↔ t = '"' :: r ∧ m = ['"'] :=
  literal_mark (by decide) (by decide)

theorem literal_colon {t m r : List Char} : literal [':'] t = some (m, r) ↔ t = ':' :: r ∧ m = [':'] :=
  literal_mark (by decide) (by decide)

def IsName (W : Words) (n : List Char) : Prop := (∀ c ∈ n, W.nameChar c = true) ∧ secretName n = true

theorem secretRun_eq_some {t n r : List Char} :
    secretRun W t = some (n, r) ↔ t = n ++ r ∧ IsName W n ∧ ∀ c ∈ r.head?, W.nameChar c = false := by
  have hsplit := @takeWhile_dropWhile_iff W.nameChar t n r
  unfold secretRun
  split
  · next h =>
    rw [Option.some.injEq, Prod.mk.injEq, hsplit]
    constructor
    · rintro ⟨rfl, hn, hr⟩
      rw [(hsplit.mpr ⟨rfl, hn, hr⟩).1] at h
      exact ⟨rfl, ⟨hn, h⟩, hr⟩
    · rintro ⟨rfl, hn, hr⟩
      exact ⟨rfl, hn.1, hr⟩
  · next h =>
    constructor
    · nofun
    · rintro ⟨ht, hn, hr⟩
      rw [(hsplit.mpr ⟨ht, hn.1, hr⟩).1] at h
      exact absurd hn.2 h

def IsKey (W : Words) (k : List Char) : Prop :=
  ∃ n s s', IsName W n ∧ (∀ c ∈ s, isSpace c = true) ∧ (∀ c ∈ s', isSpace c = true) ∧
    k = '"' :: (n ++ '"' :: (s ++ ':' :: s'))

theorem Words.not_nameChar (c : Char) (h : c.toNat < 128 := by decide) (hw : asciiWord c = false := by decide)
  (hp : c ≠ '.' := by decide) (hd : c ≠ '-' := by decide) : W.nameChar c = false := by
  unfold Words.nameChar
  rw [W.ascii c h, hw]
  simp [hp, hd]

theorem secretKey_eq_some {t k r : List Char} :
    secretKey W t = some (k, r) ↔ t = k ++ r ∧ IsKey W k ∧ ∀ c ∈ r.head?, isSpace c = false := by
  simp only [secretKey, Option.bind_eq_bind, Option.bind_eq_some_iff, Prod.exists, literal_quote, literal_colon,
    secretRun_eq_some, Option.some.injEq, Prod.mk.injEq]
  constructor
  · rintro ⟨q, t1, ⟨rfl, rfl⟩, n, t2, ⟨rfl, hn, -⟩, q', t3, ⟨rfl, rfl⟩, co, t4, ⟨hcolon, rfl⟩, rfl, hr⟩
    obtain ⟨h3, hs, -⟩ := takeWhile_dropWhile_iff.mp ⟨rfl, hcolon⟩
    obtain ⟨h4, hs', hrest⟩ := takeWhile_dropWhile_iff.mp ⟨rfl, hr⟩
    refine ⟨?_, ⟨n, _, _, hn, hs, hs', ?_⟩, hrest⟩
    · conv_lhs => rw [h3, h4]
      simp
    · simp
  · rintro ⟨rfl, ⟨n, s, s', hn, hs, hs', rfl⟩, hr⟩
    have h3 : (s ++ ':' :: (s' ++ r)).takeWhile isSpace = s ∧ (s ++ ':' :: (s' ++ r)).dropWhile isSpace = ':' :: (s' ++ r) :=
      takeWhile_dropWhile_iff.mpr ⟨rfl, hs, head_false (by decide)⟩
    refine ⟨_, _, ⟨rfl, rfl⟩, n, '"' :: (s ++ ':' :: (s' ++ r)), ⟨by simp, hn, ?_⟩, _, _, ⟨rfl, rfl⟩, _,
      s' ++ r, ⟨h3.2, rfl⟩, ?_⟩
    · exact head_false (W.not_nameChar '"')
    · obtain ⟨h4, h5⟩ := takeWhile_dropWhile_iff.mpr ⟨rfl, hs', hr⟩
      rw [h3.1, h4, h5]
      simp

theorem literal_equals {t m r : List Char} : literal ['='] t = some (m, r) ↔ t = '=' :: r ∧ m = ['='] :=
  literal_mark (by decide) (by decide)

theorem literal_open {t m r : List Char} : literal ['{'] t = some (m, r) ↔ t = '{' :: r ∧ m = ['{'] :=
  literal_mark (by decide) (by decide)

theorem literal_close {t m r : List Char} : literal ['}'] t = some (m, r) ↔ t = '}' :: r ∧ m = ['}'] :=
  literal_mark (by decide) (by decide)

theorem findQuery_eq_some {before : Option Char} {t : List Char} {f : Found Char} :
    findQuery W before t = some f ↔ ∃ n v r, before.any W.nameChar = false ∧ IsName W n ∧
      redacted.isPrefixOf ((v ++ r).map lowered) = false ∧ (∀ c ∈ v, valueChar c = true) ∧
      (∀ c ∈ r.head?, valueChar c = false) ∧ t = n ++ '=' :: (v ++ r) ∧
      f = ⟨n ++ '=' :: v, n ++ '=' :: redacted, r⟩ := by
  simp only [findQuery, Option.bind_eq_bind, Option.bind_eq_some_iff, Prod.exists, literal_equals,
    secretRun_eq_some, Option.some.injEq, Option.guard_eq_some', Bool.not_eq_true']
  constructor
  · rintro ⟨-, hb, n, t1, ⟨rfl, hn, -⟩, e, t2, ⟨rfl, rfl⟩, -, hnot, rfl⟩
    obtain ⟨h, hv, hr⟩ := takeWhile_dropWhile_iff.mp (And.intro (Eq.refl (t2.takeWhile valueChar)) rfl)
    refine ⟨n, _, _, hb, hn, ?_, hv, hr, ?_, ?_⟩
    · rwa [← h]
    · rw [← h]
    · simp
  · rintro ⟨n, v, r, hb, hn, hnot, hv, hr, rfl, rfl⟩
    obtain ⟨h1, h2⟩ := takeWhile_dropWhile_iff.mpr ⟨rfl, hv, hr⟩
    refine ⟨(), hb, n, _, ⟨rfl, hn, head_false (W.not_nameChar '=')⟩, _, _, ⟨rfl, rfl⟩, (), hnot, ?_⟩
    rw [h1, h2]
    simp

theorem findObject_eq_some {t : List Char} {f : Found Char} :
    findObject W t = some f ↔ ∃ k v r, IsKey W k ∧ (∀ c ∈ v, noBrace c = true) ∧ t = k ++ '{' :: (v ++ '}' :: r) ∧
      f = ⟨k ++ '{' :: (v ++ ['}']), k ++ '"' :: (redacted ++ ['"']), r⟩ := by
  simp only [findObject, Option.bind_eq_bind, Option.bind_eq_some_iff, Prod.exists, literal_open, literal_close,
    secretKey_eq_some, Option.some.injEq]
  constructor
  · rintro ⟨k, t1, ⟨rfl, hk, -⟩, o, t2, ⟨rfl, rfl⟩, c, r, ⟨hclose, rfl⟩, rfl⟩
    obtain ⟨h, hv, -⟩ := takeWhile_dropWhile_iff.mp (And.intro (Eq.refl (t2.takeWhile noBrace)) hclose)
    refine ⟨k, _, r, hk, hv, ?_, ?_⟩
    · rw [← h]
    · simp
  · rintro ⟨k, v, r, hk, hv, rfl, rfl⟩
    have h : (v ++ '}' :: r).takeWhile noBrace = v ∧ (v ++ '}' :: r).dropWhile noBrace = '}' :: r :=
      takeWhile_dropWhile_iff.mpr ⟨rfl, hv, head_false (by decide)⟩
    refine ⟨k, _, ⟨rfl, hk, head_false (by decide)⟩, _, _, ⟨rfl, rfl⟩, _, r, ⟨h.2, rfl⟩, ?_⟩
    rw [h.1]
    simp

theorem findString_eq_some {t : List Char} {f : Found Char} :
    findString W t = some f ↔ ∃ k v r, IsKey W k ∧ (∀ c ∈ v, noQuote c = true) ∧ t = k ++ '"' :: (v ++ '"' :: r) ∧
      f = ⟨k ++ '"' :: (v ++ ['"']), k ++ '"' :: (redacted ++ ['"']), r⟩ := by
  simp only [findString, Option.bind_eq_bind, Option.bind_eq_some_iff, Prod.exists, literal_quote,
    secretKey_eq_some, Option.some.injEq]
  constructor
  · rintro ⟨k, t1, ⟨rfl, hk, -⟩, o, t2, ⟨rfl, rfl⟩, c, r, ⟨hclose, rfl⟩, rfl⟩
    obtain ⟨h, hv, -⟩ := takeWhile_dropWhile_iff.mp (And.intro (Eq.refl (t2.takeWhile noQuote)) hclose)
    refine ⟨k, _, r, hk, hv, ?_, ?_⟩
    · rw [← h]
    · simp
  · rintro ⟨k, v, r, hk, hv, rfl, rfl⟩
    have h : (v ++ '"' :: r).takeWhile noQuote = v ∧ (v ++ '"' :: r).dropWhile noQuote = '"' :: r :=
      takeWhile_dropWhile_iff.mpr ⟨rfl, hv, head_false (by decide)⟩
    refine ⟨k, _, ⟨rfl, hk, head_false (by decide)⟩, _, _, ⟨rfl, rfl⟩, _, r, ⟨h.2, rfl⟩, ?_⟩
    rw [h.1]
    simp

theorem not_mem_of_lowered {c : Char} {m l : List Char} (hm : m.map lowered = l) (hc : lowered c ∉ l) : c ∉ m :=
  fun h => hc (hm ▸ List.mem_map_of_mem h)

theorem literal_marks {l : List Char} (hl : ∀ c ∈ l, c ∉ foldings.map Prod.snd ∧ lowered c = c) {t m r : List Char} :
    literal l t = some (m, r) ↔ t = l ++ r ∧ m = l := by
  have hself : l.map lowered = l := by
    conv_rhs => rw [← List.map_id l]
    exact List.map_congr_left fun c hc => (hl c hc).2
  have hof : m.map lowered = l → m = l := by
    intro hm
    rw [← hm]
    conv_lhs => rw [← List.map_id m]
    refine List.map_congr_left fun c hc => ?_
    have hlow : lowered c ∈ l := hm ▸ List.mem_map_of_mem hc
    exact of_lowered rfl (hl _ hlow).1
  rw [literal_eq_some]
  constructor
  · rintro ⟨rfl, hm⟩
    rw [hof hm]
    exact ⟨rfl, rfl⟩
  · rintro ⟨rfl, rfl⟩
    exact ⟨rfl, hself⟩

theorem literal_mark22 {t m r : List Char} :
    literal ['%', '2', '2'] t = some (m, r) ↔ t = '%' :: '2' :: '2' :: r ∧ m = ['%', '2', '2'] :=
  literal_marks (forall_of_all (by decide))

theorem upToMark_eq_some {t v r : List Char} (h : upToMark t = some (v, r)) :
    t = v ++ '%' :: '2' :: '2' :: r ∧ '\n' ∉ v := by
  induction t generalizing v with
  | nil => exact absurd h nofun
  | cons c t ih =>
    unfold upToMark at h
    split at h
    · next m rest hm =>
      obtain ⟨rfl, rfl⟩ := Prod.mk.inj (Option.some.inj h)
      exact ⟨(literal_mark22.mp hm).1, List.not_mem_nil⟩
    · split at h
      · exact absurd h nofun
      · next hc =>
        obtain ⟨⟨v', r'⟩, hup, heq⟩ := Option.map_eq_some_iff.mp h
        obtain ⟨rfl, rfl⟩ := Prod.mk.inj heq
        obtain ⟨rfl, hv⟩ := ih hup
        exact ⟨rfl, List.not_mem_cons_of_ne_of_not_mem (Ne.symm hc) hv⟩

theorem upToMark_ne_none {v r : List Char} (hv : '\n' ∉ v) : upToMark (v ++ '%' :: '2' :: '2' :: r) ≠ none := by
  induction v with
  | nil =>
    have h : literal ['%', '2', '2'] ('%' :: '2' :: '2' :: r) = some (['%', '2', '2'], r) := literal_mark22.mpr ⟨rfl, rfl⟩
    rw [List.nil_append, upToMark, h]
    nofun
  | cons c v ih =>
    rw [List.cons_append, upToMark]
    split
    · nofun
    · rw [if_neg (List.ne_of_not_mem_cons hv).symm]
      exact fun h => ih (List.not_mem_of_not_mem_cons hv) (Option.map_eq_none_iff.mp h)

/-- `%22name%22%3A%22`. -/
def IsHead (W : Words) (h : List Char) : Prop :=
  ∃ n m, IsName W n ∧ m.map lowered = "%22%3a%22".toList ∧ h = '%' :: '2' :: '2' :: (n ++ m)

theorem head_of_lowered {m : List Char} {c : Char} {l : List Char} (hm : m.map lowered = c :: l)
    (hc : c ∉ foldings.map Prod.snd) : ∃ m', m = c :: m' := by
  cases m with
  | nil => exact absurd hm nofun
  | cons d m =>
    obtain ⟨hd, -⟩ := List.cons.inj hm
    exact ⟨m, by rw [of_lowered hd hc]⟩

theorem findEncoded_eq_some {t : List Char} {f : Found Char} :
    findEncoded W t = some f ↔ ∃ h t' v r, IsHead W h ∧ upToMark t' = some (v, r) ∧ t = h ++ t' ∧
      f = ⟨h ++ (v ++ ['%', '2', '2']), h ++ (redacted ++ ['%', '2', '2']), r⟩ := by
  have hmark : "%22".toList = ['%', '2', '2'] := by decide
  simp only [findEncoded, hmark, Option.bind_eq_bind, Option.bind_eq_some_iff, Prod.exists, literal_mark22,
    @literal_eq_some "%22%3a%22".toList, secretRun_eq_some, Option.some.injEq]
  constructor
  · rintro ⟨o, t1, ⟨rfl, rfl⟩, n, t2, ⟨rfl, hn, -⟩, m, t3, ⟨rfl, hm⟩, v, r, hup, rfl⟩
    exact ⟨_, t3, v, r, ⟨n, m, hn, hm, rfl⟩, hup, by simp, by simp⟩
  · rintro ⟨h, t', v, r, ⟨n, m, hn, hm, rfl⟩, hup, rfl, rfl⟩
    have hname : ∀ c ∈ (m ++ t').head?, W.nameChar c = false := by
      obtain ⟨m', rfl⟩ := head_of_lowered hm (by decide)
      exact head_false (W.not_nameChar '%')
    exact ⟨_, n ++ (m ++ t'), ⟨by simp, rfl⟩, n, m ++ t', ⟨rfl, hn, hname⟩, m, t', ⟨rfl, hm⟩, v, r, hup, by simp⟩

theorem tokenChar_not_space (W : Words) {c : Char} (h : isSpace c = true) : tokenChar c = false := by
  have hword := W.spaces c h
  have hlow : lowered c = c := by
    unfold lowered
    cases hf : foldings.find? (fun f => f.1 == c) with
    | none => rfl
    | some f =>
      have hfc : f.1 = c := eq_of_beq (@List.find?_some _ (fun f : Char × Char => f.1 == c) _ _ hf)
      rw [← hfc, W.letters f (List.mem_of_find?_eq_some hf)] at hword
      exact absurd hword nofun
  have hmarks : "._~+/=-".toList.contains c = false := by
    rw [Bool.eq_false_iff]
    intro hc
    have hall : ∀ d ∈ "._~+/=-".toList, isSpace d = false := forall_of_all (by decide)
    rw [hall c (by simpa using hc)] at h
    exact absurd h nofun
  unfold tokenChar
  rw [hmarks, hlow]
  unfold isSpace at h
  simp only [Bool.or_eq_true, Bool.and_eq_true, decide_eq_true_eq, beq_iff_eq] at h
  simp only [Bool.or_false, Bool.or_eq_false_iff, Bool.and_eq_false_iff, decide_eq_false_iff_not, Char.le_def,
    UInt32.le_iff_toNat_le]
  have : c.val.toNat = c.toNat := rfl
  have ha : 'a'.val.toNat = 97 := rfl
  have hz : 'z'.val.toNat = 122 := rfl
  have h0 : '0'.val.toNat = 48 := rfl
  have h9 : '9'.val.toNat = 57 := rfl
  omega

theorem findBearer_eq_some {before : Option Char} {t : List Char} {f : Found Char} :
    findBearer W before t = some f ↔ ∃ b s v r, before.any W.word = false ∧ b.map lowered = "bearer".toList ∧
      s ≠ [] ∧ (∀ c ∈ s, isSpace c = true) ∧ v ≠ [] ∧ (∀ c ∈ v, tokenChar c = true) ∧
      (∀ c ∈ r.head?, tokenChar c = false) ∧ t = b ++ (s ++ (v ++ r)) ∧
      f = ⟨b ++ (s ++ v), b ++ (s ++ redacted), r⟩ := by
  simp only [findBearer, Option.bind_eq_bind, Option.bind_eq_some_iff, Prod.exists, literal_eq_some,
    Option.some.injEq, Option.guard_eq_some', Bool.not_eq_true', Bool.and_eq_true, List.isEmpty_eq_false_iff]
  constructor
  · rintro ⟨-, hb, b, t1, ⟨rfl, hbearer⟩, -, ⟨hs, hv⟩, rfl⟩
    obtain ⟨h1, hspace, -⟩ := takeWhile_dropWhile_iff.mp (And.intro (Eq.refl (t1.takeWhile isSpace)) rfl)
    obtain ⟨h2, htoken, hrest⟩ :=
      takeWhile_dropWhile_iff.mp (And.intro (Eq.refl ((t1.dropWhile isSpace).takeWhile tokenChar)) rfl)
    refine ⟨b, _, _, _, hb, hbearer, hs, hspace, hv, htoken, hrest, ?_, ?_⟩
    · rw [← h2, ← h1]
    · simp
  · rintro ⟨b, s, v, r, hb, hbearer, hs, hspace, hv, htoken, hrest, rfl, rfl⟩
    obtain ⟨d, v, rfl⟩ := List.exists_cons_of_ne_nil hv
    have hd : isSpace d = false := by
      cases h : isSpace d with
      | false => rfl
      | true =>
        have := htoken d List.mem_cons_self
        rw [tokenChar_not_space W h] at this
        exact absurd this nofun
    obtain ⟨h1, h2⟩ := takeWhile_dropWhile_iff.mpr
      (And.intro (Eq.refl (s ++ (d :: v ++ r))) (And.intro hspace (head_false hd)))
    obtain ⟨h3, h4⟩ := takeWhile_dropWhile_iff.mpr
      (And.intro (Eq.refl (d :: v ++ r)) (And.intro htoken hrest))
    refine ⟨(), hb, b, _, ⟨rfl, hbearer⟩, (), ?_, ?_⟩
    · rw [h1, h2, h3]
      exact ⟨hs, hv⟩
    · rw [h1, h2, h3, h4]
      simp

end Readers

/-! ## §4. The five substitutions. -/

/-- `_QUERY`. -/
def queryPattern : Pattern Char where
  find := findQuery W
  cut before t f h := by
    obtain ⟨n, v, r, -, -, -, -, -, rfl, rfl⟩ := findQuery_eq_some.mp h
    simp
  nonempty before t f h := by
    obtain ⟨n, v, r, -, -, -, -, -, -, rfl⟩ := findQuery_eq_some.mp h
    simp

/-- `_JSON_OBJECT`. -/
def objectPattern : Pattern Char where
  find _ := findObject W
  cut _ t f h := by
    obtain ⟨k, v, r, -, -, rfl, rfl⟩ := findObject_eq_some.mp h
    simp
  nonempty _ t f h := by
    obtain ⟨k, v, r, -, -, -, rfl⟩ := findObject_eq_some.mp h
    simp

/-- `_JSON_STRING`. -/
def stringPattern : Pattern Char where
  find _ := findString W
  cut _ t f h := by
    obtain ⟨k, v, r, -, -, rfl, rfl⟩ := findString_eq_some.mp h
    simp
  nonempty _ t f h := by
    obtain ⟨k, v, r, -, -, -, rfl⟩ := findString_eq_some.mp h
    simp

/-- `_ENCODED`. -/
def encodedPattern : Pattern Char where
  find _ := findEncoded W
  cut _ t f h := by
    obtain ⟨k, t', v, r, -, hup, rfl, rfl⟩ := findEncoded_eq_some.mp h
    rw [(upToMark_eq_some hup).1]
    simp
  nonempty _ t f h := by
    obtain ⟨k, t', v, r, -, -, -, rfl⟩ := findEncoded_eq_some.mp h
    simp

/-- `_BEARER`. -/
def bearerPattern : Pattern Char where
  find := findBearer W
  cut before t f h := by
    obtain ⟨b, s, v, r, -, -, -, -, -, -, -, rfl, rfl⟩ := findBearer_eq_some.mp h
    simp
  nonempty before t f h := by
    obtain ⟨b, s, v, r, -, -, hs, -, -, -, -, -, rfl⟩ := findBearer_eq_some.mp h
    simp [hs]

/-- `_QUERY.sub`, and so on. -/
def querySub (t : List Char) : List Char := (queryPattern W).sub none t
def objectSub (t : List Char) : List Char := (objectPattern W).sub none t
def stringSub (t : List Char) : List Char := (stringPattern W).sub none t
def encodedSub (t : List Char) : List Char := (encodedPattern W).sub none t
def bearerSub (t : List Char) : List Char := (bearerPattern W).sub none t

/-- `redact_secrets` of a text. -/
def redactText (t : List Char) : List Char :=
  if t.isEmpty then t else bearerSub W (encodedSub W (stringSub W (objectSub W (querySub W t))))

/-- `redact_secrets`. -/
def redactSecrets (text : Option (List Char)) : Option (List Char) := text.map (redactText W)

theorem redactText_eq (t : List Char) :
    redactText W t = bearerSub W (encodedSub W (stringSub W (objectSub W (querySub W t)))) := by
  unfold redactText
  split
  · next h =>
    rw [List.isEmpty_iff.mp h]
    rfl
  · rfl

end RagPipeline.Notifications.Redact
