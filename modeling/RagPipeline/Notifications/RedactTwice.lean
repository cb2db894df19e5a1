/-
  RagPipeline.Notifications.RedactTwice — what a second pass of `redact_secrets` still redacts.

  The first pass leaves every value of a query redacted (`QueriesRedacted`), and the other substitutions
  keep that.  What the patterns of strings, encoded values and tokens find in their own results is what
  they show already (`Pattern.Settled`), and a later substitution keeps that too.  Only an object can
  come to light.

    * `querySub_redactText`, `stringSub_redactText`, `encodedSub_redactText`, `bearerSub_redactText`;
    * `redactText_twice`   — a second pass changes the text if and only if an object that nests no
      further is left in it;
    * `redactText_iterate` — and every pass that changes it opens a brace less.
-/
import Mathlib.Logic.Function.Iterate
import RagPipeline.Notifications.Redact

namespace RagPipeline.Notifications.Redact

open RagPipeline.Lib

variable (W : Words)

/-! ## §1. Queries. -/

section Queries

variable {W}

theorem secretName_iff {n : List Char} :
    secretName n = true ↔ ∃ a k, n = a ++ k ∧ k.map lowered ∈ keywords := by
  unfold secretName
  rw [List.any_eq_true]
  constructor
  · rintro ⟨l, hl, hsuf⟩
    obtain ⟨a, ha⟩ := List.isSuffixOf_iff_suffix.mp hsuf
    obtain ⟨x, k, rfl, -, rfl⟩ := List.map_eq_append_iff.mp ha.symm
    exact ⟨x, k, rfl, hl⟩
  · rintro ⟨a, k, rfl, hk⟩
    refine ⟨_, hk, List.isSuffixOf_iff_suffix.mpr ?_⟩
    rw [List.map_append]
    exact List.suffix_append _ _

theorem not_mem_keyword {c : Char} (hc : ∀ l ∈ keywords, lowered c ∉ l) {k : List Char}
    (hk : k.map lowered ∈ keywords) : c ∉ k :=
  not_mem_of_lowered rfl (hc _ hk)

theorem keyword_ne_nil {k : List Char} (hk : k.map lowered ∈ keywords) : k ≠ [] := by
  rintro rfl
  exact absurd hk (by decide)

theorem nameChar_of_keyword {k : List Char} (hk : k.map lowered ∈ keywords) {c : Char} (hc : c ∈ k) :
    W.nameChar c = true := by
  have hall : ∀ l ∈ keywords, (l.all fun d => decide (d.toNat < 128 ∧ (asciiWord d || d == '-') = true)) = true := by
    decide
  obtain ⟨hlt, hd⟩ := forall_of_all (hall _ hk) _ (List.mem_map_of_mem hc)
  unfold Words.nameChar
  unfold lowered at hlt hd
  cases hf : foldings.find? (fun f => f.1 == c) with
  | none =>
    rw [hf] at hlt hd
    have hlt : c.toNat < 128 := hlt
    have hd : (asciiWord c || c == '-') = true := hd
    rw [W.ascii c hlt]
    rcases Bool.or_eq_true_iff.mp hd with h | h
    · simp [h]
    · simp [h]
  | some f =>
    have hfc : f.1 = c := eq_of_beq (@List.find?_some _ (fun f : Char × Char => f.1 == c) _ _ hf)
    rw [← hfc, W.letters f (List.mem_of_find?_eq_some hf)]
    rfl

theorem isName_of_keyword {k : List Char} (hk : k.map lowered ∈ keywords) : IsName W k :=
  ⟨fun _ hc => nameChar_of_keyword hk hc, secretName_iff.mpr ⟨[], k, rfl, hk⟩⟩

theorem IsName.cons {c : Char} {n : List Char} (hc : W.nameChar c = true) (hn : IsName W n) : IsName W (c :: n) := by
  obtain ⟨a, k, rfl, hk⟩ := secretName_iff.mp hn.2
  exact ⟨List.forall_mem_cons.mpr ⟨hc, hn.1⟩, secretName_iff.mpr ⟨c :: a, k, rfl, hk⟩⟩

/-- `(?!<redacted>)` does not hold here. -/
def AtRedacted (t : List Char) : Prop := redacted.isPrefixOf (t.map lowered) = true

theorem atRedacted_iff {t : List Char} : AtRedacted t ↔ ∃ m u, m.map lowered = redacted ∧ t = m ++ u := by
  unfold AtRedacted
  rw [List.isPrefixOf_iff_prefix]
  constructor
  · rintro ⟨x, hx⟩
    obtain ⟨m, u, rfl, hm, -⟩ := List.map_eq_append_iff.mp hx.symm
    exact ⟨m, u, hm, rfl⟩
  · rintro ⟨m, u, hm, rfl⟩
    rw [List.map_append, hm]
    exact List.prefix_append _ _

/-- Every value of a secret name is redacted, wherever the name begins. -/
def QueriesRedacted (t : List Char) : Prop :=
  ∀ k v, k.map lowered ∈ keywords → k ++ '=' :: v <:+ t → AtRedacted v

theorem QueriesRedacted.suffix {s t : List Char} (h : QueriesRedacted t) (hs : s <:+ t) : QueriesRedacted s :=
  fun k v hk hkv => h k v hk (hkv.trans hs)

/-- Then the query pattern finds nothing. -/
theorem QueriesRedacted.sub_eq {t : List Char} (h : QueriesRedacted t) (before : Option Char) :
    (queryPattern W).sub before t = t := by
  refine Pattern.sub_eq_self (fun s hs before => ?_) before
  cases hf : (queryPattern W).find before s with
  | none => rfl
  | some f =>
    obtain ⟨n, v, r, -, hn, hnot, -, -, rfl, -⟩ := findQuery_eq_some.mp hf
    obtain ⟨a, k, rfl, hk⟩ := secretName_iff.mp hn.2
    have hat := h k (v ++ r) hk (by
      refine List.IsSuffix.trans ?_ hs
      rw [List.append_assoc]
      exact List.suffix_append _ _)
    exact absurd (hat.symm.trans hnot) nofun

theorem suffix_append_cases {α : Type} {s x y : List α} (h : s <:+ x ++ y) :
    s <:+ y ∨ ∃ x', x' ≠ [] ∧ x' <:+ x ∧ s = x' ++ y := by
  induction x with
  | nil => exact .inl h
  | cons a x ih =>
    rcases List.suffix_cons_iff.mp h with rfl | h
    · exact .inr ⟨a :: x, List.cons_ne_nil a x, List.suffix_refl _, rfl⟩
    · rcases ih h with h | ⟨x', hne, hx, rfl⟩
      · exact .inl h
      · exact .inr ⟨x', hne, hx.trans (List.suffix_cons a x), rfl⟩

/-- A name does not reach over what is no part of a name. -/
theorem name_past {d : Char} {n v x u : List Char} (h : n ++ '=' :: v = x ++ u) (hx : '=' ∉ x) (hd : d ∈ x)
    (hn : d ∉ n) : False := by
  obtain ⟨c, rfl, hc⟩ | ⟨a, rfl, -⟩ := List.append_eq_append_iff.mp h
  · cases c with
    | nil => exact hn (by simpa using hd)
    | cons e c =>
      obtain ⟨rfl, -⟩ := List.cons.inj hc
      exact hx (List.mem_append_right n List.mem_cons_self)
  · exact hn (List.mem_append_left _ hd)

theorem name_unique {n n' v v' : List Char} (hn : '=' ∉ n) (hn' : '=' ∉ n') (h : n ++ '=' :: v = n' ++ '=' :: v') :
    n = n' ∧ v = v' := by
  obtain ⟨a, rfl, ha⟩ | ⟨a, rfl, ha⟩ := List.append_eq_append_iff.mp h
  · cases a with
    | nil => exact ⟨by simp, (List.cons.inj ha).2⟩
    | cons c a =>
      obtain ⟨rfl, -⟩ := List.cons.inj ha
      exact absurd (List.mem_append_right n List.mem_cons_self) hn'
  · cases a with
    | nil => exact ⟨by simp, (List.cons.inj ha).2.symm⟩
    | cons c a =>
      obtain ⟨rfl, -⟩ := List.cons.inj ha
      exact absurd (List.mem_append_right n' List.mem_cons_self) hn

theorem find_query_equals {before : Option Char} {t : List Char} : (queryPattern W).find before ('=' :: t) = none := by
  cases hf : (queryPattern W).find before ('=' :: t) with
  | none => rfl
  | some f =>
    obtain ⟨n, v, r, -, hn, -, -, -, ht, -⟩ := findQuery_eq_some.mp hf
    cases n with
    | nil => exact absurd hn.2 (by decide)
    | cons c n =>
      obtain ⟨rfl, -⟩ := List.cons.inj ht
      exact absurd ((hn.1 _ List.mem_cons_self).symm.trans (W.not_nameChar '=')) nofun

/-- The rest of a name is copied. -/
theorem query_sub_name {n : List Char} (hn : ∀ c ∈ n, W.nameChar c = true) (v : List Char) : ∀ {before : Option Char},
    before.any W.nameChar = true →
    (queryPattern W).sub before (n ++ '=' :: v) = n ++ '=' :: (queryPattern W).sub (some '=') v := by
  induction n with
  | nil => exact fun _ => Pattern.sub_none find_query_equals
  | cons c n ih =>
    intro before hbefore
    have hnone : (queryPattern W).find before (c :: (n ++ '=' :: v)) = none := by
      cases hf : (queryPattern W).find before (c :: (n ++ '=' :: v)) with
      | none => rfl
      | some f =>
        obtain ⟨-, -, -, hb, -⟩ := findQuery_eq_some.mp hf
        exact absurd (hbefore.symm.trans hb) nofun
    have hc : (some c).any W.nameChar = true := hn c List.mem_cons_self
    rw [List.cons_append, Pattern.sub_none hnone, ih (fun d hd => hn d (List.mem_cons_of_mem c hd)) hc]
    rfl

/-- In any case, `<redacted>` ends with what is part of no name. -/
theorem marks_of_redacted {m : List Char} (hm : m.map lowered = redacted) :
    '=' ∉ m ∧ ∀ x c y, m = x ++ c :: y → '>' ∈ c :: y := by
  refine ⟨not_mem_of_lowered hm (by decide), fun x c y hxy => ?_⟩
  have hlast : (m.map lowered).getLast? = some '>' := by
    rw [hm]
    decide
  rw [hxy, List.map_append, List.map_cons, List.getLast?_append_of_ne_nil _ (List.cons_ne_nil _ _), ← List.map_cons,
    List.getLast?_map, Option.map_eq_some_iff] at hlast
  obtain ⟨d, hd, hlow⟩ := hlast
  rw [← of_lowered hlow (by decide)]
  exact List.mem_of_getLast? hd

theorem query_copies_redacted {m : List Char} (hm : m.map lowered = redacted) : (queryPattern W).Copies m := by
  obtain ⟨hequals, hend⟩ := marks_of_redacted hm
  refine Pattern.copies_of_find fun x c y hxy before t => ?_
  cases hf : (queryPattern W).find before (c :: (y ++ t)) with
  | none => rfl
  | some f =>
    obtain ⟨n, v, r, -, hn, -, -, -, ht, -⟩ := findQuery_eq_some.mp hf
    refine (name_past (d := '>') (x := c :: y) (u := t) ht.symm ?_ (hend x c y hxy) fun h => ?_).elim
    · exact fun h => hequals (hxy ▸ List.mem_append_right x h)
    · exact absurd ((hn.1 _ h).symm.trans (W.not_nameChar '>')) nofun

/-- A value that stands redacted still does after a substitution that copies `<redacted>`. -/
theorem AtRedacted.sub {p : Pattern Char} (hp : ∀ m, m.map lowered = redacted → p.Copies m) {t : List Char}
    (h : AtRedacted t) (before : Option Char) : AtRedacted (p.sub before t) := by
  obtain ⟨m, u, hm, rfl⟩ := atRedacted_iff.mp h
  obtain ⟨after, hsub⟩ := hp m hm before u
  exact atRedacted_iff.mpr ⟨m, _, hm, hsub⟩

/-- Where a name goes on, the whole of it has been looked at. -/
def Tested (W : Words) (before : Option Char) (t : List Char) : Prop :=
  before.any W.nameChar = true → ∀ n v, t = n ++ '=' :: v → IsName W n → AtRedacted v

theorem Tested.of_copy {before : Option Char} {c : Char} {t : List Char} (h : Tested W before (c :: t))
    (hnone : (queryPattern W).find before (c :: t) = none) {n v : List Char} (ht : c :: t = n ++ '=' :: v)
    (hn : IsName W n) : AtRedacted v := by
  cases hb : before.any W.nameChar with
  | true => exact h hb n v ht hn
  | false =>
    by_contra hat
    obtain ⟨hv, htaken, hrest⟩ := takeWhile_dropWhile_iff.mp (And.intro (Eq.refl (v.takeWhile valueChar)) rfl)
    have hnot : redacted.isPrefixOf ((v.takeWhile valueChar ++ v.dropWhile valueChar).map lowered) = false := by
      rw [← hv]
      exact Bool.eq_false_iff.mpr hat
    have hfind := findQuery_eq_some.mpr ⟨n, _, _, hb, hn, hnot, htaken, hrest, rfl, rfl⟩
    rw [← hv, ← ht] at hfind
    exact absurd (hfind.symm.trans hnone) nofun

theorem nameChar_not_valueChar {c : Char} (h : valueChar c = false) : W.nameChar c = false := by
  unfold valueChar at h
  rw [Bool.not_eq_false', Bool.or_eq_true_iff] at h
  rcases h with h | h
  · unfold Words.nameChar
    have hall : ∀ d ∈ ['.', '-'], isSpace d = false := forall_of_all (by decide)
    have hne : ∀ d ∈ ['.', '-'], c ≠ d := by
      rintro d hd rfl
      exact absurd (h.symm.trans (hall _ hd)) nofun
    rw [W.spaces c h]
    simp [hne '.', hne '-']
  · have hall : ∀ d ∈ ['&', '"', Char.ofNat 39, '<', '>'], W.nameChar d = false := by
      simp only [List.forall_mem_cons]
      exact ⟨W.not_nameChar _, W.not_nameChar _, W.not_nameChar _, W.not_nameChar _, W.not_nameChar _, nofun⟩
    exact hall c (by simpa using h)

theorem blots_query (W : Words) : (queryPattern W).Blots redacted fun _ => True := by
  intro before t f hf
  obtain ⟨n, v, r, -, -, -, -, -, -, rfl⟩ := findQuery_eq_some.mp hf
  exact ⟨n ++ ['='], v, [], by simp, by simp, trivial⟩

/-- After the query substitution, every value of a secret name is redacted. -/
theorem queriesRedacted_sub (before : Option Char) (t : List Char) (h : Tested W before t) :
    QueriesRedacted ((queryPattern W).sub before t) := by
  induction before, t using Pattern.sub_induction (p := queryPattern W) with
  | nil before => exact fun k v _ hs => absurd (List.suffix_nil.mp hs) (by simp)
  | copy before c t hnone ih =>
    have hat := fun n v => @Tested.of_copy W before c t h hnone n v
    rw [Pattern.sub_none hnone]
    intro k v hk hs
    rcases List.suffix_cons_iff.mp hs with hwhole | hs
    · obtain ⟨d, k', rfl⟩ := List.exists_cons_of_ne_nil (keyword_ne_nil hk)
      obtain ⟨rfl, htail⟩ := List.cons.inj hwhole
      -- the name begins at the character copied, so the text has it there too
      have hsub : k' ++ '=' :: v = (queryPattern W).sub (some d) t := htail
      have hname : ∀ c ∈ d :: k', W.nameChar c = true := fun c hc => nameChar_of_keyword hk hc
      have hnot : '<' ∉ k' ++ ['='] := by
        have := List.not_mem_of_not_mem_cons (not_mem_keyword (c := '<') (by decide) hk)
        simpa using this
      have hblot := (blots_query W).sub (some d) t
      rw [← hsub, show k' ++ '=' :: v = (k' ++ ['=']) ++ v by simp] at hblot
      obtain ⟨v0, rfl, -⟩ := Blotted.of_append hnot hblot
      rw [List.append_assoc] at hsub hat
      have hbefore : (some d).any W.nameChar = true := hname d List.mem_cons_self
      have hcopied := query_sub_name (fun c hc => hname c (List.mem_cons_of_mem d hc)) v0 hbefore
      obtain rfl : v = (queryPattern W).sub (some '=') v0 := by
        have := hsub.trans hcopied
        simpa using this
      exact (hat (d :: k') v0 rfl (isName_of_keyword hk)).sub (fun m hm => query_copies_redacted hm) _
    · refine ih (fun hc n v ht hn => hat (c :: n) v ?_ (hn.cons hc)) k v hk hs
      rw [ht]
      rfl
  | hit before t f hf ih =>
    rw [Pattern.sub_some hf]
    obtain ⟨n, v0, r, -, hn, -, -, hr, rfl, rfl⟩ := findQuery_eq_some.mp hf
    have hrest := ih (fun _ n' v' ht hn' => by
      obtain rfl : r = n' ++ '=' :: v' := ht
      cases n' with
      | nil => exact absurd hn'.2 (by decide)
      | cons c n' => exact absurd ((hn'.1 c List.mem_cons_self).symm.trans (nameChar_not_valueChar (hr c rfl))) nofun)
    intro k v hk hs
    have hequals : '=' ∉ k := not_mem_keyword (by decide) hk
    -- the name is behind the hit, on its mark, across both, or the name of the hit itself
    rcases suffix_append_cases hs with hs | ⟨x, hne, hx, heq⟩
    · exact hrest k v hk hs
    · rcases suffix_append_cases hx with hx | ⟨n', -, hn', rfl⟩
      · rcases List.suffix_cons_iff.mp hx with rfl | hx
        · obtain ⟨d, k', rfl⟩ := List.exists_cons_of_ne_nil (keyword_ne_nil hk)
          obtain ⟨rfl, -⟩ := List.cons.inj heq
          exact absurd List.mem_cons_self hequals
        · obtain ⟨hno, hend⟩ := marks_of_redacted (m := redacted) (by decide)
          obtain ⟨y, hy⟩ := hx
          obtain ⟨c, x, rfl⟩ := List.exists_cons_of_ne_nil hne
          exact (name_past heq (fun h => hno (hy ▸ List.mem_append_right y h)) (hend y c x hy.symm)
            (not_mem_keyword (by decide) hk)).elim
      · have hn'' : '=' ∉ n' := fun h =>
          absurd ((hn.1 _ (hn'.subset h)).symm.trans (W.not_nameChar '=')) nofun
        rw [List.append_assoc] at heq
        obtain ⟨-, rfl⟩ := name_unique hequals hn'' heq
        exact atRedacted_iff.mpr ⟨redacted, _, by decide, rfl⟩

/-! ### The other patterns. -/

/-- Where one of the other patterns may find something. -/
def Starts (c : Char) : Prop := lowered c ∈ ['"', '%', 'b']

instance : DecidablePred Starts := fun c => inferInstanceAs (Decidable (lowered c ∈ ['"', '%', 'b']))

/-- Begins at a mark or at `bearer`, and shows no name of a query and nothing one could begin with. -/
structure Plain (p : Pattern Char) : Prop where
  starts : ∀ before c t f, p.find before (c :: t) = some f → Starts c ∧ ∃ u, f.shown = c :: u
  equals : ∀ before t f, p.find before t = some f → '=' ∉ f.shown
  ends : ∀ before t f, p.find before t = some f → ∃ x d, f.shown = x ++ [d] ∧ d ∈ ['"', '2', '>']

/-- What begins nothing was there before. -/
theorem Plain.of_append {p : Pattern Char} (hp : Plain p) {x : List Char} (hx : ∀ c ∈ x, ¬ Starts c) {v : List Char} :
    ∀ {before : Option Char} {t : List Char}, p.sub before t = x ++ v →
    ∃ after v', t = x ++ v' ∧ v = p.sub after v' := by
  induction x with
  | nil => exact fun {before t} h => ⟨before, t, rfl, h.symm⟩
  | cons c x ih =>
    intro before t h
    cases t with
    | nil => exact absurd h nofun
    | cons d t =>
      cases hf : p.find before (d :: t) with
      | none =>
        rw [Pattern.sub_none hf] at h
        obtain ⟨rfl, htail⟩ := List.cons.inj h
        obtain ⟨after, v', rfl, hv⟩ := ih (fun e he => hx e (List.mem_cons_of_mem _ he)) htail
        exact ⟨after, v', rfl, hv⟩
      | some f =>
        obtain ⟨hstarts, u, hu⟩ := hp.starts before d t f hf
        rw [Pattern.sub_some hf, hu] at h
        obtain ⟨rfl, -⟩ := List.cons.inj h
        exact absurd hstarts (hx _ List.mem_cons_self)

theorem Plain.copies_redacted {p : Pattern Char} (hp : Plain p) {m : List Char} (hm : m.map lowered = redacted) :
    p.Copies m := by
  refine Pattern.copies_of_starts (fun before c t f hf => (hp.starts before c t f hf).1) fun c hc hstarts => ?_
  have hall : ∀ d ∈ redacted, d ∉ ['"', '%', 'b'] := forall_of_all (by decide)
  exact hall _ (hm ▸ List.mem_map_of_mem hc) hstarts

/-- Redacted values stay redacted. -/
theorem Plain.queriesRedacted {p : Pattern Char} (hp : Plain p) (before : Option Char) (t : List Char)
    (h : QueriesRedacted t) : QueriesRedacted (p.sub before t) := by
  induction before, t using Pattern.sub_induction (p := p) with
  | nil before => exact h
  | copy before c t hnone ih =>
    rw [Pattern.sub_none hnone]
    intro k v hk hs
    rcases List.suffix_cons_iff.mp hs with hwhole | hs
    · obtain ⟨d, k', rfl⟩ := List.exists_cons_of_ne_nil (keyword_ne_nil hk)
      obtain ⟨rfl, htail⟩ := List.cons.inj hwhole
      have hsub : p.sub (some d) t = (k' ++ ['=']) ++ v := by
        rw [← htail]
        simp
      -- nothing of a name begins a mark or `bearer`
      have hstarts : ∀ c ∈ k' ++ ['='], ¬ Starts c := by
        have hall : ∀ l ∈ keywords, (l.all fun d => decide (d ∉ ['"', '%', 'b'])) = true := by decide
        intro c hc hc'
        rcases List.mem_append.mp hc with hc | hc
        · exact forall_of_all (hall _ hk) _ (List.mem_map_of_mem (List.mem_cons_of_mem d hc)) hc'
        · rw [List.mem_singleton.mp hc] at hc'
          exact absurd hc' (by decide)
      obtain ⟨after, v', rfl, rfl⟩ := hp.of_append hstarts hsub
      exact (h (d :: k') v' hk (by simp)).sub (fun m hm => hp.copies_redacted hm) after
    · exact ih (h.suffix (List.suffix_cons c t)) k v hk hs
  | hit before t f hf ih =>
    rw [Pattern.sub_some hf]
    intro k v hk hs
    rcases suffix_append_cases hs with hs | ⟨x, hne, hx, heq⟩
    · have hrest : f.rest <:+ t := ⟨f.taken, (p.cut before t f hf).symm⟩
      exact ih (h.suffix hrest) k v hk hs
    · obtain ⟨y, d, hshown, hd⟩ := hp.ends before t f hf
      -- the name would reach into what is shown, whose last sign is in no name
      have hdx : d ∈ x := by
        rw [hshown] at hx
        obtain ⟨z, hz⟩ := hx
        have hlast := congrArg List.getLast? hz
        rw [List.getLast?_append_of_ne_nil _ hne, List.getLast?_concat] at hlast
        exact List.mem_of_getLast? hlast
      have hdk : d ∉ k := by
        have hall : ∀ e ∈ ['"', '2', '>'], ∀ l ∈ keywords, lowered e ∉ l := forall_of_all (by decide)
        exact not_mem_keyword (hall d hd) hk
      exact (name_past heq (fun he => hp.equals before t f hf (hx.subset he)) hdx hdk).elim

theorem IsKey.not_mem {k : List Char} (hk : IsKey W k) {c : Char} (hquote : c ≠ '"') (hcolon : c ≠ ':')
    (hname : W.nameChar c = false) (hspace : isSpace c = false) : c ∉ k := by
  obtain ⟨n, s, s', hn, hs, hs', rfl⟩ := hk
  intro hc
  simp only [List.mem_cons, List.mem_append] at hc
  rcases hc with hc | hc | hc | hc | hc | hc
  · exact hquote hc
  · exact absurd ((hn.1 c hc).symm.trans hname) nofun
  · exact hquote hc
  · exact absurd ((hs c hc).symm.trans hspace) nofun
  · exact hcolon hc
  · exact absurd ((hs' c hc).symm.trans hspace) nofun

theorem IsKey.cons {k : List Char} (hk : IsKey W k) : ∃ k', k = '"' :: k' := by
  obtain ⟨n, s, s', -, -, -, rfl⟩ := hk
  exact ⟨_, rfl⟩

theorem IsHead.not_mem {h : List Char} (hh : IsHead W h) {c : Char} (hmark : lowered c ∉ "%22%3a%22".toList)
    (hne : c ∉ ['%', '2']) (hname : W.nameChar c = false) : c ∉ h := by
  obtain ⟨n, m, hn, hm, rfl⟩ := hh
  intro hc
  simp only [List.mem_cons, List.mem_append] at hc
  simp only [List.mem_cons, List.not_mem_nil, or_false, not_or] at hne
  rcases hc with hc | hc | hc | hc | hc
  · exact hne.1 hc
  · exact hne.2 hc
  · exact hne.2 hc
  · exact absurd ((hn.1 c hc).symm.trans hname) nofun
  · exact not_mem_of_lowered hm hmark hc

theorem plain_object (W : Words) : Plain (objectPattern W) where
  starts := by
    intro before c t f hf
    obtain ⟨k, v, r, hk, -, ht, rfl⟩ := findObject_eq_some.mp hf
    obtain ⟨k', rfl⟩ := hk.cons
    obtain ⟨rfl, -⟩ := List.cons.inj ht
    exact ⟨by decide, _, rfl⟩
  equals := by
    intro before t f hf
    obtain ⟨k, v, r, hk, -, -, rfl⟩ := findObject_eq_some.mp hf
    have hno : '=' ∉ '"' :: (redacted ++ ['"']) := by decide
    exact fun h => (List.mem_append.mp h).elim
      (hk.not_mem (by decide) (by decide) (W.not_nameChar '=') (by decide)) hno
  ends := by
    intro before t f hf
    obtain ⟨k, v, r, hk, -, -, rfl⟩ := findObject_eq_some.mp hf
    exact ⟨k ++ '"' :: redacted, '"', by simp, by decide⟩

theorem plain_string (W : Words) : Plain (stringPattern W) where
  starts := by
    intro before c t f hf
    obtain ⟨k, v, r, hk, -, ht, rfl⟩ := findString_eq_some.mp hf
    obtain ⟨k', rfl⟩ := hk.cons
    obtain ⟨rfl, -⟩ := List.cons.inj ht
    exact ⟨by decide, _, rfl⟩
  equals := by
    intro before t f hf
    obtain ⟨k, v, r, hk, -, -, rfl⟩ := findString_eq_some.mp hf
    have hno : '=' ∉ '"' :: (redacted ++ ['"']) := by decide
    exact fun h => (List.mem_append.mp h).elim
      (hk.not_mem (by decide) (by decide) (W.not_nameChar '=') (by decide)) hno
  ends := by
    intro before t f hf
    obtain ⟨k, v, r, hk, -, -, rfl⟩ := findString_eq_some.mp hf
    exact ⟨k ++ '"' :: redacted, '"', by simp, by decide⟩

theorem plain_encoded (W : Words) : Plain (encodedPattern W) where
  starts := by
    intro before c t f hf
    obtain ⟨h, t', v, r, hh, -, ht, rfl⟩ := findEncoded_eq_some.mp hf
    obtain ⟨n, m, -, -, rfl⟩ := hh
    obtain ⟨rfl, -⟩ := List.cons.inj ht
    exact ⟨by decide, _, rfl⟩
  equals := by
    intro before t f hf
    obtain ⟨h, t', v, r, hh, -, -, rfl⟩ := findEncoded_eq_some.mp hf
    have hno : '=' ∉ redacted ++ ['%', '2', '2'] := by decide
    exact fun h => (List.mem_append.mp h).elim (hh.not_mem (by decide) (by decide) (W.not_nameChar '=')) hno
  ends := by
    intro before t f hf
    obtain ⟨h, t', v, r, -, -, -, rfl⟩ := findEncoded_eq_some.mp hf
    exact ⟨h ++ (redacted ++ ['%', '2']), '2', by simp, by decide⟩

theorem plain_bearer (W : Words) : Plain (bearerPattern W) where
  starts := by
    intro before c t f hf
    obtain ⟨b, s, v, r, -, hb, -, -, -, -, -, ht, rfl⟩ := findBearer_eq_some.mp hf
    cases b with
    | nil => exact absurd hb (by decide)
    | cons d b =>
      obtain ⟨rfl, -⟩ := List.cons.inj ht
      have hlow : lowered c = 'b' := by
        have := congrArg List.head? hb
        simpa using this
      exact ⟨by unfold Starts; rw [hlow]; decide, _, rfl⟩
  equals := by
    intro before t f hf
    obtain ⟨b, s, v, r, -, hb, -, hs, -, -, -, -, rfl⟩ := findBearer_eq_some.mp hf
    have hno : '=' ∉ redacted := by decide
    intro h
    rcases List.mem_append.mp h with h | h
    · exact not_mem_of_lowered hb (by decide) h
    · rcases List.mem_append.mp h with h | h
      · exact absurd (hs _ h) (by decide)
      · exact hno h
  ends := by
    intro before t f hf
    obtain ⟨b, s, v, r, -, -, -, -, -, -, -, -, rfl⟩ := findBearer_eq_some.mp hf
    refine ⟨b ++ (s ++ ['<', 'r', 'e', 'd', 'a', 'c', 't', 'e', 'd']), '>', ?_, by decide⟩
    show b ++ (s ++ redacted) = _
    rw [redacted_eq, List.append_assoc, List.append_assoc]
    rfl

end Queries

/-! ## §2. Strings, encoded values and tokens. -/

section Settled

variable {W}

/-- What a string or an encoded value begins with does not begin elsewhere. -/
theorem string_starts : ∀ before c t f, (stringPattern W).find before (c :: t) = some f → c = '"' := by
  intro before c t f hf
  obtain ⟨k, v, r, hk, -, ht, -⟩ := findString_eq_some.mp hf
  obtain ⟨k', rfl⟩ := hk.cons
  exact (List.cons.inj ht).1

theorem encoded_starts : ∀ before c t f, (encodedPattern W).find before (c :: t) = some f → c = '%' := by
  intro before c t f hf
  obtain ⟨h, t', v, r, ⟨n, m, -, -, rfl⟩, -, ht, -⟩ := findEncoded_eq_some.mp hf
  exact (List.cons.inj ht).1

theorem bearer_starts : ∀ before c t f, (bearerPattern W).find before (c :: t) = some f → lowered c = 'b' := by
  intro before c t f hf
  obtain ⟨b, s, v, r, -, hb, -, -, -, -, -, ht, -⟩ := findBearer_eq_some.mp hf
  cases b with
  | nil => exact absurd hb (by decide)
  | cons d b =>
    obtain ⟨rfl, -⟩ := List.cons.inj ht
    have := congrArg List.head? hb
    simpa using this

/-- A string is found with anything in its quotes. -/
theorem findString_shown {k : List Char} (hk : IsKey W k) (before : Option Char) (u : List Char) :
    (stringPattern W).find before (k ++ '"' :: (redacted ++ ['"']) ++ u)
      = some ⟨k ++ '"' :: (redacted ++ ['"']), k ++ '"' :: (redacted ++ ['"']), u⟩ := by
  exact findString_eq_some.mpr ⟨k, redacted, u, hk, forall_of_all (by decide), by simp, rfl⟩

theorem findEncoded_shown {h : List Char} (hh : IsHead W h) (before : Option Char) (u : List Char) :
    (encodedPattern W).find before (h ++ (redacted ++ ['%', '2', '2']) ++ u)
      = some ⟨h ++ (redacted ++ ['%', '2', '2']), h ++ (redacted ++ ['%', '2', '2']), u⟩ := by
  refine findEncoded_eq_some.mpr ⟨h, redacted ++ '%' :: '2' :: '2' :: u, redacted, u, hh, ?_, by simp, rfl⟩
  rw [redacted_eq]
  rfl

/-- Blotting out makes no new string: its key and its quotes were there before. -/
theorem findString_none_of_blotted {P : List Char → Prop} {t u : List Char} (hblot : Blotted redacted P t u) {c : Char}
    {before : Option Char} (h : (stringPattern W).find before (c :: t) = none) :
    (stringPattern W).find before (c :: u) = none := by
  cases hf : (stringPattern W).find before (c :: u) with
  | none => rfl
  | some f =>
    obtain ⟨k, v, r, hk, hv, ht, -⟩ := findString_eq_some.mp hf
    obtain ⟨k', rfl⟩ := hk.cons
    obtain ⟨rfl, htail⟩ := List.cons.inj ht
    have hnot : '<' ∉ k' ++ ['"'] := by
      have := hk.not_mem (c := '<') (by decide) (by decide) (W.not_nameChar '<') (by decide)
      simpa using this
    have hsplit : u = (k' ++ ['"']) ++ (v ++ '"' :: r) := by
      rw [htail]
      simp
    rw [hsplit, redacted_eq] at hblot
    -- the name and its quote are no part of a mark, so they stood there before, and the closing quote did too
    obtain ⟨t', rfl, ht'⟩ := Blotted.of_append hnot hblot
    have hquote : '"' ∈ t' := ht'.mem (List.mem_append_right v List.mem_cons_self) (by decide)
    obtain ⟨h1, hv', hr'⟩ := takeWhile_dropWhile_iff.mp (And.intro (Eq.refl (t'.takeWhile noQuote)) rfl)
    cases hdrop : t'.dropWhile noQuote with
    | nil =>
      rw [hdrop, List.append_nil] at h1
      have := hv' '"' (h1 ▸ hquote)
      exact absurd this (by decide)
    | cons d r' =>
      obtain rfl : d = '"' := by
        have := hr' d (by rw [hdrop]; rfl)
        simpa [noQuote] using this
      have hfind := findString_eq_some.mpr ⟨'"' :: k', t'.takeWhile noQuote, r', hk, hv', rfl, rfl⟩
      rw [← hdrop, ← h1] at hfind
      have hcons : '"' :: k' ++ '"' :: t' = '"' :: ((k' ++ ['"']) ++ t') := by simp
      rw [hcons] at hfind
      exact absurd (hfind.symm.trans h) nofun

/-- Nor an encoded value, if no line break is blotted out. -/
theorem findEncoded_none_of_blotted {P : List Char → Prop} (hP : ∀ y, P y → '\n' ∉ y) {t u : List Char}
    (hblot : Blotted redacted P t u) {c : Char} {before : Option Char}
    (h : (encodedPattern W).find before (c :: t) = none) : (encodedPattern W).find before (c :: u) = none := by
  cases hf : (encodedPattern W).find before (c :: u) with
  | none => rfl
  | some f =>
    obtain ⟨hd, t2, v, r, hh, hup, ht, -⟩ := findEncoded_eq_some.mp hf
    have hnot : '<' ∉ hd := hh.not_mem (by decide) (by decide) (W.not_nameChar '<')
    obtain ⟨n, m, hn, hm, rfl⟩ := hh
    obtain ⟨rfl, rfl⟩ := List.cons.inj ht
    obtain ⟨rfl, hv⟩ := upToMark_eq_some hup
    rw [redacted_eq] at hblot
    obtain ⟨t', rfl, ht'⟩ := Blotted.of_append (List.not_mem_of_not_mem_cons hnot) hblot
    obtain ⟨a, b, rfl, ha, hb⟩ := ht'.cut (by decide) rfl
    obtain ⟨b', rfl, -⟩ := Blotted.of_append (x := ['2', '2']) (by decide) hb
    have hline : '\n' ∉ a := fun hmem => hv (ha.mem_of_kept hmem hP)
    obtain ⟨⟨v', r'⟩, hup'⟩ := Option.ne_none_iff_exists'.mp (upToMark_ne_none hline (r := b'))
    have hfind := findEncoded_eq_some.mpr ⟨'%' :: '2' :: '2' :: (n ++ m), _, v', r', ⟨n, m, hn, hm, rfl⟩, hup', rfl, rfl⟩
    exact absurd (hfind.symm.trans h) nofun

theorem blots_string (W : Words) : (stringPattern W).Blots redacted fun _ => True := by
  intro before t f hf
  obtain ⟨k, v, r, -, -, -, rfl⟩ := findString_eq_some.mp hf
  exact ⟨k ++ ['"'], v, ['"'], by simp, by simp, trivial⟩

theorem blots_encoded (W : Words) : (encodedPattern W).Blots redacted fun y => '\n' ∉ y := by
  intro before t f hf
  obtain ⟨h, t', v, r, -, hup, -, rfl⟩ := findEncoded_eq_some.mp hf
  exact ⟨h, v, ['%', '2', '2'], by simp, by simp, (upToMark_eq_some hup).2⟩

theorem blots_bearer (W : Words) : (bearerPattern W).Blots redacted fun y => '\n' ∉ y := by
  intro before t f hf
  obtain ⟨b, s, v, r, -, -, -, -, -, hv, -, -, rfl⟩ := findBearer_eq_some.mp hf
  exact ⟨b ++ s, v, [], by simp, by simp, fun h => absurd (hv _ h) (by decide)⟩

/-- What the string substitution leaves is settled, -/
theorem settled_string (before : Option Char) (t : List Char) :
    (stringPattern W).Settled before ((stringPattern W).sub before t) := by
  refine Pattern.Settled.of_self (fun _ _ _ => rfl) ?_ ?_ before t
  · intro before t f hf u
    obtain ⟨k, v, r, hk, -, -, rfl⟩ := findString_eq_some.mp hf
    exact findString_shown hk before u
  · intro before c t hnone
    exact findString_none_of_blotted ((blots_string W).sub (some c) t) hnone

/-- and so is what the substitution of encoded values leaves. -/
theorem settled_encoded (before : Option Char) (t : List Char) :
    (encodedPattern W).Settled before ((encodedPattern W).sub before t) := by
  refine Pattern.Settled.of_self (fun _ _ _ => rfl) ?_ ?_ before t
  · intro before t f hf u
    obtain ⟨h, t', v, r, hh, -, -, rfl⟩ := findEncoded_eq_some.mp hf
    exact findEncoded_shown hh before u
  · intro before c t hnone
    exact findEncoded_none_of_blotted (fun _ h => h) ((blots_encoded W).sub (some c) t) hnone

/-! ### What the later patterns leave of the earlier ones. -/

/-- What an encoded value shows has no quote in it, and a string nothing that begins one. -/
theorem respects_encoded_string (W : Words) : (encodedPattern W).Respects (stringPattern W) where
  anywhere _ _ _ := rfl
  stands := by
    intro before t f hf hshown u
    obtain ⟨k, v, r, hk, -, -, rfl⟩ := findString_eq_some.mp hf
    rw [← hshown]
    exact findString_shown hk before u
  copied := by
    intro before t f hf hshown
    obtain ⟨k, v, r, hk, -, -, rfl⟩ := findString_eq_some.mp hf
    rw [← hshown]
    refine Pattern.copies_of_starts encoded_starts fun c hc hmark => ?_
    have hno : '%' ∉ '"' :: (redacted ++ ['"']) := by decide
    exact (List.mem_append.mp (hmark ▸ hc)).elim
      (hk.not_mem (by decide) (by decide) (W.not_nameChar '%') (by decide)) hno
  rest := by
    intro before t f hf h
    obtain ⟨hd, t', v, r, -, hup, rfl, rfl⟩ := findEncoded_eq_some.mp hf
    have hmark : ∀ before t f, (stringPattern W).find before t = some f → f.shown = f.taken → '%' ∉ f.taken := by
      intro before t f hf hshown
      obtain ⟨k, v, r, hk, -, -, rfl⟩ := findString_eq_some.mp hf
      rw [← hshown]
      have hno : '%' ∉ '"' :: (redacted ++ ['"']) := by decide
      exact fun hc => (List.mem_append.mp hc).elim
        (hk.not_mem (by decide) (by decide) (W.not_nameChar '%') (by decide)) hno
    -- what is left begins behind an encoded value: no string reaches over its mark, so it settles from the mark on
    rw [(upToMark_eq_some hup).1, ← List.append_assoc] at h
    obtain ⟨after, h⟩ := h.after hmark rfl
    have htwo : ∀ c ∈ ['2', '2'], ¬ c = '"' := by
      simp only [List.forall_mem_cons]
      exact ⟨by decide, by decide, nofun⟩
    exact Pattern.Settled.of_append (w := ['2', '2']) string_starts htwo h
  shown := by
    intro before t f hf u hu
    obtain ⟨hd, t', v, r, hh, -, -, rfl⟩ := findEncoded_eq_some.mp hf
    refine Pattern.Settled.append string_starts (fun c hc hquote => ?_) hu
    have hno : '"' ∉ redacted ++ ['%', '2', '2'] := by decide
    exact (List.mem_append.mp (hquote ▸ hc)).elim (hh.not_mem (by decide) (by decide) (W.not_nameChar '"')) hno
  none := fun _ _ c t h _ => findString_none_of_blotted ((blots_encoded W).sub (some c) t) h

theorem lowered_space (W : Words) {c : Char} (hc : isSpace c = true) : lowered c ≠ 'b' := by
  intro hlow
  have htoken : tokenChar c = true := by
    unfold tokenChar
    rw [hlow]
    rfl
  exact absurd (htoken.symm.trans (tokenChar_not_space W hc)) nofun

theorem nameChar_not_space {c : Char} (hc : isSpace c = true) : W.nameChar c = false :=
  nameChar_not_valueChar (by unfold valueChar; rw [hc]; rfl)

/-- A name that ends in a mark holds no `bearer` with a space behind it. -/
theorem bearer_copies_name {n : List Char} (hn : ∀ c ∈ n, W.nameChar c = true) {d : Char}
    (hlow : lowered d ∉ "bearer".toList) (hspace : isSpace d = false) : (bearerPattern W).Copies (n ++ [d]) := by
  refine Pattern.copies_of_find fun x c y hxy before t => ?_
  obtain ⟨n', hn', hy⟩ : ∃ n', (∀ e ∈ n', W.nameChar e = true) ∧ c :: y = n' ++ [d] := by
    rcases suffix_append_cases (⟨x, hxy.symm⟩ : c :: y <:+ n ++ [d]) with h | ⟨n', -, hsuf, h⟩
    · refine ⟨[], nofun, h.eq_of_length_le ?_⟩
      simp
    · exact ⟨n', fun e he => hn e (hsuf.subset he), h⟩
  cases hf : (bearerPattern W).find before (c :: (y ++ t)) with
  | none => rfl
  | some f =>
    obtain ⟨b, s, v, r, -, hb, hne, hs, -, -, -, ht, -⟩ := findBearer_eq_some.mp hf
    obtain ⟨e, s, rfl⟩ := List.exists_cons_of_ne_nil hne
    have he : isSpace e = true := hs e List.mem_cons_self
    have heq : n' ++ d :: t = b ++ (e :: s ++ (v ++ r)) := by
      rw [← ht, ← List.cons_append, hy, List.append_assoc]
      rfl
    -- `bearer` ends inside the name, and then the space would be in it, or reaches over the mark
    obtain ⟨a, hba, hrest⟩ | ⟨a, hna, hrest⟩ := List.append_eq_append_iff.mp heq
    · cases a with
      | nil =>
        obtain ⟨rfl, -⟩ := List.cons.inj hrest
        exact absurd (he.symm.trans hspace) nofun
      | cons g a =>
        obtain ⟨rfl, -⟩ := List.cons.inj hrest
        exact absurd (hba ▸ List.mem_append_right n' List.mem_cons_self) (not_mem_of_lowered hb hlow)
    · cases a with
      | nil =>
        obtain ⟨rfl, -⟩ := List.cons.inj hrest
        exact absurd (he.symm.trans hspace) nofun
      | cons g a =>
        obtain ⟨rfl, -⟩ := List.cons.inj hrest
        have hname := hn' e (hna ▸ List.mem_append_right b List.mem_cons_self)
        exact absurd (hname.symm.trans (nameChar_not_space he)) nofun

theorem bearer_copies_string {k : List Char} (hk : IsKey W k) :
    (bearerPattern W).Copies (k ++ '"' :: (redacted ++ ['"'])) := by
  obtain ⟨n, s, s', hn, hs, hs', rfl⟩ := hk
  have hquote : (bearerPattern W).Copies ['"'] := by
    refine Pattern.copies_of_starts bearer_starts fun c hc => ?_
    rw [List.mem_singleton.mp hc]
    decide
  have hrest : (bearerPattern W).Copies (s ++ ':' :: (s' ++ '"' :: (redacted ++ ['"']))) := by
    refine Pattern.copies_of_starts bearer_starts fun c hc => ?_
    have hno : 'b' ∉ ('"' :: (redacted ++ ['"'])).map lowered := by decide
    rcases List.mem_append.mp hc with hc | hc
    · exact lowered_space W (hs c hc)
    · rcases List.mem_cons.mp hc with rfl | hc
      · decide
      · rcases List.mem_append.mp hc with hc | hc
        · exact lowered_space W (hs' c hc)
        · exact fun h => hno (h ▸ List.mem_map_of_mem hc)
  have hall := hquote.append ((bearer_copies_name hn.1 (d := '"') (by decide) (by decide)).append hrest)
  simpa using hall

theorem bearer_copies_encoded {h : List Char} (hh : IsHead W h) :
    (bearerPattern W).Copies (h ++ (redacted ++ ['%', '2', '2'])) := by
  obtain ⟨n, m, hn, hm, rfl⟩ := hh
  obtain ⟨m', rfl⟩ : ∃ m', m = '%' :: m' := head_of_lowered hm (by decide)
  have hmark : (bearerPattern W).Copies ['%', '2', '2'] := by
    refine Pattern.copies_of_starts bearer_starts fun c hc => ?_
    have hno : 'b' ∉ ['%', '2', '2'].map lowered := by decide
    exact fun h => hno (h ▸ List.mem_map_of_mem hc)
  have hrest : (bearerPattern W).Copies (m' ++ (redacted ++ ['%', '2', '2'])) := by
    refine Pattern.copies_of_starts bearer_starts fun c hc hb => ?_
    have hno : 'b' ∉ (redacted ++ ['%', '2', '2']).map lowered := by decide
    rcases List.mem_append.mp hc with hc | hc
    · have hall : 'b' ∉ "%22%3a%22".toList := by decide
      exact hall (hb ▸ hm ▸ List.mem_map_of_mem (List.mem_cons_of_mem '%' hc))
    · exact hno (hb ▸ List.mem_map_of_mem hc)
  have hall := hmark.append ((bearer_copies_name hn.1 (d := '%') (by decide) (by decide)).append hrest)
  simpa using hall

/-- What no part of a token may hold is in nothing the bearer pattern takes or shows. -/
theorem not_mem_bearer {before : Option Char} {t : List Char} {f : Found Char}
    (hf : (bearerPattern W).find before t = some f) {c : Char} (hlow : lowered c ∉ "bearer".toList)
    (hspace : isSpace c = false) (htoken : tokenChar c = false) (hred : c ∉ redacted) : c ∉ f.taken ∧ c ∉ f.shown := by
  obtain ⟨b, s, v, r, -, hb, -, hs, -, hv, -, -, rfl⟩ := findBearer_eq_some.mp hf
  have hcb : c ∉ b := not_mem_of_lowered hb hlow
  have hcs : c ∉ s := fun h => absurd ((hs c h).symm.trans hspace) nofun
  have hcv : c ∉ v := fun h => absurd ((hv c h).symm.trans htoken) nofun
  constructor
  · simp [hcb, hcs, hcv]
  · simp [hcb, hcs, hred]

theorem respects_bearer_string (W : Words) : (bearerPattern W).Respects (stringPattern W) where
  anywhere _ _ _ := rfl
  stands := (respects_encoded_string W).stands
  copied := by
    intro before t f hf hshown
    obtain ⟨k, v, r, hk, -, -, rfl⟩ := findString_eq_some.mp hf
    rw [← hshown]
    exact bearer_copies_string hk
  rest := by
    intro before t f hf h
    have hno := not_mem_bearer hf (c := '"') (by decide) (by decide) (by decide) (by decide)
    rw [(bearerPattern W).cut before t f hf] at h
    exact Pattern.Settled.of_append string_starts (fun c hc hquote => hno.1 (hquote ▸ hc)) h
  shown := by
    intro before t f hf u hu
    have hno := not_mem_bearer hf (c := '"') (by decide) (by decide) (by decide) (by decide)
    exact Pattern.Settled.append string_starts (fun c hc hquote => hno.2 (hquote ▸ hc)) hu
  none := fun _ _ c t h _ => findString_none_of_blotted ((blots_bearer W).sub (some c) t) h

theorem respects_bearer_encoded (W : Words) : (bearerPattern W).Respects (encodedPattern W) where
  anywhere _ _ _ := rfl
  stands := by
    intro before t f hf hshown u
    obtain ⟨h, t', v, r, hh, -, -, rfl⟩ := findEncoded_eq_some.mp hf
    rw [← hshown]
    exact findEncoded_shown hh before u
  copied := by
    intro before t f hf hshown
    obtain ⟨h, t', v, r, hh, -, -, rfl⟩ := findEncoded_eq_some.mp hf
    rw [← hshown]
    exact bearer_copies_encoded hh
  rest := by
    intro before t f hf h
    have hno := not_mem_bearer hf (c := '%') (by decide) (by decide) (by decide) (by decide)
    rw [(bearerPattern W).cut before t f hf] at h
    exact Pattern.Settled.of_append encoded_starts (fun c hc hmark => hno.1 (hmark ▸ hc)) h
  shown := by
    intro before t f hf u hu
    have hno := not_mem_bearer hf (c := '%') (by decide) (by decide) (by decide) (by decide)
    exact Pattern.Settled.append encoded_starts (fun c hc hmark => hno.2 (hmark ▸ hc)) hu
  none := fun _ _ c t h _ => findEncoded_none_of_blotted (fun _ h => h) ((blots_bearer W).sub (some c) t) h

end Settled

/-! ## §3. A second pass. -/

section Twice

variable {W}

/-- What is found when the rest has been substituted was found before. -/
theorem findBearer_sub_none {before : Option Char} {c : Char} {t : List Char}
    (hnone : (bearerPattern W).find before (c :: t) = none) :
    (bearerPattern W).find before (c :: (bearerPattern W).sub (some c) t) = none := by
  cases hf : (bearerPattern W).find before (c :: (bearerPattern W).sub (some c) t) with
  | none => rfl
  | some f =>
    obtain ⟨b, s, v, r, hbefore, hb, hs, hspace, hv, htoken, -, ht, -⟩ := findBearer_eq_some.mp hf
    obtain ⟨d, v, rfl⟩ := List.exists_cons_of_ne_nil hv
    cases b with
    | nil => exact absurd hb (by decide)
    | cons e b =>
      obtain ⟨rfl, htail⟩ := List.cons.inj ht
      have hblot := (blots_bearer W).sub (some c) t
      have hsplit : (bearerPattern W).sub (some c) t = (b ++ (s ++ [d])) ++ (v ++ r) := by
        rw [htail]
        simp
      -- up to the token's first character there is no `<`, so nothing was substituted there
      have hnot : '<' ∉ b ++ (s ++ [d]) := by
        have hcb : '<' ∉ b := List.not_mem_of_not_mem_cons (not_mem_of_lowered hb (by decide))
        have hcs : '<' ∉ s := fun h => absurd (hspace _ h) (by decide)
        have hcd : '<' ≠ d := fun h => absurd (h ▸ htoken d List.mem_cons_self) (by decide)
        simp [hcb, hcs, hcd]
      rw [hsplit, redacted_eq] at hblot
      obtain ⟨t', rfl, -⟩ := Blotted.of_append hnot hblot
      obtain ⟨h1, h2, h3⟩ := takeWhile_dropWhile_iff.mp (And.intro (Eq.refl (t'.takeWhile tokenChar)) rfl)
      have hfind := findBearer_eq_some.mpr ⟨c :: b, s, d :: t'.takeWhile tokenChar, t'.dropWhile tokenChar, hbefore, hb,
        hs, hspace, nofun, List.forall_mem_cons.mpr ⟨htoken d List.mem_cons_self, h2⟩, h3, rfl, rfl⟩
      have hwhole : c :: b ++ (s ++ (d :: t'.takeWhile tokenChar ++ t'.dropWhile tokenChar)) =
          c :: ((b ++ (s ++ [d])) ++ t') := by
        conv_rhs => rw [h1]
        simp
      rw [hwhole] at hfind
      exact absurd (hfind.symm.trans hnone) nofun

/-- What comes after a token begins no `bearer`, whatever stands before it. -/
theorem settled_after_token {last : Option Char} {r : List Char} (hr : ∀ c ∈ r.head?, tokenChar c = false)
    (ih : (bearerPattern W).Settled last ((bearerPattern W).sub last r)) (before : Option Char) :
    (bearerPattern W).Settled before ((bearerPattern W).sub last r) := by
  cases r with
  | nil => exact .nil before
  | cons d r =>
    have hd : lowered d ≠ 'b' := by
      intro hlow
      have : tokenChar d = true := by
        unfold tokenChar
        rw [hlow]
        rfl
      exact absurd (this.symm.trans (hr d rfl)) nofun
    have hnone : ∀ before t, (bearerPattern W).find before (d :: t) = none :=
      Pattern.find_none_of_starts bearer_starts hd
    rw [Pattern.sub_none (hnone _ r)] at ih ⊢
    generalize hu : d :: (bearerPattern W).sub (some d) r = u at ih
    cases ih with
    | nil => exact absurd hu nofun
    | copy _ hsettled =>
      obtain ⟨rfl, rfl⟩ := List.cons.inj hu
      exact .copy (hnone before _) hsettled
    | hit hfind _ _ =>
      rw [← hu, hnone] at hfind
      exact absurd hfind nofun

/-- At the `bearer` that a substitution shows nothing is found: behind the spaces stands no token. -/
theorem findBearer_shown {c : Char} {b s u : List Char} (hb : (c :: b).map lowered = "bearer".toList)
    (hspace : ∀ c ∈ s, isSpace c = true) (before : Option Char) :
    (bearerPattern W).find before (c :: (b ++ ((s ++ redacted) ++ u))) = none := by
  cases hf : (bearerPattern W).find before (c :: (b ++ ((s ++ redacted) ++ u))) with
  | none => rfl
  | some g =>
    obtain ⟨b', s', v', r', -, hb', -, hspace', hv', htoken', -, ht', -⟩ := findBearer_eq_some.mp hf
    have hlen : (c :: b).length = b'.length := by
      have := congrArg List.length (hb.trans hb'.symm)
      rwa [List.length_map, List.length_map] at this
    obtain ⟨rfl, heq⟩ := List.append_inj (ht' : (c :: b) ++ _ = b' ++ _) hlen
    obtain ⟨d, v', rfl⟩ := List.exists_cons_of_ne_nil hv'
    have hd := htoken' d List.mem_cons_self
    -- behind the spaces stands `<`, and no token begins with it
    have h1 : (s ++ redacted ++ u).dropWhile isSpace = redacted ++ u := by
      rw [List.append_assoc]
      exact (takeWhile_dropWhile_iff.mpr ⟨rfl, hspace, by rw [redacted_eq]; exact head_false (by decide)⟩).2
    have h2 : (s' ++ (d :: v' ++ r')).dropWhile isSpace = d :: v' ++ r' := by
      refine (takeWhile_dropWhile_iff.mpr ⟨rfl, hspace', head_false ?_⟩).2
      cases h : isSpace d with
      | false => rfl
      | true => exact absurd (hd.symm.trans (tokenChar_not_space W h)) nofun
    rw [heq, h2, redacted_eq] at h1
    obtain ⟨rfl, -⟩ := List.cons.inj h1
    exact absurd hd (by decide)

/-- What the bearer substitution leaves is settled. -/
theorem settled_bearer (before : Option Char) (t : List Char) :
    (bearerPattern W).Settled before ((bearerPattern W).sub before t) := by
  induction before, t using Pattern.sub_induction (p := bearerPattern W) with
  | nil before => exact .nil before
  | copy before c t hnone ih =>
    rw [Pattern.sub_none hnone]
    exact .copy (findBearer_sub_none hnone) ih
  | hit before t f hf ih =>
    rw [Pattern.sub_some hf]
    obtain ⟨b, s, v, r, -, hb, hs, hspace, hv, htoken, hr, rfl, rfl⟩ := findBearer_eq_some.mp hf
    have hnext := settled_after_token hr ih
    generalize (bearerPattern W).sub (b ++ (s ++ v)).getLast? r = u at hnext
    have hafter : ∀ before, (bearerPattern W).Settled before ((s ++ redacted) ++ u) := by
      refine Pattern.Settled.append bearer_starts (fun c hc => ?_) hnext
      have hno : 'b' ∉ redacted.map lowered := by decide
      rcases List.mem_append.mp hc with hc | hc
      · exact lowered_space W (hspace c hc)
      · exact fun h => hno (h ▸ List.mem_map_of_mem hc)
    cases b with
    | nil => exact absurd hb (by decide)
    | cons c b =>
      -- a `bearer` that overlaps with this one would begin inside it
      have htail : b.map lowered = "earer".toList := (List.cons.inj hb).2
      have hrest : ∀ before, (bearerPattern W).Settled before (b ++ ((s ++ redacted) ++ u)) := by
        refine Pattern.Settled.append bearer_starts (fun d hd h => ?_) hafter
        have hno : 'b' ∉ "earer".toList := by decide
        exact hno (h ▸ htail ▸ List.mem_map_of_mem hd)
      have hall : (bearerPattern W).Settled before (c :: (b ++ ((s ++ redacted) ++ u))) :=
        .copy (findBearer_shown hb hspace before) (hrest _)
      simpa using hall

/-- An object under a secret name that nests no further stands in the text. -/
def HoldsObject (W : Words) (t : List Char) : Prop := ∃ s, s <:+ t ∧ findObject W s ≠ none

/-- How many braces the text opens. -/
def braces (t : List Char) : ℕ := t.countP (· == '{')

theorem blots_object (W : Words) : (objectPattern W).Blots ('"' :: (redacted ++ ['"'])) fun _ => True := by
  intro before t f hf
  obtain ⟨k, v, r, -, -, -, rfl⟩ := findObject_eq_some.mp hf
  exact ⟨k, '{' :: (v ++ ['}']), [], by simp, by simp, trivial⟩

/-- Where an object is found, fewer braces are open afterwards. -/
theorem objects_decrease (before : Option Char) (t : List Char)
    (h : HoldsObject W t) : braces ((objectPattern W).sub before t) < braces t := by
  have hnobrace : ('"' :: (redacted ++ ['"'])).countP (· == '{') = 0 := by decide
  unfold braces
  induction before, t using Pattern.sub_induction (p := objectPattern W) with
  | nil before =>
    obtain ⟨s, hs, hfind⟩ := h
    rw [List.suffix_nil.mp hs] at hfind
    exact absurd ((objectPattern W).find_nil none) hfind
  | copy before c t hnone ih =>
    rw [Pattern.sub_none hnone, List.countP_cons, List.countP_cons]
    obtain ⟨s, hs, hfind⟩ := h
    rcases List.suffix_cons_iff.mp hs with rfl | hs
    · exact absurd hnone hfind
    · have := ih ⟨s, hs, hfind⟩
      omega
  | hit before t f hf _ =>
    have hle := ((blots_object W).sub f.taken.getLast? f.rest).countP_le (· == '{') hnobrace
    rw [Pattern.sub_some hf]
    obtain ⟨k, v, r, -, -, rfl, rfl⟩ := findObject_eq_some.mp hf
    simp only [List.countP_append, List.countP_cons] at hle hnobrace ⊢
    have hopen : ('{' == '{') = true := by decide
    simp only [hopen, if_true]
    omega

/-- No substitution opens a brace. -/
theorem braces_le (t : List Char) : braces (bearerSub W (encodedSub W (stringSub W t))) ≤ braces t := by
  have hnobrace : redacted.countP (· == '{') = 0 := by decide
  calc braces (bearerSub W (encodedSub W (stringSub W t)))
      ≤ braces (encodedSub W (stringSub W t)) := ((blots_bearer W).sub none _).countP_le _ hnobrace
    _ ≤ braces (stringSub W t) := ((blots_encoded W).sub none _).countP_le _ hnobrace
    _ ≤ braces t := ((blots_string W).sub none t).countP_le _ hnobrace

/-- Of what a pass leaves the query pattern takes nothing, -/
theorem querySub_redactText (t : List Char) : querySub W (redactText W t) = redactText W t := by
  rw [redactText_eq]
  have hquery : QueriesRedacted (querySub W t) := queriesRedacted_sub none t nofun
  have hobject := (plain_object W).queriesRedacted none _ hquery
  have hstring := (plain_string W).queriesRedacted none _ hobject
  have hencoded := (plain_encoded W).queriesRedacted none _ hstring
  exact ((plain_bearer W).queriesRedacted none _ hencoded).sub_eq none

/-- nor does the string pattern, -/
theorem stringSub_redactText (t : List Char) : stringSub W (redactText W t) = redactText W t := by
  rw [redactText_eq]
  have hstring : (stringPattern W).Settled none (stringSub W (objectSub W (querySub W t))) := settled_string none _
  have hencoded := hstring.of_sub (respects_encoded_string W) none
  exact (hencoded.of_sub (respects_bearer_string W) none).sub_eq

/-- nor that of encoded values, -/
theorem encodedSub_redactText (t : List Char) : encodedSub W (redactText W t) = redactText W t := by
  rw [redactText_eq]
  have hencoded : (encodedPattern W).Settled none (encodedSub W (stringSub W (objectSub W (querySub W t)))) :=
    settled_encoded none _
  exact (hencoded.of_sub (respects_bearer_encoded W) none).sub_eq

/-- nor the bearer pattern. -/
theorem bearerSub_redactText (t : List Char) : bearerSub W (redactText W t) = redactText W t := by
  rw [redactText_eq]
  exact (settled_bearer none _).sub_eq

/-- A second pass changes the text if and only if the first one has left an object that nests no further. -/
theorem redactText_twice (t : List Char) :
    redactText W (redactText W t) = redactText W t ↔ ¬ HoldsObject W (redactText W t) := by
  have hpass := redactText_eq W (redactText W t)
  rw [querySub_redactText] at hpass
  constructor
  · intro heq hholds
    have hless : braces (objectSub W (redactText W t)) < braces (redactText W t) :=
      objects_decrease none (redactText W t) hholds
    have hle := braces_le (W := W) (objectSub W (redactText W t))
    rw [← hpass, heq] at hle
    omega
  · intro hnone
    have hobject : objectSub W (redactText W t) = redactText W t := by
      refine Pattern.sub_eq_self (fun s hs _ => ?_) none
      by_contra h
      exact hnone ⟨s, hs, h⟩
    rw [hpass, hobject, stringSub_redactText, encodedSub_redactText, bearerSub_redactText]

/-- Every pass but the last opens at least one brace less. -/
theorem redactText_iterate (n : ℕ) : ∀ t, braces (redactText W t) ≤ n →
    redactText W ((redactText W)^[n + 1] t) = (redactText W)^[n + 1] t := by
  induction n with
  | zero =>
    intro t ht
    refine (redactText_twice t).mpr fun hholds => ?_
    have hless := objects_decrease none (redactText W t) hholds
    omega
  | succ n ih =>
    intro t ht
    by_cases hholds : HoldsObject W (redactText W t)
    · have hless : braces (objectSub W (redactText W t)) < braces (redactText W t) :=
        objects_decrease none (redactText W t) hholds
      have hle := braces_le (W := W) (objectSub W (redactText W t))
      have hpass := redactText_eq W (redactText W t)
      rw [querySub_redactText] at hpass
      rw [← hpass] at hle
      exact ih (redactText W t) (by omega)
    · have hfixed := (redactText_twice t).mpr hholds
      rw [Function.iterate_succ_apply, Function.iterate_fixed hfixed, hfixed]

/-- The least of the tables. -/
def leastWords : Words where
  word c := asciiWord c || foldings.any fun f => f.1 == c
  ascii c hc := by
    cases hany : foldings.any fun f => f.1 == c with
    | false => simp
    | true =>
      have hall : (foldings.all fun f => 128 ≤ f.1.toNat || asciiWord f.1) = true := by decide
      obtain ⟨f, hf, hfc⟩ := List.any_eq_true.mp hany
      have h := List.all_eq_true.mp hall f hf
      rw [eq_of_beq hfc, Bool.or_eq_true_iff, decide_eq_true_eq] at h
      rcases h with h | h
      · omega
      · rw [h]
        rfl
  letters f hf := by
    rw [Bool.or_eq_true_iff]
    exact .inr (List.any_eq_true.mpr ⟨f, hf, beq_self_eq_true f.1⟩)
  spaces c hc := by
    have hfold : (foldings.all fun f => !isSpace f.1) = true := by decide
    rw [Bool.or_eq_false_iff]
    constructor
    · unfold isSpace at hc
      unfold asciiWord
      have ha : 'a'.val.toNat = 97 := rfl
      have hz : 'z'.val.toNat = 122 := rfl
      have hA : 'A'.val.toNat = 65 := rfl
      have hZ : 'Z'.val.toNat = 90 := rfl
      have h0 : '0'.val.toNat = 48 := rfl
      have h9 : '9'.val.toNat = 57 := rfl
      have hu : c = '_' → c.toNat = 95 := fun h => by rw [h]; rfl
      have hval : c.val.toNat = c.toNat := rfl
      simp only [Bool.or_eq_true, Bool.and_eq_true, decide_eq_true_eq, beq_iff_eq] at hc
      simp only [Bool.or_eq_false_iff, Bool.and_eq_false_iff, decide_eq_false_iff_not, Char.le_def,
        UInt32.le_iff_toNat_le, beq_eq_false_iff_ne]
      refine ⟨⟨⟨?_, ?_⟩, ?_⟩, fun h => ?_⟩
      · omega
      · omega
      · omega
      · have := hu h
        omega
    · rw [Bool.eq_false_iff]
      intro hany
      obtain ⟨f, hf, hfc⟩ := List.any_eq_true.mp hany
      have h := List.all_eq_true.mp hfold f hf
      rw [eq_of_beq hfc, hc] at h
      exact absurd h nofun

end Twice

end RagPipeline.Notifications.Redact
