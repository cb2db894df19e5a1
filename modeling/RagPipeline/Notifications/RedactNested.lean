/-
  RagPipeline.Notifications.RedactNested — which texts one pass of `redact_secrets` does not finish.

  Of what a first pass leaves, a second one takes objects only (`redactText_twice`).  The key of such an
  object, its opening and its closing brace stood in the text itself, and what was between them was
  redacted on its own: a find shows `<redacted>` and no brace (`Masks`), so none reaches over a key and
  its brace, and none looks past a closing brace that it does not take (`Pattern.StopsAt`).

    * `Masks.back`          — an object of the result, back through one substitution;
    * `NestedSecret`        — a secret object with braces in it that one pass takes all;
    * `holdsObject_nested`  — no other object comes to light;
    * `redactSecrets_twice` — so without one, one pass is enough.
-/
import RagPipeline.Notifications.RedactTwice

namespace RagPipeline.Notifications.Redact

open RagPipeline.Lib

variable {W : Words}

/-! ## §1. What a find shows, and how far it looks. -/

/-- Shows `<redacted>` and no brace, and looks no further than a closing brace. -/
structure Masks (p : Pattern Char) : Prop where
  marks : ∀ before t f, p.find before t = some f → '<' ∈ f.shown
  opens : ∀ before t f, p.find before t = some f → '{' ∉ f.shown
  closes : ∀ before t f, p.find before t = some f → '}' ∉ f.shown
  stops : p.StopsAt '}'

theorem mem_redacted : '<' ∈ redacted := by decide

theorem brace_not_mem_redacted {c : Char} (hc : noBrace c = false) : c ∉ redacted := by
  have hall : ∀ d ∈ redacted, noBrace d = true := forall_of_all (by decide)
  exact fun h => Bool.false_ne_true (hc.symm.trans (hall c h))

theorem brace_cases {c : Char} (hc : noBrace c = false) : c = '{' ∨ c = '}' := by
  unfold noBrace at hc
  simpa [or_iff_not_imp_left] using hc

/-- A brace is in no name. -/
theorem brace_not_nameChar (W : Words) {c : Char} (hc : noBrace c = false) : W.nameChar c = false := by
  rcases brace_cases hc with rfl | rfl
  · exact W.not_nameChar '{'
  · exact W.not_nameChar '}'

theorem IsName.brace_not_mem {n : List Char} (hn : IsName W n) {c : Char} (hc : noBrace c = false) : c ∉ n := by
  intro h
  have hname := hn.1 c h
  rw [brace_not_nameChar W hc] at hname
  exact Bool.false_ne_true hname

theorem IsKey.brace_not_mem {k : List Char} (hk : IsKey W k) {c : Char} (hc : noBrace c = false) : c ∉ k := by
  rcases brace_cases hc with rfl | rfl
  · exact hk.not_mem (by decide) (by decide) (W.not_nameChar '{') (by decide)
  · exact hk.not_mem (by decide) (by decide) (W.not_nameChar '}') (by decide)

theorem IsKey.mark_not_mem {k : List Char} (hk : IsKey W k) : '<' ∉ k :=
  hk.not_mem (by decide) (by decide) (W.not_nameChar '<') (by decide)

theorem IsHead.brace_not_mem {h : List Char} (hh : IsHead W h) {c : Char} (hc : noBrace c = false) : c ∉ h := by
  rcases brace_cases hc with rfl | rfl
  · exact hh.not_mem (by decide) (by decide) (W.not_nameChar '{')
  · exact hh.not_mem (by decide) (by decide) (W.not_nameChar '}')

/-- What is cut off at a `}` is cut off in the rest. -/
theorem cut_rest {x r s b s' : List Char} (h : s ++ '}' :: b = x ++ r) (hr : r = s' ++ '}' :: b) : s = x ++ s' := by
  rw [hr, ← List.append_assoc] at h
  exact List.append_cancel_right h

/-- A text that does not begin with `<redacted>` does not if a brace follows it. -/
theorem not_redacted_append {x b : List Char} (h : redacted.isPrefixOf (x.map lowered) = false) :
    redacted.isPrefixOf ((x ++ '}' :: b).map lowered) = false := by
  rw [Bool.eq_false_iff] at h ⊢
  refine fun hpre => h ?_
  rw [List.isPrefixOf_iff_prefix] at hpre ⊢
  rw [List.map_append] at hpre
  rcases le_or_gt redacted.length (x.map lowered).length with hlen | hlen
  · exact List.prefix_of_prefix_length_le hpre (List.prefix_append _ _) hlen
  · -- the brace would be one of its characters
    have hbrace : x.map lowered ++ ['}'] <+: redacted := by
      refine List.prefix_of_prefix_length_le ⟨b.map lowered, ?_⟩ hpre (by rw [List.length_append]; exact hlen)
      rw [List.append_assoc]
      rfl
    exact absurd (hbrace.subset (List.mem_append_right _ (List.mem_singleton_self _))) (by decide)

theorem not_redacted_of_append {x b : List Char} (h : redacted.isPrefixOf ((x ++ b).map lowered) = false) :
    redacted.isPrefixOf (x.map lowered) = false := by
  rw [Bool.eq_false_iff] at h ⊢
  refine fun hpre => h ?_
  rw [List.isPrefixOf_iff_prefix] at hpre ⊢
  rw [List.map_append]
  exact hpre.trans (List.prefix_append _ _)

/-- The head of what a `}` follows. -/
theorem head_of_append {P : Char → Prop} {s' b : List Char} (h : ∀ c ∈ (s' ++ '}' :: b).head?, P c) :
    ∀ c ∈ s'.head?, P c := by
  cases s' with
  | nil => exact fun c hc => absurd hc nofun
  | cons d s' => exact h

theorem masks_query (W : Words) : Masks (queryPattern W) := by
  have hshown : ∀ {before t f}, (queryPattern W).find before t = some f → ∀ {c}, noBrace c = false → c ∉ f.shown := by
    intro before t f hf c hc
    obtain ⟨n, v, r, -, hn, -, -, -, -, rfl⟩ := findQuery_eq_some.mp hf
    intro h
    rcases List.mem_append.mp h with h | h
    · exact hn.brace_not_mem hc h
    · rcases List.mem_cons.mp h with rfl | h
      · exact absurd hc (by decide)
      · exact brace_not_mem_redacted hc h
  refine ⟨fun before t f hf => ?_, fun _ _ _ hf => hshown hf (by decide), fun _ _ _ hf => hshown hf (by decide), ?_, ?_⟩
  · obtain ⟨n, v, r, -, -, -, -, -, -, rfl⟩ := findQuery_eq_some.mp hf
    exact List.mem_append_right n (List.mem_cons_of_mem _ mem_redacted)
  · intro before s b f hf s' hs'
    obtain ⟨n, v, r, hb, hn, hnot, hv, hr, ht, rfl⟩ := findQuery_eq_some.mp hf
    obtain rfl : r = s' ++ '}' :: b := hs'
    have hs : s = (n ++ '=' :: v) ++ s' := cut_rest (by simpa using ht) rfl
    refine findQuery_eq_some.mpr ⟨n, v, s', hb, hn, ?_, hv, head_of_append hr, by simpa using hs, rfl⟩
    rw [← List.append_assoc] at hnot
    exact not_redacted_of_append hnot
  · intro before s b hnone
    cases hf : (queryPattern W).find before s with
    | none => rfl
    | some f =>
      obtain ⟨n, v, r, hb, hn, hnot, hv, hr, rfl, -⟩ := findQuery_eq_some.mp hf
      -- with the brace behind it the value may grow, but a find stays a find
      obtain ⟨hspan, hv', hr'⟩ := takeWhile_dropWhile_iff.mp
        (And.intro (Eq.refl ((v ++ (r ++ '}' :: b)).takeWhile valueChar)) rfl)
      have hfind : findQuery W before _ = some ⟨_, _, _⟩ := findQuery_eq_some.mpr ⟨n, _, _, hb, hn,
        hspan ▸ (by rw [← List.append_assoc]; exact not_redacted_append hnot), hv', hr', rfl, rfl⟩
      rw [← hspan] at hfind
      have hsame : n ++ '=' :: (v ++ (r ++ '}' :: b)) = n ++ '=' :: (v ++ r) ++ '}' :: b := by simp
      rw [hsame] at hfind
      exact absurd (hnone.symm.trans hfind) (by simp)

theorem masks_object (W : Words) : Masks (objectPattern W) := by
  have hshown : ∀ {before t f}, (objectPattern W).find before t = some f → ∀ {c}, noBrace c = false → c ∉ f.shown := by
    intro before t f hf c hc
    obtain ⟨k, v, r, hk, -, -, rfl⟩ := findObject_eq_some.mp hf
    have hquote : c ≠ '"' := fun h => absurd (h ▸ hc) (by decide)
    simp [hk.brace_not_mem hc, hquote, brace_not_mem_redacted hc]
  refine ⟨fun before t f hf => ?_, fun _ _ _ hf => hshown hf (by decide), fun _ _ _ hf => hshown hf (by decide), ?_, ?_⟩
  · obtain ⟨k, v, r, -, -, -, rfl⟩ := findObject_eq_some.mp hf
    simp [mem_redacted]
  · intro before s b f hf s' hs'
    obtain ⟨k, v, r, hk, hv, ht, rfl⟩ := findObject_eq_some.mp hf
    obtain rfl : r = s' ++ '}' :: b := hs'
    have hs : s = (k ++ '{' :: (v ++ ['}'])) ++ s' := cut_rest (by simpa using ht) rfl
    exact findObject_eq_some.mpr ⟨k, v, s', hk, hv, by simpa using hs, rfl⟩
  · intro before s b hnone
    cases hf : (objectPattern W).find before s with
    | none => rfl
    | some f =>
      obtain ⟨k, v, r, hk, hv, rfl, -⟩ := findObject_eq_some.mp hf
      have hfind := findObject_eq_some (W := W) (f := ⟨_, _, _⟩).mpr ⟨k, v, r ++ '}' :: b, hk, hv, rfl, rfl⟩
      have hsame : k ++ '{' :: (v ++ '}' :: (r ++ '}' :: b)) = k ++ '{' :: (v ++ '}' :: r) ++ '}' :: b := by simp
      rw [hsame] at hfind
      exact absurd (hnone.symm.trans hfind) (by simp)

theorem masks_string (W : Words) : Masks (stringPattern W) := by
  have hshown : ∀ {before t f}, (stringPattern W).find before t = some f → ∀ {c}, noBrace c = false → c ∉ f.shown := by
    intro before t f hf c hc
    obtain ⟨k, v, r, hk, -, -, rfl⟩ := findString_eq_some.mp hf
    have hquote : c ≠ '"' := fun h => absurd (h ▸ hc) (by decide)
    simp [hk.brace_not_mem hc, hquote, brace_not_mem_redacted hc]
  refine ⟨fun before t f hf => ?_, fun _ _ _ hf => hshown hf (by decide), fun _ _ _ hf => hshown hf (by decide), ?_, ?_⟩
  · obtain ⟨k, v, r, -, -, -, rfl⟩ := findString_eq_some.mp hf
    simp [mem_redacted]
  · intro before s b f hf s' hs'
    obtain ⟨k, v, r, hk, hv, ht, rfl⟩ := findString_eq_some.mp hf
    obtain rfl : r = s' ++ '}' :: b := hs'
    have hs : s = (k ++ '"' :: (v ++ ['"'])) ++ s' := cut_rest (by simpa using ht) rfl
    exact findString_eq_some.mpr ⟨k, v, s', hk, hv, by simpa using hs, rfl⟩
  · intro before s b hnone
    cases hf : (stringPattern W).find before s with
    | none => rfl
    | some f =>
      obtain ⟨k, v, r, hk, hv, rfl, -⟩ := findString_eq_some.mp hf
      have hfind := findString_eq_some (W := W) (f := ⟨_, _, _⟩).mpr ⟨k, v, r ++ '}' :: b, hk, hv, rfl, rfl⟩
      have hsame : k ++ '"' :: (v ++ '"' :: (r ++ '}' :: b)) = k ++ '"' :: (v ++ '"' :: r) ++ '}' :: b := by simp
      rw [hsame] at hfind
      exact absurd (hnone.symm.trans hfind) (by simp)

/-- The end of an encoded value is looked for no further than a brace behind it. -/
theorem upToMark_cut {x y v s' : List Char} (h : upToMark (x ++ y) = some (v, s' ++ y)) :
    upToMark x = some (v, s') := by
  induction x generalizing v with
  | nil =>
    have hlen := congrArg List.length (upToMark_eq_some h).1
    simp only [List.nil_append, List.length_append, List.length_cons] at hlen
    omega
  | cons c x ih =>
    rw [List.cons_append] at h
    unfold upToMark at h ⊢
    -- the mark that is found lies in front of the cut, for what is behind it still ends with y
    cases hm : literal ['%', '2', '2'] (c :: (x ++ y)) with
    | some f =>
      obtain ⟨m, r⟩ := f
      rw [hm] at h
      obtain ⟨rfl, rfl⟩ := Prod.mk.inj (Option.some.inj h)
      have htext := (literal_mark22.mp hm).1
      have hx : c :: x = '%' :: '2' :: '2' :: s' := by
        have hall : (c :: x) ++ y = ('%' :: '2' :: '2' :: s') ++ y := htext
        exact List.append_cancel_right hall
      rw [literal_mark22.mpr ⟨hx, rfl⟩]
    | none =>
      rw [hm] at h
      have hnot : literal ['%', '2', '2'] (c :: x) = none := by
        cases hx : literal ['%', '2', '2'] (c :: x) with
        | none => rfl
        | some f =>
          obtain ⟨m, r⟩ := f
          have htext : c :: (x ++ y) = '%' :: '2' :: '2' :: (r ++ y) := by
            have hall := congrArg (· ++ y) (literal_mark22.mp hx).1
            exact hall
          rw [literal_mark22.mpr ⟨htext, rfl⟩] at hm
          exact absurd hm (by simp)
      rw [hnot]
      simp only at h ⊢
      split at h
      · exact absurd h (by simp)
      · next hc =>
        rw [if_neg hc]
        obtain ⟨⟨v', r'⟩, hup, heq⟩ := Option.map_eq_some_iff.mp h
        obtain ⟨rfl, rfl⟩ := Prod.mk.inj heq
        rw [ih hup]
        rfl

theorem upToMark_append {x v r : List Char} (h : upToMark x = some (v, r)) (y : List Char) :
    ∃ v' r', upToMark (x ++ y) = some (v', r') := by
  obtain ⟨rfl, hv⟩ := upToMark_eq_some h
  have hfound := upToMark_ne_none (r := r ++ y) hv
  cases hup : upToMark (v ++ '%' :: '2' :: '2' :: (r ++ y)) with
  | none => exact absurd hup hfound
  | some f => exact ⟨f.1, f.2, by simpa using hup⟩

theorem masks_encoded (W : Words) : Masks (encodedPattern W) := by
  have hshown : ∀ {before t f}, (encodedPattern W).find before t = some f → ∀ {c}, noBrace c = false → c ∉ f.shown := by
    intro before t f hf c hc
    obtain ⟨h, t', v, r, hh, -, -, rfl⟩ := findEncoded_eq_some.mp hf
    have hmark : c ∉ ['%', '2', '2'] := by
      rcases brace_cases hc with rfl | rfl <;> decide
    intro hmem
    rcases List.mem_append.mp hmem with hmem | hmem
    · exact hh.brace_not_mem hc hmem
    · rcases List.mem_append.mp hmem with hmem | hmem
      · exact brace_not_mem_redacted hc hmem
      · exact hmark hmem
  refine ⟨fun before t f hf => ?_, fun _ _ _ hf => hshown hf (by decide), fun _ _ _ hf => hshown hf (by decide), ?_, ?_⟩
  · obtain ⟨h, t', v, r, -, -, -, rfl⟩ := findEncoded_eq_some.mp hf
    simp [mem_redacted]
  · intro before s b f hf s' hs'
    obtain ⟨h, t', v, r, hh, hup, ht, rfl⟩ := findEncoded_eq_some.mp hf
    obtain rfl : r = s' ++ '}' :: b := hs'
    have htext := (upToMark_eq_some hup).1
    have hs : s = (h ++ (v ++ ['%', '2', '2'])) ++ s' := cut_rest (by rw [ht, htext]; simp) rfl
    -- the value ends at its mark, which is in front of the brace
    have hcut : upToMark ((v ++ '%' :: '2' :: '2' :: s') ++ '}' :: b) = some (v, s' ++ '}' :: b) := by
      rw [← hup, htext]
      simp
    exact findEncoded_eq_some.mpr ⟨h, _, v, s', hh, upToMark_cut hcut, by simpa using hs, rfl⟩
  · intro before s b hnone
    cases hf : (encodedPattern W).find before s with
    | none => rfl
    | some f =>
      obtain ⟨h, t', v, r, hh, hup, rfl, -⟩ := findEncoded_eq_some.mp hf
      obtain ⟨v', r', hup'⟩ := upToMark_append hup ('}' :: b)
      have hfind := findEncoded_eq_some (W := W) (f := ⟨_, _, _⟩).mpr ⟨h, _, v', r', hh, hup', rfl, rfl⟩
      rw [← List.append_assoc] at hfind
      exact absurd (hnone.symm.trans hfind) (by simp)

theorem masks_bearer (W : Words) : Masks (bearerPattern W) := by
  -- what is shown is the word, the blanks and the mark: no brace in any of them
  have hshown : ∀ {before t f}, (bearerPattern W).find before t = some f → ∀ {c}, noBrace c = false → c ∉ f.shown := by
    intro before t f hf c hc
    obtain ⟨b, s, v, r, -, hb, -, hs, -, -, -, -, rfl⟩ := findBearer_eq_some.mp hf
    have hbearer : c ∉ b := by
      refine not_mem_of_lowered hb ?_
      rcases brace_cases hc with rfl | rfl <;> decide
    have hspace : c ∉ s := by
      intro hmem
      have := hs c hmem
      rcases brace_cases hc with rfl | rfl
      · exact absurd this (by decide)
      · exact absurd this (by decide)
    simp [hbearer, hspace, brace_not_mem_redacted hc]
  refine ⟨fun before t f hf => ?_, fun _ _ _ hf => hshown hf (by decide), fun _ _ _ hf => hshown hf (by decide), ?_, ?_⟩
  · obtain ⟨b, s, v, r, -, -, -, -, -, -, -, -, rfl⟩ := findBearer_eq_some.mp hf
    simp [mem_redacted]
  · intro before s b f hf s' hs'
    obtain ⟨w, u, v, r, hb, hbearer, hne, hu, hv, htoken, hr, ht, rfl⟩ := findBearer_eq_some.mp hf
    obtain rfl : r = s' ++ '}' :: b := hs'
    have hs : s = (w ++ (u ++ v)) ++ s' := cut_rest (by simpa using ht) rfl
    exact findBearer_eq_some.mpr ⟨w, u, v, s', hb, hbearer, hne, hu, hv, htoken, head_of_append hr, by simpa using hs, rfl⟩
  · intro before s b hnone
    cases hf : (bearerPattern W).find before s with
    | none => rfl
    | some f =>
      obtain ⟨w, u, v, r, hb, hbearer, hne, hu, hv, htoken, hr, rfl, -⟩ := findBearer_eq_some.mp hf
      -- a brace ends a token, so the token is found with the brace behind it, too
      have hhead : ∀ c ∈ (r ++ '}' :: b).head?, tokenChar c = false := by
        cases r with
        | nil => exact head_false (by decide)
        | cons d r => exact hr
      have hfind : findBearer W before _ = some ⟨_, _, _⟩ := findBearer_eq_some.mpr
        ⟨w, u, v, r ++ '}' :: b, hb, hbearer, hne, hu, hv, htoken, hhead, rfl, rfl⟩
      have hsame : w ++ (u ++ (v ++ (r ++ '}' :: b))) = w ++ (u ++ (v ++ r)) ++ '}' :: b := by simp
      rw [hsame] at hfind
      exact absurd (hnone.symm.trans hfind) (by simp)

/-! ## §2. Back through a substitution. -/

section Back

variable {p : Pattern Char} {k v y : List Char}

/-- **An object of the result**: its key and its braces stood in the text, or the key began in what a find shows; what
is between the braces was substituted on its own. -/
theorem Masks.back (hp : Masks p) (hk : IsKey W k) {before : Option Char} {t x : List Char}
    (h : p.sub before t = x ++ (k ++ '{' :: (v ++ '}' :: y))) :
    (∃ before' a m q, t = a ++ (k ++ '{' :: (m ++ '}' :: q)) ∧ v = p.sub (some '{') m ∧
      p.find before' (k ++ '{' :: (m ++ '}' :: q)) = none ∧ y = p.sub (some '}') q) ∨
    ∃ before' a u f x₁ x₂ k₂ m q, p.find before' u = some f ∧ t = a ++ u ∧ f.shown = x₁ ++ x₂ ∧ x₂ ≠ [] ∧
      k = x₂ ++ k₂ ∧ f.rest = k₂ ++ '{' :: (m ++ '}' :: q) ∧ v = p.sub (some '{') m ∧ y = p.sub (some '}') q := by
  rcases Pattern.sub_key hp.marks hp.opens hk.mark_not_mem before t h with
    ⟨before', a, b, rfl, hy, hnone⟩ | ⟨before', a, u, f, x₁, x₂, k₂, b, hf, ht, hshown, hne, hkey, hrest, hy⟩
  · obtain ⟨m, q, -, rfl, hv, -, hy⟩ := hp.stops.sub_cut hp.closes _ _ hy.symm
    exact .inl ⟨before', a, m, q, rfl, hv, hnone, hy⟩
  · obtain ⟨m, q, -, rfl, hv, -, hy⟩ := hp.stops.sub_cut hp.closes _ _ hy.symm
    exact .inr ⟨before', a, u, f, x₁, x₂, k₂, m, q, hf, ht, hshown, hne, hkey, hrest, hv, hy⟩

/-- Where no find shows a quote the key stood in the text. -/
theorem Masks.back_copied (hp : Masks p) (hquote : ∀ before t f, p.find before t = some f → '"' ∉ f.shown)
    (hk : IsKey W k) {before : Option Char} {t x : List Char}
    (h : p.sub before t = x ++ (k ++ '{' :: (v ++ '}' :: y))) :
    ∃ a m q, t = a ++ (k ++ '{' :: (m ++ '}' :: q)) ∧ v = p.sub (some '{') m ∧ y = p.sub (some '}') q := by
  rcases hp.back hk h with ⟨-, a, m, q, ht, hv, -, hy⟩ | ⟨before', -, u, f, x₁, x₂, k₂, -, -, hf, -, hshown, hne, hkey, -⟩
  · exact ⟨a, m, q, ht, hv, hy⟩
  · obtain ⟨k', rfl⟩ := hk.cons
    obtain ⟨c, x₂, rfl⟩ := List.exists_cons_of_ne_nil hne
    obtain ⟨rfl, -⟩ := List.cons.inj hkey
    exact absurd (hshown ▸ List.mem_append_right x₁ List.mem_cons_self) (hquote before' u f hf)

/-- The end of a text that holds no `w` stands behind the last one. -/
theorem suffix_past {α : Type} {w : α} {x₁ x₂ l r : List α} (hw : w ∉ x₂) (h : x₁ ++ x₂ = l ++ w :: r) :
    ∃ z, r = z ++ x₂ := by
  rcases List.append_eq_append_iff.mp h with ⟨z, -, hz⟩ | ⟨z, -, hz⟩
  · exact absurd (hz ▸ List.mem_append_right z List.mem_cons_self) hw
  · cases z with
    | nil =>
      rw [List.nil_append] at hz
      exact absurd (hz ▸ List.mem_cons_self) hw
    | cons e z =>
      obtain ⟨-, rfl⟩ := List.cons.inj hz
      exact ⟨z, rfl⟩

/-- A key that begins in `"<redacted>"` begins at its last quote. -/
theorem key_in_redacted {k₀ x₁ x₂ k₂ : List Char} (hk : IsKey W (x₂ ++ k₂)) (hne : x₂ ≠ [])
    (h : k₀ ++ '"' :: (redacted ++ ['"']) = x₁ ++ x₂) : x₂ = ['"'] := by
  obtain ⟨k', hk'⟩ := hk.cons
  obtain ⟨c, x₂, rfl⟩ := List.exists_cons_of_ne_nil hne
  obtain ⟨rfl, -⟩ := List.cons.inj hk'
  have hmark : '<' ∉ x₂ := fun hmem =>
    hk.mark_not_mem (List.mem_append_left k₂ (List.mem_cons_of_mem _ hmem))
  -- it cannot reach back over the `<`
  have hmem : '<' ∈ redacted ++ ['"'] := List.mem_append_left _ mem_redacted
  have hshow : redacted ++ ['"'] = '<' :: ("redacted>".toList ++ ['"']) := by decide
  rw [hshow] at h
  have h : (k₀ ++ ['"']) ++ '<' :: ("redacted>".toList ++ ['"']) = x₁ ++ '"' :: x₂ := by simpa using h
  have hno : '"' ∉ "redacted>".toList := by decide
  obtain ⟨z, hz⟩ := suffix_past (List.not_mem_cons_of_ne_of_not_mem (by decide) hmark) h.symm
  rcases List.append_eq_append_iff.mp hz with ⟨z', hz', hlast⟩ | ⟨z', hz', hlast⟩
  · cases z' with
    | nil => exact hlast.symm
    | cons e z' =>
      have hlen := congrArg List.length hlast
      simp at hlen
  · cases z' with
    | nil => exact hlast
    | cons e z' =>
      obtain ⟨rfl, -⟩ := List.cons.inj hlast
      exact absurd (hz' ▸ List.mem_append_right z List.mem_cons_self) hno

end Back

theorem quote_query {before : Option Char} {t : List Char} {f : Found Char}
    (hf : (queryPattern W).find before t = some f) : '"' ∉ f.shown := by
  obtain ⟨n, v, r, -, hn, -, -, -, -, rfl⟩ := findQuery_eq_some.mp hf
  have hname : '"' ∉ n := fun h => absurd ((hn.1 _ h).symm.trans (W.not_nameChar '"')) nofun
  have hred : '"' ∉ redacted := by decide
  simp [hname, hred]

theorem quote_encoded {before : Option Char} {t : List Char} {f : Found Char}
    (hf : (encodedPattern W).find before t = some f) : '"' ∉ f.shown := by
  obtain ⟨h, t', v, r, hh, -, -, rfl⟩ := findEncoded_eq_some.mp hf
  have hhead : '"' ∉ h := hh.not_mem (by decide) (by decide) (W.not_nameChar '"')
  have hred : '"' ∉ redacted ++ ['%', '2', '2'] := by decide
  intro hmem
  rcases List.mem_append.mp hmem with hmem | hmem
  · exact hhead hmem
  · exact hred hmem

theorem quote_bearer {before : Option Char} {t : List Char} {f : Found Char}
    (hf : (bearerPattern W).find before t = some f) : '"' ∉ f.shown := by
  obtain ⟨b, s, v, r, -, hb, -, hs, -, -, -, -, rfl⟩ := findBearer_eq_some.mp hf
  have hbearer : '"' ∉ b := not_mem_of_lowered hb (by decide)
  have hspace : '"' ∉ s := fun h => absurd (hs _ h) (by decide)
  have hred : '"' ∉ redacted := by decide
  simp [hbearer, hspace, hred]

/-! ## §3. Secrets in secrets. -/

/-- Without a brace. -/
def Braceless (t : List Char) : Prop := ∀ c ∈ t, noBrace c = true

/-- What one pass does not finish: a secret object with braces in it, or one whose name has no quote of its own and
stands right behind another one, of which the pass leaves the two outer braces only. -/
inductive NestedSecret (W : Words) (t : List Char) : Prop
  | inside (a k m q : List Char) (hkey : IsKey W k) (ht : t = a ++ (k ++ '{' :: (m ++ '}' :: q)))
      (hnested : ¬ Braceless (querySub W m)) (hopened : Braceless (redactText W m))
  | behind (a k₀ v k m q : List Char) (hkey₀ : IsKey W k₀) (hkey : IsKey W ('"' :: k))
      (ht : t = a ++ (k₀ ++ '{' :: (v ++ '}' :: (k ++ '{' :: (m ++ '}' :: q)))))
      (hflat : Braceless (querySub W v)) (hopened : Braceless (redactText W m))

/-- What is between two braces is redacted as a text of its own. -/
theorem redactText_between (m : List Char) :
    (bearerPattern W).sub (some '{') ((encodedPattern W).sub (some '{') ((stringPattern W).sub (some '{')
      ((objectPattern W).sub (some '{') ((queryPattern W).sub (some '{') m)))) = redactText W m := by
  have hquery : ∀ t, (queryPattern W).find (some '{') t = (queryPattern W).find none t := by
    intro t
    show findQuery W (some '{') t = findQuery W none t
    unfold findQuery
    rw [Option.any_some, W.not_nameChar '{', Option.any_none]
  have hbearer : ∀ t, (bearerPattern W).find (some '{') t = (bearerPattern W).find none t := by
    intro t
    have hword : W.word '{' = false := by
      have hname := W.not_nameChar '{'
      unfold Words.nameChar at hname
      simp only [Bool.or_eq_false_iff] at hname
      exact hname.1.1
    show findBearer W (some '{') t = findBearer W none t
    unfold findBearer
    rw [Option.any_some, hword, Option.any_none]
  rw [redactText_eq, Pattern.sub_congr_before hquery, Pattern.sub_congr_before hbearer]
  show (bearerPattern W).sub none ((encodedPattern W).sub (some '{') ((stringPattern W).sub (some '{')
    ((objectPattern W).sub (some '{') (querySub W m)))) = _
  have hobject : ∀ t, (objectPattern W).sub (some '{') t = objectSub W t := Pattern.sub_congr_before fun _ => rfl
  have hstring : ∀ t, (stringPattern W).sub (some '{') t = stringSub W t := Pattern.sub_congr_before fun _ => rfl
  have hencoded : ∀ t, (encodedPattern W).sub (some '{') t = encodedSub W t := Pattern.sub_congr_before fun _ => rfl
  rw [hobject, hstring, hencoded]
  rfl

/-- **An object that one pass leaves** was a secret in a secret. -/
theorem holdsObject_nested {t : List Char} (h : HoldsObject W (redactText W t)) : NestedSecret W t := by
  obtain ⟨s, ⟨x, hs⟩, hfind⟩ := h
  obtain ⟨f, hf⟩ := Option.ne_none_iff_exists'.mp hfind
  obtain ⟨k, v, r, hk, hv, rfl, -⟩ := findObject_eq_some.mp hf
  rw [redactText_eq] at hs
  -- the tokens, the encoded values and the strings
  obtain ⟨a₄, m₄, q₄, h₄, hv₄, -⟩ := (masks_bearer W).back_copied (fun _ _ _ => quote_bearer) hk hs.symm
  obtain ⟨a₃, m₃, q₃, h₃, hv₃, -⟩ := (masks_encoded W).back_copied (fun _ _ _ => quote_encoded) hk h₄
  obtain ⟨a₂, m₂, q₂, h₂, hv₂⟩ : ∃ a₂ m₂ q₂, objectSub W (querySub W t) = a₂ ++ (k ++ '{' :: (m₂ ++ '}' :: q₂)) ∧
      m₃ = (stringPattern W).sub (some '{') m₂ := by
    rcases (masks_string W).back hk h₃ with
      ⟨-, a, m, q, ht, hv, -⟩ | ⟨before', a, u, g, x₁, x₂, k₂, m, q, hg, ht, hshown, hne, rfl, hrest, hv, -⟩
    · exact ⟨a, m, q, ht, hv⟩
    · obtain ⟨k₀, v₀, r, -, -, rfl, rfl⟩ := findString_eq_some.mp hg
      obtain rfl := key_in_redacted hk hne hshown
      obtain rfl : r = k₂ ++ '{' :: (m ++ '}' :: q) := hrest
      exact ⟨a ++ (k₀ ++ '"' :: v₀), m, q, by rw [ht]; simp, hv⟩
  -- what is between the braces at last, from what is between them before the objects
  have hopened : ∀ m, m₂ = (objectPattern W).sub (some '{') ((queryPattern W).sub (some '{') m) →
      Braceless (redactText W m) := by
    intro m hm
    rw [← redactText_between, ← hm, ← hv₂, ← hv₃, ← hv₄]
    exact hv
  have hquery : ∀ m, (queryPattern W).sub (some '{') m = querySub W m := by
    intro m
    refine Pattern.sub_congr_before (fun t => ?_) m
    show findQuery W (some '{') t = findQuery W none t
    unfold findQuery
    rw [Option.any_some, W.not_nameChar '{', Option.any_none]
  rcases (masks_object W).back hk h₂ with
    ⟨before', a, m, q, ht, hm, hnone, -⟩ | ⟨before', a, u, g, x₁, x₂, k₂, m, q, hg, ht, hshown, hne, rfl, hrest, hm, -⟩
  · -- the object was there, and not flat
    have hnested : ¬ Braceless m := by
      intro hflat
      have hfound := findObject_eq_some (W := W) (f := ⟨_, _, _⟩).mpr ⟨k, m, q, hk, hflat, rfl, rfl⟩
      exact absurd (hnone.symm.trans hfound) nofun
    obtain ⟨a₀, m₀, q₀, h₀, rfl, -⟩ := (masks_query W).back_copied (fun _ _ _ => quote_query) hk ht
    rw [hquery] at hnested
    exact .inside a₀ k m₀ q₀ hk h₀ hnested (hopened m₀ hm)
  · -- the quote of the key is the last one of a redacted object
    obtain ⟨k₀, v₀, r, hk₀, hv₀, rfl, rfl⟩ := findObject_eq_some.mp hg
    obtain rfl := key_in_redacted hk hne hshown
    obtain rfl : r = k₂ ++ '{' :: (m ++ '}' :: q) := hrest
    obtain ⟨a₀, w, q₀, h₀, rfl, hq₀⟩ := (masks_query W).back_copied (fun _ _ _ => quote_query) hk₀ ht
    have hmark : '<' ∉ k₂ := fun hmem => hk.mark_not_mem (List.mem_append_right _ hmem)
    obtain ⟨b, rfl, hb, -⟩ := Pattern.copied_of_sub (masks_query W).marks (masks_query W).opens hmark hq₀.symm
    obtain ⟨m₀, q₁, -, rfl, rfl, -⟩ := (masks_query W).stops.sub_cut (masks_query W).closes _ _ hb.symm
    rw [hquery] at hv₀
    exact .behind a₀ k₀ w k₂ m₀ q₁ hk₀ hk h₀ hv₀ (hopened m₀ hm)

/-! ## §4. One pass, and a second one. -/

/-- Nothing in the text is recognised as a secret any more: each of the five substitutions leaves it as it is. -/
structure Redacted (W : Words) (t : List Char) : Prop where
  query : querySub W t = t
  object : objectSub W t = t
  string : stringSub W t = t
  encoded : encodedSub W t = t
  bearer : bearerSub W t = t

/-- No secret is left in what a pass makes of the text, exactly if no object is. -/
theorem redacted_iff (t : List Char) : Redacted W (redactText W t) ↔ ¬ HoldsObject W (redactText W t) := by
  constructor
  · intro h hholds
    have hless : braces (objectSub W (redactText W t)) < braces (redactText W t) :=
      objects_decrease none (redactText W t) hholds
    rw [h.object] at hless
    exact lt_irrefl _ hless
  · intro hnone
    refine ⟨querySub_redactText t, ?_, stringSub_redactText t, encodedSub_redactText t, bearerSub_redactText t⟩
    refine Pattern.sub_eq_self (fun s hs _ => ?_) none
    by_contra h
    exact hnone ⟨s, hs, h⟩

/-- Of a secret in a secret, the inner one hides the outer one from the first pass. -/
def nestedSecret : List Char := "\"token\": \x7b\"password\": \x7b\"x\": 1\x7d\x7d".toList

end RagPipeline.Notifications.Redact
