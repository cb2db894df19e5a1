/-
  RagPipeline.Forecast.SeriesPages — the forecasted series of a logspace, page by page.

  A page is asked for with the mark the page before ended with: the volume and the subject of its last row, as
  text.  The server reads the mark, and takes the rows that come after it.

    * `read_fixed`     — a volume is read back as the number it is;
    * `after_iff`      — the condition of the query says: later in the order;
    * `follow_eq`      — following the marks is walking through the pages of the keyset library;
    * `every_item_once`— every series comes once, page after page in the order of the volumes, however the rows
      of a page are sorted.
-/
import Mathlib.Data.Prod.Lex
import Mathlib.Data.String.Basic
import Mathlib.Order.OrderDual
import RagPipeline.Lib.DecimalText
import RagPipeline.Lib.Keyset

namespace RagPipeline.Forecast

open RagPipeline.Lib

/-! ## §1. Volumes as texts. -/

/-- `format(decimal, "f")`: no exponent. -/
def fixedText (d : Dec) : List Char :=
  let digits := (digitsOf d.coefficient).map digitChar
  let places := (-d.exponent).toNat
  let padded := List.replicate (places + 1 - digits.length) '0' ++ digits
  signText d.negative ++
    if 0 ≤ d.exponent then digits ++ List.replicate d.exponent.toNat '0'
    else padded.take (padded.length - places) ++ '.' :: padded.drop (padded.length - places)

theorem fixedText_eq (d : Dec) : fixedText d = signText d.negative ++
    if 0 ≤ d.exponent then (digitsOf d.coefficient ++ List.replicate d.exponent.toNat 0).map digitChar
    else
      let padded := List.replicate ((-d.exponent).toNat + 1 - (digitsOf d.coefficient).length) 0 ++
        digitsOf d.coefficient
      (padded.take (padded.length - (-d.exponent).toNat)).map digitChar ++
        '.' :: (padded.drop (padded.length - (-d.exponent).toNat)).map digitChar := by
  have hzero : '0' = digitChar 0 := by decide
  unfold fixedText
  simp only [hzero, ← List.map_replicate, ← List.map_append, List.length_map, List.map_take, List.map_drop]

theorem numberOf_append_zeros (ds : List (Fin 10)) (k : ℕ) :
    numberOf (ds ++ List.replicate k 0) = numberOf ds * 10 ^ k := by
  unfold numberOf
  rw [List.map_append, List.reverse_append, List.map_replicate, List.reverse_replicate, Nat.ofDigits_append,
    List.length_replicate]
  have hzero : Nat.ofDigits 10 (List.replicate k (0 : Fin 10).val) = 0 := by
    induction k with
    | zero => rfl
    | succ k ih => rw [List.replicate_succ, Nat.ofDigits_cons, ih]; rfl
  rw [hzero, zero_add, mul_comm]

/-- **A number written without an exponent is read back with its value.** -/
theorem read_fixed (t : Numerals) (d : Dec) : ∃ d', readDecimal t (fixedText d) = some d' ∧ d'.value = d.value := by
  obtain ⟨negative, c, e⟩ := d
  have hnumber := numberOf_digitsOf c
  rw [fixedText_eq]
  by_cases he : 0 ≤ e
  · rw [if_pos he]
    have hdigits : digitsOf c ++ List.replicate e.toNat 0 ≠ [] := by simp [digitsOf_ne_nil]
    have hread := readDecimal_whole t negative hdigits 0
    rw [exponentText, if_pos rfl, List.append_nil, numberOf_append_zeros, hnumber] at hread
    refine ⟨_, hread, ?_⟩
    unfold Dec.value
    obtain ⟨k, rfl⟩ := Int.eq_ofNat_of_zero_le he
    simp
  · rw [if_neg he]
    simp only
    generalize hp : List.replicate ((-e).toNat + 1 - (digitsOf c).length) 0 ++ digitsOf c = padded
    have hlen : (-e).toNat + 1 ≤ padded.length := by
      rw [← hp, List.length_append, List.length_replicate]
      omega
    have hne : padded.take (padded.length - (-e).toNat) ≠ [] := by
      rw [← List.length_pos_iff, List.length_take]
      omega
    have hread := readDecimal_point t negative hne (padded.drop (padded.length - (-e).toNat)) 0
    rw [exponentText, if_pos rfl, List.append_nil, List.take_append_drop, ← hp, numberOf_zeros, hnumber, hp,
      List.length_drop] at hread
    refine ⟨_, hread, ?_⟩
    unfold Dec.value
    have hexp : (0 : ℤ) - ((padded.length - (padded.length - (-e).toNat) : ℕ) : ℤ) = e := by omega
    rw [hexp]

/-- `_s`: at most 28 digits, and no zeros at the end. -/
def shown (d : Dec) : List Char := fixedText (d.normal 28)

theorem read_shown (t : Numerals) {d : Dec} (h : d.FewDigits 28) :
    ∃ d', readDecimal t (shown d) = some d' ∧ d'.value = d.value := by
  obtain ⟨d', hread, hvalue⟩ := read_fixed t (d.normal 28)
  exact ⟨d', hread, hvalue.trans (Dec.value_normal h)⟩

/-- No bar stands in a number. -/
theorem bar_not_mem_shown (d : Dec) : '|' ∉ shown d := by
  have hdigit : ∀ ds : List (Fin 10), '|' ∉ ds.map digitChar := by
    intro ds h
    obtain ⟨x, -, hx⟩ := List.mem_map.mp h
    exact absurd hx ((by decide : ∀ x : Fin 10, digitChar x ≠ '|') x)
  rw [shown, fixedText_eq]
  generalize d.normal 28 = d
  have hsign : '|' ∉ signText d.negative := by cases d.negative <;> decide
  simp only [List.mem_append, not_or]
  refine ⟨hsign, ?_⟩
  split
  · exact hdigit _
  · simp only [List.mem_append, List.mem_cons, not_or]
    exact ⟨hdigit _, by decide, hdigit _⟩

/-! ## §2. Series and their order. -/

/-- A `NUMERIC(20, 6)`, in millionths. -/
structure Volume where
  micros : ℤ
  bound : micros.natAbs < 10 ^ 20
  deriving DecidableEq

namespace Volume

def toDec (v : Volume) : Dec := ⟨decide (v.micros < 0), v.micros.natAbs, -6⟩

theorem few (v : Volume) : v.toDec.FewDigits 28 := by
  unfold Dec.FewDigits
  calc v.micros.natAbs / 10 ^ Dec.trailing v.micros.natAbs ≤ v.micros.natAbs := Nat.div_le_self _ _
    _ < 10 ^ 20 := v.bound
    _ ≤ 10 ^ 28 := by norm_num

theorem value_toDec (v : Volume) : v.toDec.value = v.micros / 10 ^ 6 := by
  unfold toDec Dec.value
  have hpow : (10 : ℚ) ^ (-6 : ℤ) = (10 ^ 6)⁻¹ := by norm_num
  simp only [hpow, decide_eq_true_eq]
  split
  · next h =>
    have habs : (v.micros.natAbs : ℤ) = -v.micros := by omega
    rw [← Int.cast_natCast, habs, Int.cast_neg]
    ring
  · next h =>
    have habs : (v.micros.natAbs : ℤ) = v.micros := by omega
    rw [← Int.cast_natCast, habs]
    ring

theorem value_lt_iff {v w : Volume} : v.toDec.value < w.toDec.value ↔ v.micros < w.micros := by
  rw [value_toDec, value_toDec, div_lt_div_iff_of_pos_right (by norm_num)]
  exact_mod_cast Iff.rfl

theorem value_le_iff {v w : Volume} : v.toDec.value ≤ w.toDec.value ↔ v.micros ≤ w.micros := by
  rw [value_toDec, value_toDec, div_le_div_iff_of_pos_right (by norm_num)]
  exact_mod_cast Iff.rfl

end Volume

/-- A row of `analytics_forecast_series`. -/
structure Series where
  customerCode : String
  metric : String
  grain : String
  subjectKind : String
  subject : String
  volume28d : Volume
  deriving DecidableEq

/-- How the database orders and matches texts. -/
structure Collation (κ : Type*) where
  collate : String → κ
  injective : Function.Injective collate
  ilike : String → String → Bool

/-- The arguments of a read that stay the same from page to page. -/
structure Query where
  customerCode : String
  metric : String
  grain : String
  subjectKind : String
  q : Option String

variable {κ : Type*} [LinearOrder κ] (db : Collation κ)

/-- The rows of a query. -/
def Query.selects (query : Query) (r : Series) : Bool :=
  r.customerCode == query.customerCode && r.metric == query.metric && r.grain == query.grain &&
    r.subjectKind == query.subjectKind && query.q.all fun q => q == "" || db.ilike r.subject q

/-- `volume_28d DESC, subject` -/
def rank (r : Series) : Lex (ℤᵒᵈ × κ) := toLex (OrderDual.toDual r.volume28d.micros, db.collate r.subject)

/-- `after`: the rows behind a mark. -/
def isAfter (mark : Dec × String) (r : Series) : Bool :=
  decide (r.volume28d.toDec.value ≤ mark.1.value) &&
    (decide (r.volume28d.toDec.value < mark.1.value) || decide (db.collate mark.2 < db.collate r.subject))

/-- `series_page` -/
def seriesPage (rows : List Series) (query : Query) (after : Option (Dec × String)) (limit : ℕ) : List Series :=
  (Keyset.inOrder (rank db)
    ((rows.filter (query.selects db)).filter fun r => after.all fun mark => isAfter db mark r)).take (limit + 1)

omit [LinearOrder κ] in
/-- **The condition of the query says: later in the order.** -/
theorem after_iff [LinearOrder κ] {d : Dec} {r r' : Series} (hd : d.value = r.volume28d.toDec.value) :
    isAfter db (d, r.subject) r' = decide (rank db r < rank db r') := by
  unfold isAfter rank
  rw [Bool.eq_iff_iff]
  simp only [Bool.and_eq_true, Bool.or_eq_true, decide_eq_true_eq, hd, Volume.value_le_iff, Volume.value_lt_iff,
    Prod.Lex.toLex_lt_toLex, OrderDual.toDual_lt_toDual]
  constructor
  · rintro ⟨hle, hlt | hsubject⟩
    · exact .inl hlt
    · obtain hlt | heq := lt_or_eq_of_le hle
      · exact .inl hlt
      · exact .inr ⟨congrArg OrderDual.toDual heq.symm, hsubject⟩
  · rintro (hlt | ⟨heq, hsubject⟩)
    · exact ⟨hlt.le, .inl hlt⟩
    · exact ⟨(OrderDual.toDual.injective heq).symm.le, .inr hsubject⟩

/-! ## §3. A request. -/

variable (t : Numerals)

/-- `next_after` -/
def mark (r : Series) : List Char := shown r.volume28d.toDec ++ '|' :: r.subject.toList

/-- `_parse_after`; `none` is the 422. -/
def parseAfter : Option (List Char) → Option (Option (Dec × String))
  | none | some [] => some none
  | some text =>
    match text.dropWhile (· != '|') with
    | [] => none
    | _ :: subject => (readDecimal t (text.takeWhile (· != '|'))).map fun d => some (d, String.ofList subject)

/-- `sort` -/
inductive SortBy where
  | volume | wape
  deriving DecidableEq

/-- `accuracy_store.read_for_subjects`: the scored accuracy of an item, and its error when it has one. -/
abbrev Accuracies := String → Option (Option Dec)

/-- The sort key: scored items before the others, by error, those without an error last. -/
def wapeKey (accuracies : Accuracies) (r : Series) : Bool ×ₗ WithTop ℚ :=
  toLex ((accuracies r.subject).isNone, match accuracies r.subject with
    | some (some wape) => (wape.value : WithTop ℚ)
    | _ => ⊤)

/-- The rows of a page as they are answered. -/
def arrange (sort : SortBy) (accuracies : Accuracies) (page : List Series) : List Series :=
  match sort with
  | .volume => page
  | .wape => page.insertionSort fun r r' => wapeKey accuracies r ≤ wapeKey accuracies r'

theorem arrange_perm (sort : SortBy) (accuracies : Accuracies) (page : List Series) :
    (arrange sort accuracies page).Perm page := by
  cases sort with
  | volume => exact List.Perm.refl page
  | wape => exact List.perm_insertionSort _ page

structure Answer where
  items : List Series
  truncated : Bool
  nextAfter : Option (List Char)

/-- `min(max(limit, 1), ITEMS_MAX)` -/
def clamped (limit : ℤ) : ℕ := (min (max limit 1) 500).toNat

/-- `list_items`; `none` is the 422. -/
def listItems (rows : List Series) (query : Query) (sort : SortBy) (accuracies : Accuracies) (limit : ℤ)
    (after : Option (List Char)) : Option Answer :=
  (parseAfter t after).map fun after =>
    let page := seriesPage db rows query after (clamped limit)
    let truncated := decide (clamped limit < page.length)
    let page := page.take (clamped limit)
    { items := arrange sort accuracies page
      truncated := truncated
      -- the mark is of the last row by volume, whatever the sort
      nextAfter := if truncated then page.getLast?.map mark else none }

/-- A client that follows the marks; `none` if it is refused, or goes on for too long. -/
def follow (rows : List Series) (query : Query) (sort : SortBy) (accuracies : Accuracies) (limit : ℤ) :
    ℕ → Option (List Char) → Option (List (List Series))
  | 0, _ => none
  | fuel + 1, after =>
    (listItems db t rows query sort accuracies limit after).bind fun answer =>
      match answer.nextAfter with
      | none => some [answer.items]
      | some next => (follow rows query sort accuracies limit fuel (some next)).map (answer.items :: ·)

/-- **The mark of a row is read back.** -/
theorem parseAfter_mark (r : Series) : ∃ d, d.value = r.volume28d.toDec.value ∧
    parseAfter t (some (mark r)) = some (some (d, r.subject)) := by
  obtain ⟨d, hread, hvalue⟩ := read_shown t r.volume28d.few
  refine ⟨d, hvalue, ?_⟩
  have hbar : ∀ c ∈ shown r.volume28d.toDec, (c != '|') = true := by
    intro c hc
    rw [bne_iff_ne]
    rintro rfl
    exact bar_not_mem_shown _ hc
  have htake : (mark r).takeWhile (· != '|') = shown r.volume28d.toDec := by
    unfold mark
    rw [List.takeWhile_append_of_pos hbar, List.takeWhile_cons_of_neg (by decide), List.append_nil]
  have hdrop : (mark r).dropWhile (· != '|') = '|' :: r.subject.toList := by
    unfold mark
    rw [List.dropWhile_append_of_pos hbar, List.dropWhile_cons_of_neg (by decide)]
  cases hmark : mark r with
  | nil => simp [hmark] at hdrop
  | cons c cs =>
    unfold parseAfter
    rw [hmark] at htake hdrop
    simp only [htake, hdrop, hread, Option.map_some, String.ofList_toList]

/-! ## §4. All pages. -/

theorem clamped_pos (limit : ℤ) : 0 < clamped limit := by
  unfold clamped
  omega

/-- A page of the server is one of the library. -/
theorem seriesPage_eq (rows : List Series) (query : Query) (limit : ℕ) {d : Dec} {r : Series}
    (hd : d.value = r.volume28d.toDec.value) :
    seriesPage db rows query (some (d, r.subject)) limit =
      Keyset.page (rank db) (rows.filter (query.selects db)) limit (some (rank db r)) := by
  unfold seriesPage Keyset.page
  congr 2
  refine List.filter_congr fun r' _ => ?_
  simp only [Option.all_some]
  exact after_iff db hd

/-- **Following the marks is walking through the pages**, each of them arranged. -/
theorem follow_eq (rows : List Series) (query : Query) (sort : SortBy) (accuracies : Accuracies) (limit : ℤ)
    (fuel : ℕ) :
    follow db t rows query sort accuracies limit fuel none =
      (Keyset.walk (rank db) (rows.filter (query.selects db)) (clamped limit) fuel none).map
        (List.map (arrange sort accuracies)) ∧
    ∀ r, follow db t rows query sort accuracies limit fuel (some (mark r)) =
      (Keyset.walk (rank db) (rows.filter (query.selects db)) (clamped limit) fuel (some (rank db r))).map
        (List.map (arrange sort accuracies)) := by
  induction fuel with
  | zero => exact ⟨rfl, fun _ => rfl⟩
  | succ fuel ih =>
    -- one request, from any page
    have hrequest : ∀ (after : Option (List Char)) (parsed : Option (Dec × String)) (k : Option (Lex (ℤᵒᵈ × κ))),
        parseAfter t after = some parsed →
        seriesPage db rows query parsed (clamped limit) =
          Keyset.page (rank db) (rows.filter (query.selects db)) (clamped limit) k →
        follow db t rows query sort accuracies limit (fuel + 1) after =
          (Keyset.walk (rank db) (rows.filter (query.selects db)) (clamped limit) (fuel + 1) k).map
            (List.map (arrange sort accuracies)) := by
      intro after parsed k hparse hpage
      unfold follow Keyset.walk listItems
      rw [hparse, Option.map_some, Option.bind_some, hpage]
      generalize Keyset.page (rank db) (rows.filter (query.selects db)) (clamped limit) k = page
      by_cases hlen : page.length ≤ clamped limit
      · have hlt : ¬clamped limit < page.length := by omega
        simp only [hlt, decide_false, if_pos hlen, List.take_of_length_le hlen]
        rfl
      · have hlt : clamped limit < page.length := by omega
        simp only [hlt, decide_true, if_true, if_neg hlen]
        cases hlast : (page.take (clamped limit)).getLast? with
        | none =>
          rw [List.getLast?_eq_none_iff, List.take_eq_nil_iff] at hlast
          have := clamped_pos limit
          rcases hlast with h | rfl
          · omega
          · simp at hlt
        | some last =>
          simp only [Option.map_some, Option.bind_some, ih.2 last, Option.map_map]
          rfl
    refine ⟨hrequest none none none rfl ?_, fun r => ?_⟩
    · unfold seriesPage Keyset.page
      simp
    · obtain ⟨d, hd, hparse⟩ := parseAfter_mark t r
      exact hrequest _ _ _ hparse (seriesPage_eq db rows query _ hd)

/-- `uq_analytics_forecast_series_key` -/
def Series.uniqueKey (r : Series) : List String := [r.customerCode, r.metric, r.grain, r.subjectKind, r.subject]

omit [LinearOrder κ] in
/-- The rows of a query have ranks of their own. -/
theorem rank_nodup [LinearOrder κ] {rows : List Series} (h : (rows.map Series.uniqueKey).Nodup) (query : Query) :
    ((rows.filter (query.selects db)).map (rank db)).Nodup := by
  have hsub : ((rows.filter (query.selects db)).map Series.uniqueKey).Nodup :=
    h.sublist (List.filter_sublist.map _)
  rw [List.nodup_map_iff_inj_on (List.Nodup.of_map _ hsub)]
  intro r hr r' hr' heq
  have hsubject : r.subject = r'.subject := by
    have := congrArg (fun k => (ofLex k).2) heq
    exact db.injective this
  refine List.inj_on_of_nodup_map hsub hr hr' ?_
  have hq := (List.mem_filter.mp hr).2
  have hq' := (List.mem_filter.mp hr').2
  unfold Query.selects at hq hq'
  simp only [Bool.and_eq_true, beq_iff_eq] at hq hq'
  unfold Series.uniqueKey
  rw [hsubject, hq.1.1.1.1, hq.1.1.1.2, hq.1.1.2, hq.1.2, hq'.1.1.1.1, hq'.1.1.1.2, hq'.1.1.2, hq'.1.2]

/-- Pages that are rearranged hold what they held. -/
theorem flatten_arrange_perm (sort : SortBy) (accuracies : Accuracies) (pages : List (List Series)) :
    (pages.map (arrange sort accuracies)).flatten.Perm pages.flatten := by
  induction pages with
  | nil => exact List.Perm.refl _
  | cons page pages ih => exact (arrange_perm sort accuracies page).append ih

/-- **Every series comes once**: the client is never refused and stops, and what it has read is the rows of the
query.  Every row of a page is before every row of a later page in the order of volume and subject, and within a
page the rows are in this order, too, when they are sorted by volume; no page is longer than it asked for. -/
theorem every_item_once {rows : List Series} (h : (rows.map Series.uniqueKey).Nodup) (query : Query) (sort : SortBy)
    (accuracies : Accuracies) (limit : ℤ) :
    ∃ pages, follow db t rows query sort accuracies limit ((rows.filter (query.selects db)).length + 1) none = some pages ∧
      pages.flatten.Perm (rows.filter (query.selects db)) ∧
      pages.Pairwise (fun page later => ∀ r ∈ page, ∀ r' ∈ later, rank db r < rank db r') ∧
      (sort = .volume → pages.flatten.Pairwise (fun r r' => rank db r < rank db r')) ∧
      ∀ page ∈ pages, page.length ≤ clamped limit := by
  have hnodup := rank_nodup db h query
  obtain ⟨pages, hwalk, hcut⟩ := Keyset.walk_spec hnodup (clamped_pos limit)
  have hstrict : pages.flatten.Pairwise (fun r r' => rank db r < rank db r') := by
    rw [hcut.flatten]
    exact Keyset.inOrder_strict hnodup
  refine ⟨pages.map (arrange sort accuracies), ?_, ?_, ?_, fun hsort => ?_, fun page hpage => ?_⟩
  · rw [(follow_eq db t rows query sort accuracies limit _).1, hwalk]
    rfl
  · refine (flatten_arrange_perm sort accuracies pages).trans ?_
    rw [hcut.flatten]
    exact Keyset.inOrder_perm _ _
  · rw [List.pairwise_map]
    refine (List.pairwise_flatten.mp hstrict).2.imp fun hbefore r hr r' hr' => ?_
    exact hbefore r ((arrange_perm sort accuracies _).mem_iff.mp hr) r' ((arrange_perm sort accuracies _).mem_iff.mp hr')
  · subst hsort
    have hsame : pages.map (arrange .volume accuracies) = pages := List.map_id pages
    rw [hsame]
    exact hstrict
  · obtain ⟨page, hmem, rfl⟩ := List.mem_map.mp hpage
    rw [(arrange_perm sort accuracies page).length_eq]
    exact hcut.length_le page hmem

/-- Texts in the order of their characters. -/
def plainCollation : Collation String := ⟨id, Function.injective_id, fun text q => q.toList.isPrefixOf text.toList⟩

/-- An item that sold `units`. -/
def sold (subject : String) (units : Fin 1000) : Series :=
  ⟨"acme", "units", "day", "item_number", subject, ⟨1000000 * units, by omega⟩⟩

/-- Three items, one of them scored, two on a page. -/
theorem every_item_once_three : ∃ pages,
    follow plainCollation asciiNumerals [sold "A" 5, sold "B" 7, sold "C" 5]
      ⟨"acme", "units", "day", "item_number", none⟩ .wape (fun s => if s = "C" then some (some ⟨false, 25, -2⟩) else none) 2
      (([sold "A" 5, sold "B" 7, sold "C" 5].filter
        (Query.selects plainCollation ⟨"acme", "units", "day", "item_number", none⟩)).length + 1) none = some pages ∧
      pages.flatten.Perm ([sold "A" 5, sold "B" 7, sold "C" 5].filter
        (Query.selects plainCollation ⟨"acme", "units", "day", "item_number", none⟩)) ∧
      pages.Pairwise (fun page later => ∀ r ∈ page, ∀ r' ∈ later, rank plainCollation r < rank plainCollation r') ∧
      (SortBy.wape = .volume → pages.flatten.Pairwise (fun r r' => rank plainCollation r < rank plainCollation r')) ∧
      ∀ page ∈ pages, page.length ≤ clamped 2 :=
  every_item_once plainCollation asciiNumerals (by decide) _ .wape _ 2

end RagPipeline.Forecast
