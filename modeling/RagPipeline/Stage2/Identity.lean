/-
  RagPipeline.Stage2.Identity — when every group of a rebuild gets an id of its own.

  "Merges and splits both fall out of the plurality rule … a split keeps [the id] for the larger half
  and the remainder mints a fresh one."  The remainder of a split that holds the ANCHOR line mints the
  very id the larger half has inherited, and `_persist` skips whichever of the two comes second.

  Who inherits an id is read off the bids: the group whose bid for it is the strongest (`Inherits`,
  `award_iff`).  So the ids are distinct exactly when no group that inherits nothing is minted an id
  that another group inherits: `ids_distinct_iff`.
-/
import Mathlib.Data.List.Sigma
import RagPipeline.Stage2.Persist

namespace RagPipeline.Stage2

open RagPipeline.Lib

/-! ## §1. The strongest bid. -/

namespace Continuity

/-- Every group's bid. -/
def bids (c : Continuity) (fallback : List LogEntry → UUID) (groups : List (List LogEntry)) :
    List Claim :=
  groups.zipIdx.filterMap (c.claimOf fallback)

/-- The group at `i` has the strongest bid for the id `t`. -/
def Inherits (c : Continuity) (fallback : List LogEntry → UUID) (groups : List (List LogEntry))
    (i : Nat) (t : UUID) : Prop :=
  ∃ b ∈ c.bids fallback groups, b.index = i ∧ b.owner = t ∧
    ∀ b' ∈ c.bids fallback groups, b'.owner = t → b.le b'

/-- A group whose minted id is inherited by some group inherits an id itself. -/
def MintsFreely (c : Continuity) (fallback : List LogEntry → UUID) (groups : List (List LogEntry)) :
    Prop :=
  ∀ p ∈ groups.zipIdx, (∃ j, c.Inherits fallback groups j (fallback p.1)) →
    ∃ t, c.Inherits fallback groups p.2 t

end Continuity

/-- The order of the bids, in plain numbers. -/
theorem Claim.le_iff {a b : Claim} : a.le b ↔ b.votes < a.votes ∨ (a.votes = b.votes ∧
    (@LT.lt Nat _ a.fallback b.fallback ∨
      (@Eq Nat a.fallback b.fallback ∧ a.index ≤ b.index))) := Iff.rfl

theorem Claim.le_refl (a : Claim) : a.le a := by
  rw [Claim.le_iff]
  omega

theorem Claim.le_total (a b : Claim) : a.le b ∨ b.le a := by
  rw [Claim.le_iff, Claim.le_iff]
  omega

theorem Claim.le_trans {a b c : Claim} (h : a.le b) (h' : b.le c) : a.le c := by
  rw [Claim.le_iff] at *
  omega

/-- Two bids that are each as strong as the other are at one place. -/
theorem Claim.index_eq {a b : Claim} (h : a.le b) (h' : b.le a) : a.index = b.index := by
  rw [Claim.le_iff] at *
  omega

instance : Std.Total Claim.le := ⟨Claim.le_total⟩

instance : IsTrans Claim Claim.le := ⟨fun _ _ _ => Claim.le_trans⟩

section Bids

variable {c : Continuity} {fallback : List LogEntry → UUID} {groups : List (List LogEntry)}

theorem mem_claims {b : Claim} : b ∈ c.claims fallback groups ↔ b ∈ c.bids fallback groups :=
  (List.perm_insertionSort _ _).mem_iff

theorem claimOf_index {p : List LogEntry × Nat} {b : Claim} (h : c.claimOf fallback p = some b) :
    b.index = p.2 := by
  obtain ⟨win, -, rfl⟩ := Option.map_eq_some_iff.mp h
  rfl

/-- A group bids once. -/
theorem bids_index_nodup : ((c.bids fallback groups).map Claim.index).Nodup := by
  have hsub : ∀ l : List (List LogEntry × Nat),
      ((l.filterMap (c.claimOf fallback)).map Claim.index).Sublist (l.map Prod.snd) := by
    intro l
    induction l with
    | nil => simp
    | cons p l ih =>
      cases hp : c.claimOf fallback p with
      | none =>
        rw [List.filterMap_cons_none hp, List.map_cons]
        exact ih.cons _
      | some b =>
        rw [List.filterMap_cons_some hp, List.map_cons, List.map_cons, claimOf_index hp]
        exact ih.cons_cons _
  exact (List.nodup_zipIdx_map_snd groups).sublist (hsub _)

theorem bid_unique {b b' : Claim} (hb : b ∈ c.bids fallback groups)
    (hb' : b' ∈ c.bids fallback groups) (h : b.index = b'.index) : b = b' :=
  List.inj_on_of_nodup_map bids_index_nodup hb hb' h

theorem claims_sorted : (c.claims fallback groups).Pairwise Claim.le :=
  List.pairwise_insertionSort _ _

/-! ## §2. Who is awarded what. -/

/-- An id goes to the first bid for it. -/
theorem mem_award_iff {cs : List Claim} {taken : List UUID} {i : Nat} {t : UUID} :
    (i, t) ∈ award taken cs ↔ t ∉ taken ∧ ∃ pre b post, cs = pre ++ b :: post ∧ b.index = i ∧
      b.owner = t ∧ ∀ b' ∈ pre, b'.owner ≠ t := by
  induction cs generalizing taken with
  | nil => simp [award]
  | cons b cs ih =>
    by_cases hb : b.owner ∈ taken
    · -- its owner is taken, so the bid is passed over
      rw [award, if_pos hb, ih]
      constructor
      · rintro ⟨ht, pre, b', post, rfl, hi, ho, hpre⟩
        refine ⟨ht, b :: pre, b', post, rfl, hi, ho, ?_⟩
        intro b'' hmem heq
        rcases List.mem_cons.mp hmem with rfl | hmem
        · exact ht (heq ▸ hb)
        · exact hpre b'' hmem heq
      · rintro ⟨ht, pre, b', post, hsplit, hi, ho, hpre⟩
        cases pre with
        | nil =>
          obtain ⟨rfl, rfl⟩ := List.cons.inj hsplit
          exact absurd (ho ▸ hb) ht
        | cons p pre =>
          obtain ⟨rfl, rfl⟩ := List.cons.inj hsplit
          exact ⟨ht, pre, b', post, rfl, hi, ho, fun b'' hmem => hpre b'' (by simp [hmem])⟩
    · -- the bid is won, and its owner is taken from here on
      rw [award, if_neg hb, List.mem_cons, ih]
      constructor
      · rintro (heq | ⟨ht, pre, b', post, rfl, hi, ho, hpre⟩)
        · obtain ⟨rfl, rfl⟩ := Prod.mk.inj heq
          exact ⟨hb, [], b, cs, rfl, rfl, rfl, by simp⟩
        · have hne : b.owner ≠ t := fun heq => ht (heq ▸ List.mem_cons_self)
          refine ⟨fun hmem => ht (List.mem_cons_of_mem _ hmem), b :: pre, b', post, rfl, hi, ho, ?_⟩
          intro b'' hmem
          rcases List.mem_cons.mp hmem with rfl | hmem
          · exact hne
          · exact hpre b'' hmem
      · rintro ⟨ht, pre, b', post, hsplit, hi, ho, hpre⟩
        cases pre with
        | nil =>
          obtain ⟨rfl, rfl⟩ := List.cons.inj hsplit
          exact Or.inl (by rw [← hi, ← ho])
        | cons p pre =>
          obtain ⟨rfl, rfl⟩ := List.cons.inj hsplit
          have hne : b.owner ≠ t := hpre b List.mem_cons_self
          refine Or.inr ⟨?_, pre, b', post, rfl, hi, ho, fun b'' hmem => hpre b'' (by simp [hmem])⟩
          intro hmem
          rcases List.mem_cons.mp hmem with heq | hmem
          · exact hne heq.symm
          · exact ht hmem

/-- **An id is awarded to the group whose bid for it is the strongest.** -/
theorem award_iff {i : Nat} {t : UUID} :
    (i, t) ∈ award [] (c.claims fallback groups) ↔ c.Inherits fallback groups i t := by
  rw [mem_award_iff]
  constructor
  · rintro ⟨-, pre, b, post, hsplit, hi, ho, hpre⟩
    have hb : b ∈ c.claims fallback groups := by rw [hsplit]; simp
    refine ⟨b, mem_claims.mp hb, hi, ho, ?_⟩
    intro b' hb' ho'
    have hmem : b' ∈ pre ++ b :: post := hsplit ▸ mem_claims.mpr hb'
    rcases List.mem_append.mp hmem with hbefore | hrest
    · exact absurd ho' (hpre b' hbefore)
    · rcases List.mem_cons.mp hrest with rfl | hafter
      · exact b'.le_refl
      · have hsorted : (b :: post).Pairwise Claim.le :=
          (List.pairwise_append.mp (hsplit ▸ claims_sorted)).2.1
        exact (List.pairwise_cons.mp hsorted).1 b' hafter
  · rintro ⟨b, hb, hi, ho, hbest⟩
    obtain ⟨pre, post, hsplit⟩ := List.append_of_mem (mem_claims.mpr hb)
    refine ⟨List.not_mem_nil, pre, b, post, hsplit, hi, ho, ?_⟩
    intro b' hb' ho'
    have hmem : b' ∈ c.bids fallback groups := mem_claims.mp (by rw [hsplit]; simp [hb'])
    -- a bid that stands before the strongest one would be as strong, hence at its place
    have hbefore : b'.le b :=
      (List.pairwise_append.mp (hsplit ▸ claims_sorted)).2.2 b' hb' b List.mem_cons_self
    have heq : b = b' := bid_unique hb hmem (Claim.index_eq (hbest b' hmem ho') hbefore)
    have hperm : ((pre ++ b :: post).map Claim.index).Nodup := by
      rw [← hsplit]
      exact ((List.perm_insertionSort _ _).map _).nodup_iff.mpr bids_index_nodup
    rw [List.map_append, List.map_cons] at hperm
    have hdisj := List.disjoint_of_nodup_append hperm
    exact hdisj (List.mem_map_of_mem (heq ▸ hb')) List.mem_cons_self

/-- The strongest bid for an id is one group's. -/
theorem inherits_index_unique {i j : Nat} {t : UUID} (h : c.Inherits fallback groups i t)
    (h' : c.Inherits fallback groups j t) : i = j := by
  obtain ⟨b, hb, rfl, ho, hbest⟩ := h
  obtain ⟨b', hb', rfl, ho', hbest'⟩ := h'
  exact Claim.index_eq (hbest b' hb' ho') (hbest' b hb ho)

/-! ## §3. The id of a group. -/

/-- The id `assign` gives the group at its place. -/
def Continuity.idOf (c : Continuity) (fallback : List LogEntry → UUID)
    (groups : List (List LogEntry)) (p : List LogEntry × Nat) : UUID :=
  ((award [] (c.claims fallback groups)).lookup p.2).getD (fallback p.1)

theorem assign_eq_map : c.assign fallback groups = groups.zipIdx.map (c.idOf fallback groups) := rfl

theorem lookup_eq_some {l : List (Nat × UUID)} (hn : (l.map Prod.fst).Nodup) {i : Nat} {t : UUID} :
    l.lookup i = some t ↔ (i, t) ∈ l := by
  induction l with
  | nil => simp
  | cons p l ih =>
    rw [List.map_cons, List.nodup_cons] at hn
    obtain ⟨hnot, hrest⟩ := hn
    rw [List.lookup_cons, List.mem_cons]
    by_cases hp : i = p.1
    · subst hp
      have hfar : (p.1, t) ∉ l := fun hmem =>
        hnot (List.mem_map.mpr ⟨(p.1, t), hmem, rfl⟩)
      simp [hfar, Prod.ext_iff, eq_comm]
    · have hne : (i == p.1) = false := by simpa using hp
      have hnot' : (i, t) ≠ p := fun heq => hp (by rw [← heq])
      simp only [hne, hnot'.symm.symm, false_or]
      exact ih hrest

theorem award_index_sublist (taken : List UUID) (cs : List Claim) :
    ((award taken cs).map Prod.fst).Sublist (cs.map Claim.index) := by
  induction cs generalizing taken with
  | nil => simp [award]
  | cons b cs ih =>
    unfold award
    split
    · exact (ih taken).cons _
    · exact (ih _).cons_cons _

theorem lookup_award {i : Nat} {t : UUID} :
    (award [] (c.claims fallback groups)).lookup i = some t ↔ c.Inherits fallback groups i t := by
  rw [lookup_eq_some, award_iff]
  have hclaims : ((c.claims fallback groups).map Claim.index).Nodup :=
    ((List.perm_insertionSort _ _).map _).nodup_iff.mpr bids_index_nodup
  exact hclaims.sublist (award_index_sublist _ _)

/-- A group has the id it inherits. -/
theorem idOf_inherited {p : List LogEntry × Nat} {t : UUID}
    (h : c.Inherits fallback groups p.2 t) : c.idOf fallback groups p = t := by
  rw [Continuity.idOf, lookup_award.mpr h, Option.getD_some]

/-- A group that inherits nothing is minted an id. -/
theorem idOf_minted {p : List LogEntry × Nat} (h : ¬∃ t, c.Inherits fallback groups p.2 t) :
    c.idOf fallback groups p = fallback p.1 := by
  have hnone : (award [] (c.claims fallback groups)).lookup p.2 = none := by
    rw [Option.eq_none_iff_forall_ne_some]
    exact fun t ht => h ⟨t, lookup_award.mp ht⟩
  rw [Continuity.idOf, hnone, Option.getD_none]

/-- The ids are distinct exactly when every group that inherits nothing is minted an id that nobody
    inherits. -/
theorem assign_nodup_iff (hf : (groups.map fallback).Nodup) :
    (c.assign fallback groups).Nodup ↔ c.MintsFreely fallback groups := by
  have hz : groups.zipIdx.Nodup := List.Nodup.of_map Prod.snd (List.nodup_zipIdx_map_snd groups)
  have hmap : (groups.zipIdx.map fun p => fallback p.1) = groups.map fallback := by
    show groups.zipIdx.map (fallback ∘ Prod.fst) = _
    rw [← List.map_map, List.zipIdx_map_fst]
  have hmint : ∀ p ∈ groups.zipIdx, ∀ q ∈ groups.zipIdx, fallback p.1 = fallback q.1 → p = q :=
    (List.nodup_map_iff_inj_on hz).mp (hmap ▸ hf)
  rw [assign_eq_map, List.nodup_map_iff_inj_on hz]
  constructor
  · intro hinj p hp ⟨j, hj⟩
    by_contra hno
    obtain ⟨b, hb, hbj, hbo, hbest⟩ := hj
    obtain ⟨q, hq, hqb⟩ := List.mem_filterMap.mp hb
    have hqj : q.2 = j := (claimOf_index hqb).symm.trans hbj
    -- the group that claims the name inherits it, so two groups would carry it
    have hwin : c.Inherits fallback groups q.2 (fallback p.1) := ⟨b, hb, hbj.trans hqj.symm, hbo, hbest⟩
    have hsame : c.idOf fallback groups p = c.idOf fallback groups q :=
      (idOf_minted hno).trans (idOf_inherited hwin).symm
    obtain rfl := hinj p hp q hq hsame
    exact hno ⟨_, hwin⟩
  · intro hfree p hp q hq heq
    by_cases hpw : ∃ t, c.Inherits fallback groups p.2 t
    · obtain ⟨t, ht⟩ := hpw
      rw [idOf_inherited ht] at heq
      by_cases hqw : ∃ t', c.Inherits fallback groups q.2 t'
      · obtain ⟨t', ht'⟩ := hqw
        rw [idOf_inherited ht'] at heq
        subst heq
        have hi : p.2 = q.2 := inherits_index_unique ht ht'
        exact List.inj_on_of_nodup_map (List.nodup_zipIdx_map_snd groups) hp hq hi
      · rw [idOf_minted hqw] at heq
        -- an inherited name that equals a minted one is what `MintsFreely` excludes
        exact absurd (hfree q hq ⟨p.2, heq ▸ ht⟩) hqw
    · rw [idOf_minted hpw] at heq
      by_cases hqw : ∃ t', c.Inherits fallback groups q.2 t'
      · obtain ⟨t', ht'⟩ := hqw
        rw [idOf_inherited ht'] at heq
        exact absurd (hfree p hp ⟨q.2, heq ▸ ht'⟩) hpw
      · rw [idOf_minted hqw] at heq
        exact hmint p hp q hq heq

end Bids

/-! ## §4. What that means for `_persist`. -/

section Persisted

variable {Fp : Type} [DecidableEq Fp]

omit [DecidableEq Fp] in
/-- With distinct ids, only a clash with a stored transaction makes a group skipped. -/
theorem kept_eq_filter {a : PersistArgs Fp} (gs : List Group) {seen : List UUID}
    (hn : (gs.map Prod.fst).Nodup) (hs : ∀ g ∈ gs, g.1 ∉ seen) :
    a.kept seen gs = gs.filter fun g => !a.clash g.1 := by
  induction gs generalizing seen with
  | nil => rfl
  | cons g gs ih =>
    rw [List.map_cons, List.nodup_cons] at hn
    obtain ⟨hnot, hrest⟩ := hn
    rw [PersistArgs.kept]
    cases hc : a.clash g.1 with
    | true =>
      rw [if_pos (Or.inr rfl), List.filter_cons_of_neg (by simp [hc])]
      exact ih hrest fun g' hg' => hs g' (by simp [hg'])
    | false =>
      have hseen : g.1 ∉ seen := hs g List.mem_cons_self
      rw [if_neg (by simp [hseen]), List.filter_cons_of_pos (by simp [hc])]
      congr 1
      apply ih hrest
      intro g' hg' hmem
      rcases List.mem_cons.mp hmem with heq | hmem
      · exact hnot (heq ▸ List.mem_map_of_mem hg')
      · exact hs g' (by simp [hg']) hmem

/-- Every group has an id of its own, and `_persist` skips none as a duplicate: whatever it is given
    beside the groups, it skips no more than those whose id clashes with a stored transaction. -/
def KeepsEveryGroup (w : World Fp) (c : Continuity) (groups : List (List LogEntry)) : Prop :=
  (c.assign w.txnId groups).Nodup ∧
    ∀ (a : PersistArgs Fp) (st : Store Fp),
      (persist w a st ((c.assign w.txnId groups).zip groups)).2.skipped =
        ((c.assign w.txnId groups).filter a.clash).length

/-- **Identity is injective exactly when the groups mint freely**: no group that inherits nothing is
    minted an id that another group inherits. -/
theorem ids_distinct_iff (w : World Fp) (c : Continuity) (groups : List (List LogEntry))
    (hf : (groups.map w.txnId).Nodup) :
    KeepsEveryGroup w c groups ↔ c.MintsFreely w.txnId groups := by
  rw [← assign_nodup_iff hf]
  constructor
  · exact fun h => h.1
  · intro hn
    refine ⟨hn, fun a st => ?_⟩
    obtain ⟨gs, hgs⟩ : ∃ gs : List Group, gs = (c.assign w.txnId groups).zip groups := ⟨_, rfl⟩
    have hfst : gs.map Prod.fst = c.assign w.txnId groups := by
      rw [hgs]
      exact List.map_fst_zip (le_of_eq (length_assign c w.txnId groups))
    have hkept : a.kept [] gs = gs.filter fun g => !a.clash g.1 :=
      kept_eq_filter gs (hfst.symm ▸ hn) (by simp)
    have hcount : (persist w a st gs).2.skipped + (a.kept [] gs).length = gs.length :=
      persist_skipped w a st gs
    have hsplit : gs.length = (gs.filter fun g => a.clash g.1).length +
        (gs.filter fun g => !a.clash g.1).length := List.length_eq_length_filter_add _
    have hclash : (gs.filter fun g => a.clash g.1).length =
        ((c.assign w.txnId groups).filter a.clash).length := by
      rw [← hfst, List.filter_map, List.length_map]
      rfl
    rw [hkept] at hcount
    rw [← hgs]
    omega

end Persisted

/-! ## §5. A split whose smaller half holds the anchor. -/

/-- The world of the examples: an id is the length of its name. -/
def plainWorld : World Nat where
  digest := fun _ => 0
  uuid5 := String.length
  displayDay := fun _ _ => 0
  millis := fun d => d / 1000
  timezone := ⟨"UTC", utc_named⟩

/-- A line of one server, by its id, kind and hash. -/
def hashedLine (id : UUID) (kind : EntryType) (hash : String) : LogEntry :=
  { id := id, entryHash := some hash, sourceFile := "A/log", timestamp := some 0, entryType := kind }

/-- The request of a conversation on its own, and the work it used to have. -/
def splitFromAnchor : List (List LogEntry) :=
  [[hashedLine 2 .sql "bb", hashedLine 3 .sql "cc"], [hashedLine 1 .request "a"]]

/-- All three lines were one transaction, whose id is that of its request. -/
def wasOneTransaction : Continuity :=
  ⟨fun e => if e ≤ 3 then some 2 else none, [2]⟩

/-- The larger half inherits the id, the half with the request mints it: the second is skipped. -/
theorem splitFromAnchor_not_distinct :
    (splitFromAnchor.map plainWorld.txnId).Nodup ∧
      ¬KeepsEveryGroup plainWorld wasOneTransaction splitFromAnchor := by
  refine ⟨by decide +kernel, fun h => ?_⟩
  have hids : wasOneTransaction.assign plainWorld.txnId splitFromAnchor = [2, 2] := by decide +kernel
  have hn := h.1
  rw [hids] at hn
  exact absurd hn (by decide)

/-- Without predecessors every group is minted its own id. -/
theorem ids_distinct_iff_split :
    KeepsEveryGroup plainWorld ⟨fun _ => none, []⟩ splitFromAnchor ↔
      Continuity.MintsFreely ⟨fun _ => none, []⟩ plainWorld.txnId splitFromAnchor :=
  ids_distinct_iff plainWorld ⟨fun _ => none, []⟩ splitFromAnchor splitFromAnchor_not_distinct.1

end RagPipeline.Stage2
