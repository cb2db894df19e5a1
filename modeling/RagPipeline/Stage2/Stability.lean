/-
  RagPipeline.Stage2.Stability — an id goes with its group.

  `assign` hands ids out one by one, in the order of the bids, and the last tie is broken by the place of
  the group in the list.  While the minted ids differ that tie does not come up, so who inherits what can
  be said of the groups alone (`Wins`), and the order they come in does not matter.

    * `inherits_iff_wins` — the strongest bid, without the places;
    * `assign_eq_old`     — a rebuild that forms the old groups keeps their ids;
    * `identity_stable`   — both, and that an inherited id is a reusable one and is awarded once.
-/
import RagPipeline.Stage2.Identity

namespace RagPipeline.Stage2

open RagPipeline.Lib

variable {c : Continuity} {fallback : List LogEntry → UUID} {groups : List (List LogEntry)}

/-! ## §1. The strongest bid, without the places. -/

/-- No group has more of the lines of `t` than `g`, and one that has as many is minted a later id. -/
def Wins (c : Continuity) (fallback : List LogEntry → UUID) (groups : List (List LogEntry))
    (g : List LogEntry) (t : UUID) : Prop :=
  ∃ n, c.pluralityOwner g = some (t, n) ∧ ∀ g' ∈ groups, ∀ n', c.pluralityOwner g' = some (t, n') →
    n' < n ∨ (n' = n ∧ @LE.le Nat _ (fallback g) (fallback g'))

/-- The bid of a group. -/
theorem mem_bids {b : Claim} : b ∈ c.bids fallback groups ↔ ∃ p ∈ groups.zipIdx, ∃ t n,
    c.pluralityOwner p.1 = some (t, n) ∧ b = ⟨n, fallback p.1, p.2, t⟩ := by
  unfold Continuity.bids Continuity.claimOf
  rw [List.mem_filterMap]
  constructor
  · intro h
    obtain ⟨p, hp, hb⟩ := h
    obtain ⟨win, hwin, heq⟩ := Option.map_eq_some_iff.mp hb
    exact ⟨p, hp, win.1, win.2, hwin, heq.symm⟩
  · intro h
    obtain ⟨p, hp, t, n, hwin, heq⟩ := h
    exact ⟨p, hp, by rw [hwin, heq]; rfl⟩

/-- Two places of the list with one minted id are one place. -/
theorem place_unique (hf : (groups.map fallback).Nodup) {p q : List LogEntry × Nat}
    (hp : p ∈ groups.zipIdx) (hq : q ∈ groups.zipIdx) (h : fallback p.1 = fallback q.1) : p = q := by
  have hmap : (groups.zipIdx.map fun p => fallback p.1) = groups.map fallback := by
    show groups.zipIdx.map (fallback ∘ Prod.fst) = _
    rw [← List.map_map, List.zipIdx_map_fst]
  exact List.inj_on_of_nodup_map (hmap ▸ hf) hp hq h

/-- **Who inherits an id does not depend on the places.** -/
theorem inherits_iff_wins (hf : (groups.map fallback).Nodup) {p : List LogEntry × Nat}
    (hp : p ∈ groups.zipIdx) {t : UUID} :
    c.Inherits fallback groups p.2 t ↔ Wins c fallback groups p.1 t := by
  constructor
  · intro h
    obtain ⟨b, hb, hindex, howner, hbest⟩ := h
    obtain ⟨q, hq, t', n, hwin, rfl⟩ := mem_bids.mp hb
    obtain rfl : q = p := List.inj_on_of_nodup_map (List.nodup_zipIdx_map_snd groups) hq hp hindex
    obtain rfl : t' = t := howner
    refine ⟨n, hwin, fun g' hg' n' hwin' => ?_⟩
    obtain ⟨q', hq', rfl⟩ : ∃ q' ∈ groups.zipIdx, q'.1 = g' := by
      rw [← List.zipIdx_map_fst 0 groups] at hg'
      exact List.mem_map.mp hg'
    have hle := Claim.le_iff.mp (hbest ⟨n', fallback q'.1, q'.2, t'⟩
      (mem_bids.mpr ⟨q', hq', t', n', hwin', rfl⟩) rfl)
    simp only at hle
    omega
  · intro h
    obtain ⟨n, hwin, hbest⟩ := h
    refine ⟨⟨n, fallback p.1, p.2, t⟩, mem_bids.mpr ⟨p, hp, t, n, hwin, rfl⟩, rfl, rfl, fun b' hb' ho => ?_⟩
    obtain ⟨q, hq, t', n', hwin', rfl⟩ := mem_bids.mp hb'
    obtain rfl : t' = t := ho
    have hmem : q.1 ∈ groups := by
      rw [← List.zipIdx_map_fst 0 groups]
      exact List.mem_map_of_mem hq
    have hcase := hbest q.1 hmem n' hwin'
    -- a bid as strong with the same minted id is the group's own
    have hsame : @Eq Nat (fallback p.1) (fallback q.1) → p.2 ≤ q.2 := by
      intro heq
      rw [place_unique hf hp hq heq]
    rw [Claim.le_iff]
    simp only
    omega

/-- Of a permuted list the same groups win. -/
theorem wins_perm {groups' : List (List LogEntry)} (h : groups.Perm groups') {g : List LogEntry} {t : UUID} :
    Wins c fallback groups g t ↔ Wins c fallback groups' g t := by
  unfold Wins
  simp only [h.mem_iff]

open Classical in
/-- The id of a group among others: what it wins, or a minted one. -/
noncomputable def idAmong (c : Continuity) (fallback : List LogEntry → UUID) (groups : List (List LogEntry))
    (g : List LogEntry) : UUID :=
  if h : ∃ t, Wins c fallback groups g t then h.choose else fallback g

theorem assign_eq_idAmong (hf : (groups.map fallback).Nodup) :
    c.assign fallback groups = groups.map (idAmong c fallback groups) := by
  have hfst : groups.map (idAmong c fallback groups) =
      groups.zipIdx.map fun p => idAmong c fallback groups p.1 := by
    show _ = groups.zipIdx.map (idAmong c fallback groups ∘ Prod.fst)
    rw [← List.map_map, List.zipIdx_map_fst]
  rw [assign_eq_map, hfst]
  refine List.map_congr_left fun p hp => ?_
  unfold idAmong
  split
  case isTrue h => exact idOf_inherited ((inherits_iff_wins hf hp).mpr h.choose_spec)
  case isFalse h =>
    refine idOf_minted fun hex => h ?_
    obtain ⟨t, ht⟩ := hex
    exact ⟨t, (inherits_iff_wins hf hp).mp ht⟩

theorem idAmong_perm {groups' : List (List LogEntry)} (h : groups.Perm groups') :
    idAmong c fallback groups = idAmong c fallback groups' := by
  have hwins : Wins c fallback groups = Wins c fallback groups' := by
    funext g t
    exact propext (wins_perm h)
  unfold idAmong
  rw [hwins]

/-! ## §2. The old groups. -/

/-- The groups are the old transactions: each has lines of one of them, which may be reused, and no two
    have lines of the same. -/
structure OldPartition (c : Continuity) (groups : List (List LogEntry)) (old : List UUID) : Prop where
  members : List.Forall₂ (fun g t => g ≠ [] ∧ t ∈ c.reusable ∧ ∀ e ∈ g, c.ownerByEntry e.id = some t)
    groups old
  distinct : old.Nodup

/-- A group whose lines have one owner votes for it. -/
theorem pluralityOwner_of_owned {g : List LogEntry} {t : UUID} (hne : g ≠ []) (ht : t ∈ c.reusable)
    (h : ∀ e ∈ g, c.ownerByEntry e.id = some t) : c.pluralityOwner g = some (t, g.length) := by
  have hall : ∀ e ∈ g, c.ownerOf e = some t := by
    intro e he
    unfold Continuity.ownerOf
    rw [h e he]
    simp [ht]
  have howners : g.filterMap c.ownerOf = List.replicate g.length t := by
    rw [List.filterMap_congr hall]
    clear hne h hall
    induction g with
    | nil => rfl
    | cons e g ih => exact congrArg (t :: ·) ih
  have hlength : g.length ≠ 0 := fun hzero => hne (List.length_eq_zero_iff.mp hzero)
  unfold Continuity.pluralityOwner Continuity.votes
  rw [howners]
  simp only [List.replicate_dedup hlength, List.map_cons, List.map_nil, List.count_replicate_self]
  rfl

/-- **A rebuild that forms the old groups keeps their ids.** -/
theorem assign_eq_old {old : List UUID} (h : OldPartition c groups old) : c.assign fallback groups = old := by
  have hlength := h.members.length_eq
  -- the group at a place votes for the old id at that place
  have hvotes : ∀ i (hi : i < groups.length), c.pluralityOwner groups[i] = some (old[i], groups[i].length) := by
    intro i hi
    obtain ⟨hne, ht, howned⟩ := h.members.get hi (hlength ▸ hi)
    exact pluralityOwner_of_owned hne ht howned
  refine List.ext_getElem ((length_assign c fallback groups).trans hlength) fun i hi hi' => ?_
  have hig : i < groups.length := hlength ▸ hi'
  have hplace : (c.assign fallback groups)[i] = c.idOf fallback groups (groups[i], i) := by
    simp [assign_eq_map]
  rw [hplace]
  refine idOf_inherited ⟨⟨groups[i].length, fallback groups[i], i, old[i]⟩, mem_bids.mpr
    ⟨(groups[i], i), List.mk_mem_zipIdx_iff_getElem?.mpr (List.getElem?_eq_getElem hig), old[i], _,
      hvotes i hig, rfl⟩, rfl, rfl, fun b' hb' ho => ?_⟩
  obtain ⟨⟨g, j⟩, hq, t', n', hwin', rfl⟩ := mem_bids.mp hb'
  obtain ⟨hj, rfl⟩ := List.getElem?_eq_some_iff.mp (List.mk_mem_zipIdx_iff_getElem?.mp hq)
  have hwin := hvotes j hj
  rw [hwin'] at hwin
  obtain ⟨rfl, rfl⟩ := Prod.mk.inj (Option.some.inj hwin)
  -- no other group votes for this id
  obtain rfl : j = i := h.distinct.getElem_inj_iff.mp ho
  exact Claim.le_refl _

/-! ## §3. Identity. -/

/-- What ids owe to the groups: a group has the same id in whatever order the groups come; an inherited id
    is a reusable one, and one group's; and the old groups have their old ids. -/
structure IdentityStable (c : Continuity) (fallback : List LogEntry → UUID) (groups : List (List LogEntry)) :
    Prop where
  orderFree : ∀ groups', groups.Perm groups' → ∃ id : List LogEntry → UUID,
    c.assign fallback groups = groups.map id ∧ c.assign fallback groups' = groups'.map id
  reusable : ∀ p ∈ award [] (c.claims fallback groups), p.2 ∈ c.reusable
  once : ((award [] (c.claims fallback groups)).map Prod.snd).Nodup
  kept : ∀ old, OldPartition c groups old → c.assign fallback groups = old

/-- A group votes for reusable ids only. -/
theorem pluralityOwner_reusable {g : List LogEntry} {t : UUID} {n : Nat}
    (h : c.pluralityOwner g = some (t, n)) : t ∈ c.reusable := by
  have hvote : (t, n) ∈ c.votes g := maxBy?_mem h
  obtain ⟨t', ht', heq⟩ := List.mem_map.mp hvote
  obtain rfl : t' = t := congrArg Prod.fst heq
  obtain ⟨e, -, howner⟩ := List.mem_filterMap.mp (List.mem_dedup.mp ht')
  exact of_decide_eq_true (Option.filter_eq_some_iff.mp howner).2

/-- **Identity is stable.** -/
theorem identity_stable (c : Continuity) (fallback : List LogEntry → UUID) (groups : List (List LogEntry))
    (hf : (groups.map fallback).Nodup) : IdentityStable c fallback groups := by
  constructor
  · intro groups' hperm
    have hf' : (groups'.map fallback).Nodup := (hperm.map fallback).nodup_iff.mp hf
    refine ⟨idAmong c fallback groups, assign_eq_idAmong hf, ?_⟩
    rw [idAmong_perm hperm]
    exact assign_eq_idAmong hf'
  · intro p hp
    obtain ⟨b, hb, -, howner⟩ := mem_of_mem_award hp
    obtain ⟨q, -, t, n, hwin, rfl⟩ := mem_bids.mp (mem_claims.mp hb)
    rw [← howner]
    exact pluralityOwner_reusable hwin
  · exact award_nodup [] _
  · exact fun old h => assign_eq_old h

/-- A conversation that fell into two halves. -/
theorem identity_stable_split : IdentityStable wasOneTransaction plainWorld.txnId splitFromAnchor :=
  identity_stable wasOneTransaction plainWorld.txnId splitFromAnchor (by decide +kernel)

end RagPipeline.Stage2
