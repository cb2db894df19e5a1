/-
  RagPipeline.Stage2.Continuity — which id a rebuilt conversation is given.

  A conversation inherits the id of the freed transaction that owned the plurality of its lines, and
  each id is handed out once: the strongest claim has it, everybody else is minted a new one from the
  anchor line.

    * `votes`          — how many of the lines each reusable predecessor owned;
    * `pluralityOwner` — the predecessor with the most votes, the greater id on a tie;
    * `claims`         — every group's bid, by `(-votes, fallback id, index)`;
    * `award`          — one pass over the bids, each id to the first that asks for it;
    * `assign`         — the awarded id, else the fallback.
-/
import Mathlib.Data.List.Dedup
import Mathlib.Data.List.Sort
import RagPipeline.Lib.Pop
import RagPipeline.Stage2.Entry

namespace RagPipeline.Stage2

open RagPipeline.Lib

/-! ## §1. Ids from content. -/

/-- `_anchor`: the first request or body, else the first line; its hash, else its place. -/
def anchor (es : List LogEntry) : String :=
  let req := es.find? fun e => decide (e.entryType = .request ∨ e.entryType = .requestBody)
  match req.or es.head? with
  | none => ""
  | some e =>
      let line := match e.lineNumber with
        | some n => toString n
        | none => "None"
      e.customerCode ++ ":" ++ (pyOr e.entryHash (some (e.sourceFile ++ ":" ++ line))).getD ""

/-! ## §2. Votes. -/

/-- `Continuity`: who owned each line before the rebuild, and the ids that may be handed out again. -/
structure Continuity where
  ownerByEntry : UUID → Option UUID
  reusable : List UUID

/-- `owner_of`: the transaction a line belonged to, when its id may be reused. -/
def Continuity.ownerOf (c : Continuity) (e : LogEntry) : Option UUID :=
  (c.ownerByEntry e.id).filter fun t => decide (t ∈ c.reusable)

/-- `_votes`: the predecessors of a group, each with the number of its lines they owned. -/
def Continuity.votes (c : Continuity) (es : List LogEntry) : List (UUID × Nat) :=
  let owners := es.filterMap c.ownerOf
  owners.dedup.map fun t => (t, owners.count t)

/-- `_plurality_owner`: the most votes, the greater id on a tie. -/
def Continuity.pluralityOwner (c : Continuity) (es : List LogEntry) : Option (UUID × Nat) :=
  maxBy? (fun p q => decide (q.2 < p.2) || (decide (p.2 = q.2) && decide (q.1 < p.1))) (c.votes es)

/-! ## §3. Claims. -/

/-- One group's bid for a predecessor's id. -/
structure Claim where
  votes : Nat
  fallback : UUID
  index : Nat
  owner : UUID
  deriving DecidableEq, Repr

/-- `(-votes, fallback, index)` in ascending order. -/
def Claim.le (a b : Claim) : Prop :=
  b.votes < a.votes ∨
    (a.votes = b.votes ∧ (a.fallback < b.fallback ∨ (a.fallback = b.fallback ∧ a.index ≤ b.index)))

instance : DecidableRel Claim.le := fun a b => by unfold Claim.le; infer_instance

/-- The bid of the group at `index`. -/
def Continuity.claimOf (c : Continuity) (fallback : List LogEntry → UUID)
    (p : List LogEntry × Nat) : Option Claim :=
  (c.pluralityOwner p.1).map fun win => ⟨win.2, fallback p.1, p.2, win.1⟩

/-- `_claims`: every bid, strongest first. -/
def Continuity.claims (c : Continuity) (fallback : List LogEntry → UUID)
    (groups : List (List LogEntry)) : List Claim :=
  (groups.zipIdx.filterMap (c.claimOf fallback)).insertionSort Claim.le

/-- `_award`: each id to the first that asks for it. -/
def award : List UUID → List Claim → List (Nat × UUID)
  | _, [] => []
  | taken, c :: rest =>
      if c.owner ∈ taken then award taken rest
      else (c.index, c.owner) :: award (c.owner :: taken) rest

/-- **`assign`**: one id for each group. -/
def Continuity.assign (c : Continuity) (fallback : List LogEntry → UUID)
    (groups : List (List LogEntry)) : List UUID :=
  let awarded := award [] (c.claims fallback groups)
  groups.zipIdx.map fun p => (awarded.lookup p.2).getD (fallback p.1)

@[simp] theorem length_assign (c : Continuity) (fallback : List LogEntry → UUID)
    (groups : List (List LogEntry)) : (c.assign fallback groups).length = groups.length := by
  simp [Continuity.assign]

/-! ## §4. Each id is awarded once. -/

theorem award_owner_not_taken {taken : List UUID} {cs : List Claim} {i : Nat} {t : UUID}
    (h : (i, t) ∈ award taken cs) : t ∉ taken := by
  induction cs generalizing taken with
  | nil => simp [award] at h
  | cons c cs ih =>
    unfold award at h
    split at h
    · exact ih h
    · next hfree =>
      rcases List.mem_cons.mp h with heq | htail
      · cases heq
        exact hfree
      · exact fun hmem => ih htail (List.mem_cons_of_mem _ hmem)

/-- Whatever is awarded was asked for. -/
theorem mem_of_mem_award {taken : List UUID} {cs : List Claim} {i : Nat} {t : UUID}
    (h : (i, t) ∈ award taken cs) : ∃ c ∈ cs, c.index = i ∧ c.owner = t := by
  induction cs generalizing taken with
  | nil => simp [award] at h
  | cons c cs ih =>
    unfold award at h
    split at h
    · obtain ⟨c', hc', heq⟩ := ih h
      exact ⟨c', List.mem_cons_of_mem _ hc', heq⟩
    · rcases List.mem_cons.mp h with heq | htail
      · cases heq
        exact ⟨c, by simp, rfl, rfl⟩
      · obtain ⟨c', hc', heq⟩ := ih htail
        exact ⟨c', List.mem_cons_of_mem _ hc', heq⟩

/-- **No id is awarded twice.** -/
theorem award_nodup (taken : List UUID) (cs : List Claim) :
    ((award taken cs).map Prod.snd).Nodup := by
  induction cs generalizing taken with
  | nil => simp [award]
  | cons c cs ih =>
    unfold award
    split
    · exact ih taken
    · rw [List.map_cons, List.nodup_cons]
      refine ⟨?_, ih _⟩
      intro hmem
      obtain ⟨p, hp, heq⟩ := List.mem_map.mp hmem
      exact award_owner_not_taken hp (heq ▸ List.mem_cons_self)

end RagPipeline.Stage2
