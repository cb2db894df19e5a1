/-
  RagPipeline.Stage2.Fingerprints — the two digests that decide whether a rebuilt row is written.

    * `members` — over the ids of a transaction's lines, SORTED before they are hashed;
    * `row`     — over the transaction's own columns, with `sealed`, the zone and the version.

  The hash is a parameter of the world the pipeline runs in: `World.digest` is `sha256` of the
  canonical text of a payload, and `CollisionFree` is what the pipeline relies on when it takes equal
  digests for equal payloads.  The same structure carries the other things the code calls and does not
  define: `uuid5`, the calendar of a zone, binary floating point.
-/
import Mathlib.Data.List.Sort
import RagPipeline.Stage2.Compute

namespace RagPipeline.Stage2

/-! ## §1. Canonical values. -/

mutual

/-- `_canonical`: an object sorted by key, a float as its text. -/
def Json.canonical : Json → Json
  | .float t => .str t
  | .arr xs => .arr (Json.canonicals xs)
  | .obj kvs => .obj ((Json.canonicalItems kvs).insertionSort fun a b => a.1 ≤ b.1)
  | .null => .null
  | .bool b => .bool b
  | .int i => .int i
  | .str s => .str s

def Json.canonicals : List Json → List Json
  | [] => []
  | v :: vs => v.canonical :: Json.canonicals vs

def Json.canonicalItems : List (String × Json) → List (String × Json)
  | [] => []
  | (k, v) :: kvs => (k, v.canonical) :: Json.canonicalItems kvs

end

/-- `_canonical` of a row: only the attributes hold anything that is not canonical already. -/
def TxnValues.canonical (v : TxnValues) : TxnValues :=
  { v with
    attributes := (Json.canonicalItems v.attributes).insertionSort fun a b => a.1 ≤ b.1 }

/-! ## §2. The world. -/

/-- The effective zone of a tenant (`get_customer_timezone`): the customer's, else the default. -/
@[ext] structure Zone where
  name : String
  named : name ≠ ""

theorem utc_named : "UTC" ≠ "" := by decide

/-- `_DERIVE_VERSION`. -/
def deriveVersion : Nat := 5

/-- What is hashed. -/
inductive Payload where
  | members (ids : List UUID)
  | row (values : TxnValues) (isSealed : Bool) (zone : String) (version : Nat)

/-- The functions the pipeline calls and does not define. -/
structure World (Fp : Type) where
  /-- `sha256(json.dumps(payload))`. -/
  digest : Payload → Fp
  /-- `uuid5(_TXN_NS, name)`. -/
  uuid5 : String → UUID
  /-- The calendar day of an instant in a zone. -/
  displayDay : Zone → Instant → Day
  /-- `int(d.total_seconds() * 1000)`. -/
  millis : Duration → Int
  /-- `get_customer_timezone`. -/
  timezone : Zone

variable {Fp : Type}

/-- Two payloads with one digest are the same payload. -/
def World.CollisionFree (w : World Fp) : Prop := Function.Injective w.digest

/-! ## §3. The digests. -/

/-- `sorted(ids)`. -/
def sortedIds (ids : List UUID) : List UUID := ids.insertionSort (· ≤ ·)

/-- `fingerprints.members`. -/
def World.members (w : World Fp) (ids : List UUID) : Fp := w.digest (.members (sortedIds ids))

/-- `tenant_timezone or "UTC"`. -/
def Zone.orUtc (zone : Zone) : String := if zone.name = "" then "UTC" else zone.name

/-- `fingerprints.row`, in a zone. -/
def World.rowIn (w : World Fp) (zone : Zone) (values : TxnValues) (isSealed : Bool) : Fp :=
  w.digest (.row values.canonical isSealed zone.orUtc deriveVersion)

/-- `fingerprints.row`, in the tenant's zone. -/
def World.row (w : World Fp) (values : TxnValues) (isSealed : Bool) : Fp :=
  w.rowIn w.timezone values isSealed

/-- `_cap_over_length(b.compute())`, in a zone. -/
def World.valuesIn (w : World Fp) (zone : Zone) (es : List LogEntry) : TxnValues :=
  capOverLength (compute (w.displayDay zone) w.millis es)

/-- `_cap_over_length(b.compute())`, in the tenant's zone. -/
def World.values (w : World Fp) (es : List LogEntry) : TxnValues := w.valuesIn w.timezone es

/-! ## §4. What a digest says. -/

theorem sortedIds_perm (ids : List UUID) : (sortedIds ids).Perm ids :=
  List.perm_insertionSort _ ids

/-- Sorting forgets the order, and only the order. -/
theorem sortedIds_eq_iff {ids ids' : List UUID} : sortedIds ids = sortedIds ids' ↔ ids.Perm ids' := by
  constructor
  · intro h
    exact (sortedIds_perm ids).symm.trans (h ▸ sortedIds_perm ids')
  · intro h
    have hsorted : (sortedIds ids).Pairwise (· ≤ ·) := List.pairwise_insertionSort _ ids
    have hsorted' : (sortedIds ids').Pairwise (· ≤ ·) := List.pairwise_insertionSort _ ids'
    have hperm : (sortedIds ids).Perm (sortedIds ids') :=
      (sortedIds_perm ids).trans (h.trans (sortedIds_perm ids').symm)
    exact hperm.eq_of_pairwise (fun a b _ _ hab hba => le_antisymm hab hba) hsorted hsorted'

/-- **The members digest forgets the order of the lines**: two lists have one digest exactly when one
    is a permutation of the other. -/
theorem members_eq_iff {w : World Fp} (hw : w.CollisionFree) {ids ids' : List UUID} :
    w.members ids = w.members ids' ↔ ids.Perm ids' := by
  rw [← sortedIds_eq_iff]
  constructor
  · intro h
    exact Payload.members.inj (hw h)
  · intro h
    rw [World.members, World.members, h]

/-- The row digest tells the sealed flag and the zone. -/
theorem rowIn_inj {w : World Fp} (hw : w.CollisionFree) {zone zone' : Zone}
    {v v' : TxnValues} {b b' : Bool} (h : w.rowIn zone v b = w.rowIn zone' v' b') :
    b = b' ∧ zone = zone' := by
  obtain ⟨-, hb, hz, -⟩ := Payload.row.inj (hw h)
  rw [Zone.orUtc, Zone.orUtc, if_neg zone.named, if_neg zone'.named] at hz
  exact ⟨hb, Zone.ext hz⟩

@[simp] theorem values_startedAt (w : World Fp) (es : List LogEntry) :
    (w.values es).startedAt = startedAt es := rfl

@[simp] theorem values_endedAt (w : World Fp) (es : List LogEntry) :
    (w.values es).endedAt = endedAt es := rfl

end RagPipeline.Stage2
