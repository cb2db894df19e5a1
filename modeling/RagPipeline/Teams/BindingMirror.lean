/-
  RagPipeline.Teams.BindingMirror — which log space a tenant of the bot has, here and in the copy at the edge.

  The table decides and the edge reflects.  Every edit is followed by a push; a sweep pushes what still needs it.
  A push is three steps with nothing held between them: the row is read, its copy is put, the row is marked.  The
  mark takes the time of the edit from the row, not from the copy.

    * `mirrored_current` — while no push is overtaken by an edit, a row marked as mirrored is at the edge;
    * `sweep_settles`    — an undisturbed sweep puts every row that needs it, and marks those it could put;
    * `never_repaired`   — a push that is overtaken may leave an old copy under a marked row, and a removal that
                           fails a copy of no row: until the next edit nothing repairs either.
-/
import Mathlib.Data.List.Basic
import Mathlib.Logic.Function.Basic
import RagPipeline.Lib.OptionLoops

namespace RagPipeline.Teams

open RagPipeline.Lib

/-! ## §1. The table and the copy. -/

/-- What an edit sets. -/
structure Binding where
  customerCode : String
  enabled : Bool
  displayName : Option String
  deriving DecidableEq, Repr

/-- A row of `teams_tenant_bindings`. -/
structure BindingRow where
  binding : Binding
  createdBy : Option String
  mirroredAt : Option ℕ
  updatedAt : ℕ
  deriving DecidableEq, Repr

namespace BindingRow

/-- Never mirrored, or edited since. -/
def needsMirror (r : BindingRow) : Bool :=
  match r.mirroredAt with
  | none => true
  | some at' => decide (at' < r.updatedAt)

/-- `mark_mirrored`: the row's own time of edit. -/
def marked (r : BindingRow) : BindingRow := { r with mirroredAt := some r.updatedAt }

@[simp] theorem needsMirror_marked (r : BindingRow) : r.marked.needsMirror = false := by
  simp [needsMirror, marked]

/-- `put_item`: a name that is empty is left out. -/
def item (r : BindingRow) : Binding := { r.binding with displayName := r.binding.displayName.filter (· ≠ "") }

@[simp] theorem item_marked (r : BindingRow) : r.marked.item = r.item := rfl

/-- A row that needs no mirroring is marked. -/
theorem marked_of_shown {r : BindingRow} (h : r.needsMirror = false) (hle : ∀ at' ∈ r.mirroredAt, at' ≤ r.updatedAt) :
    r.marked = r := by
  obtain ⟨binding, createdBy, mirroredAt, updatedAt⟩ := r
  cases mirroredAt with
  | none => cases h
  | some at' =>
    have hge : ¬at' < updatedAt := of_decide_eq_false h
    have hle' : at' ≤ updatedAt := hle at' rfl
    obtain rfl : at' = updatedAt := by omega
    rfl

end BindingRow

/-- A copy that is on its way, or is put and waits for its mark. -/
structure Push where
  tenant : String
  row : BindingRow
  sent : Bool
  deriving DecidableEq, Repr

structure State where
  rows : String → Option BindingRow
  edge : String → Option Binding
  pushes : List Push
  removals : List String
  now : ℕ

def noBindings : State := ⟨fun _ => none, fun _ => none, [], [], 0⟩

/-- What the API and the sweeps do, and what may fail.  No two edits are at one instant. -/
inductive Action
  | upsert (tenant : String) (binding : Binding) (createdBy : Option String)
  | read (tenant : String)
  | put (i : ℕ) (ok : Bool)
  | mark (i : ℕ)
  | crash (i : ℕ)
  | delete (tenant : String)
  | remove (i : ℕ) (ok : Bool)
  deriving DecidableEq, Repr

/-- The row after an edit: who created it, and when it was mirrored, stay. -/
def edited (old : Option BindingRow) (binding : Binding) (createdBy : Option String) (now : ℕ) : BindingRow :=
  match old with
  | none => ⟨binding, createdBy, none, now⟩
  | some r => { r with binding := binding, updatedAt := now }

def setRow (s : State) (tenant : String) (r : Option BindingRow) : State :=
  { s with rows := Function.update s.rows tenant r }

def setEdge (s : State) (tenant : String) (b : Option Binding) : State :=
  { s with edge := Function.update s.edge tenant b }

/-- One step of one of those at work: none when there is no such step. -/
def step (s : State) : Action → Option State
  | .upsert tenant binding createdBy =>
    let r := edited (s.rows tenant) binding createdBy (s.now + 1)
    some { setRow s tenant (some r) with pushes := s.pushes ++ [⟨tenant, r, false⟩], now := s.now + 1 }
  | .read tenant =>
    match s.rows tenant with
    | none => none
    | some r => if r.needsMirror then some { s with pushes := s.pushes ++ [⟨tenant, r, false⟩] } else none
  | .put i ok =>
    match s.pushes[i]? with
    | none => none
    | some p =>
      if p.sent then none
      else if ok then some { setEdge s p.tenant (some p.row.item) with pushes := s.pushes.set i { p with sent := true } }
      else some { s with pushes := s.pushes.eraseIdx i }
  | .mark i =>
    match s.pushes[i]? with
    | none => none
    | some p =>
      if p.sent then
        some { setRow s p.tenant ((s.rows p.tenant).map BindingRow.marked) with pushes := s.pushes.eraseIdx i }
      else none
  | .crash i => if i < s.pushes.length then some { s with pushes := s.pushes.eraseIdx i } else none
  | .delete tenant =>
    match s.rows tenant with
    | none => none
    | some _ => some { setRow s tenant none with removals := s.removals ++ [tenant] }
  | .remove i ok =>
    match s.removals[i]? with
    | none => none
    | some tenant =>
      if ok then some { setEdge s tenant none with removals := s.removals.eraseIdx i }
      else some { s with removals := s.removals.eraseIdx i }

def run (s : State) (as : List Action) : Option State := as.foldlM step s

/-! ## §2. Pushes that are not overtaken. -/

/-- The copy is of the row as it stands. -/
def Copies (s : State) (p : Push) : Prop := ∃ r, s.rows p.tenant = some r ∧ r.updatedAt = p.row.updatedAt

/-- What is put or marked has not been edited since it was read, and what is removed has not come back. -/
def InTime (s : State) : Action → Prop
  | .put i true => ∀ p, s.pushes[i]? = some p → Copies s p
  | .mark i => ∀ p, s.pushes[i]? = some p → Copies s p
  | .remove i true => ∀ tenant, s.removals[i]? = some tenant → s.rows tenant = none
  | _ => True

/-- So are all steps of a run. -/
def Undisturbed : State → List Action → Prop
  | _, [] => True
  | s, a :: as => InTime s a ∧ ∀ s', step s a = some s' → Undisturbed s' as

/-- What holds between the table, the copies on their way and the edge. -/
structure Faithful (s : State) : Prop where
  /-- a mark is of an edit that was made -/
  mirrored : ∀ tenant r, s.rows tenant = some r → r.updatedAt ≤ s.now ∧ ∀ at' ∈ r.mirroredAt, at' ≤ r.updatedAt
  copied : ∀ p ∈ s.pushes, p.row.updatedAt ≤ s.now
  /-- one time of edit, one row -/
  same : ∀ p ∈ s.pushes, ∀ r, s.rows p.tenant = some r → r.updatedAt = p.row.updatedAt → r.binding = p.row.binding
  sent : ∀ p ∈ s.pushes, p.sent = true → Copies s p → s.edge p.tenant = some p.row.item
  shown : ∀ tenant r, s.rows tenant = some r → r.needsMirror = false → s.edge tenant = some r.item

theorem faithful_noBindings : Faithful noBindings where
  mirrored := fun _ _ h => nomatch h
  copied := fun _ h => nomatch h
  same := fun _ h => nomatch h
  sent := fun _ h => nomatch h
  shown := fun _ _ h => nomatch h

section Steps

variable {s s' : State} {a : Action} {tenant : String}

theorem item_congr {r r' : BindingRow} (h : r.binding = r'.binding) : r.item = r'.item := by
  unfold BindingRow.item
  rw [h]

theorem Faithful.erase (h : Faithful s) (i : ℕ) : Faithful { s with pushes := s.pushes.eraseIdx i } where
  mirrored := h.mirrored
  copied := fun p hp => h.copied p (List.mem_of_mem_eraseIdx hp)
  same := fun p hp => h.same p (List.mem_of_mem_eraseIdx hp)
  sent := fun p hp => h.sent p (List.mem_of_mem_eraseIdx hp)
  shown := h.shown

theorem Faithful.push (h : Faithful s) {r : BindingRow} (hr : s.rows tenant = some r) :
    Faithful { s with pushes := s.pushes ++ [⟨tenant, r, false⟩] } where
  mirrored := h.mirrored
  copied := by
    intro p hp
    cases List.mem_append.mp hp with
    | inl hp => exact h.copied p hp
    | inr hp =>
      cases List.mem_singleton.mp hp
      exact (h.mirrored tenant r hr).1
  same := by
    intro p hp r' hr' heq
    cases List.mem_append.mp hp with
    | inl hp => exact h.same p hp r' hr' heq
    | inr hp =>
      cases List.mem_singleton.mp hp
      cases Option.some.inj (hr.symm.trans hr')
      rfl
  sent := by
    intro p hp hsent
    cases List.mem_append.mp hp with
    | inl hp => exact h.sent p hp hsent
    | inr hp =>
      cases List.mem_singleton.mp hp
      cases hsent
  shown := h.shown

/-- An edit: no copy on its way is of the row any more. -/
theorem Faithful.upsert (h : Faithful s) (binding : Binding) (createdBy : Option String) :
    Faithful { setRow s tenant (some (edited (s.rows tenant) binding createdBy (s.now + 1))) with now := s.now + 1 } := by
  have hnew : (edited (s.rows tenant) binding createdBy (s.now + 1)).updatedAt = s.now + 1 := by
    unfold edited
    split <;> rfl
  have hneeds : (edited (s.rows tenant) binding createdBy (s.now + 1)).needsMirror = true := by
    unfold edited
    split
    · rfl
    · next r hr =>
      have hold := h.mirrored tenant r hr
      unfold BindingRow.needsMirror
      dsimp only
      split
      · rfl
      · next at' hat =>
        have hle := hold.2 at' (Option.mem_def.mpr hat)
        exact decide_eq_true (by omega)
  have hmirrored : ∀ at' ∈ (edited (s.rows tenant) binding createdBy (s.now + 1)).mirroredAt, at' ≤ s.now + 1 := by
    unfold edited
    split
    · exact fun at' hat => nomatch hat
    · next r hr =>
      intro at' hat
      have hold := h.mirrored tenant r hr
      have hle := hold.2 at' hat
      omega
  generalize edited (s.rows tenant) binding createdBy (s.now + 1) = r at hnew hneeds hmirrored
  have hrows : ∀ tenant' r', Function.update s.rows tenant (some r) tenant' = some r' →
      (tenant' = tenant ∧ r' = r) ∨ (tenant' ≠ tenant ∧ s.rows tenant' = some r') := by
    intro tenant' r' hr'
    by_cases ht : tenant' = tenant
    · subst ht
      rw [Function.update_self] at hr'
      exact .inl ⟨rfl, (Option.some.inj hr').symm⟩
    · rw [Function.update_of_ne ht] at hr'
      exact .inr ⟨ht, hr'⟩
  have hcopies : ∀ p ∈ s.pushes, ∀ r', Function.update s.rows tenant (some r) p.tenant = some r' →
      r'.updatedAt = p.row.updatedAt → s.rows p.tenant = some r' := by
    intro p hp r' hr' heq
    rcases hrows _ _ hr' with ⟨-, rfl⟩ | ⟨-, hold⟩
    · have hle := h.copied p hp
      omega
    · exact hold
  refine ⟨?_, ?_, ?_, ?_, ?_⟩
  · intro tenant' r' hr'
    rcases hrows _ _ hr' with ⟨-, rfl⟩ | ⟨-, hold⟩
    · exact ⟨Nat.le_of_eq hnew, fun at' hat => hnew ▸ hmirrored at' hat⟩
    · exact ⟨Nat.le_succ_of_le (h.mirrored _ _ hold).1, (h.mirrored _ _ hold).2⟩
  · exact fun p hp => Nat.le_succ_of_le (h.copied p hp)
  · exact fun p hp r' hr' heq => h.same p hp r' (hcopies p hp r' hr' heq) heq
  · rintro p hp hsent ⟨r', hr', heq⟩
    exact h.sent p hp hsent ⟨r', hcopies p hp r' hr' heq, heq⟩
  · intro tenant' r' hr' hshown
    rcases hrows _ _ hr' with ⟨-, rfl⟩ | ⟨-, hold⟩
    · rw [hneeds] at hshown
      cases hshown
    · exact h.shown _ _ hold hshown

/-- A copy of the row as it stands is put. -/
theorem Faithful.put (h : Faithful s) {i : ℕ} {p : Push} (hp : s.pushes[i]? = some p) (hcopy : Copies s p) :
    Faithful { setEdge s p.tenant (some p.row.item) with pushes := s.pushes.set i { p with sent := true } } := by
  have hmem : p ∈ s.pushes := List.mem_of_getElem? hp
  have hset : ∀ q ∈ s.pushes.set i { p with sent := true }, q ∈ s.pushes ∨ q = { p with sent := true } :=
    fun q hq => List.mem_or_eq_of_mem_set hq
  obtain ⟨r, hr, hat⟩ := hcopy
  have hitem : r.item = p.row.item := item_congr (h.same p hmem r hr hat)
  -- Whatever else is of the row as it stands has the same binding.
  have hedge : ∀ tenant' r', s.rows tenant' = some r' → s.edge tenant' = some r'.item →
      Function.update s.edge p.tenant (some p.row.item) tenant' = some r'.item := by
    intro tenant' r' hr' hold
    by_cases ht : tenant' = p.tenant
    · subst ht
      cases Option.some.inj (hr.symm.trans hr')
      rw [Function.update_self, hitem]
    · rw [Function.update_of_ne ht, hold]
  refine ⟨h.mirrored, ?_, ?_, ?_, ?_⟩
  · intro q hq
    rcases hset q hq with hq | rfl
    · exact h.copied q hq
    · exact h.copied p hmem
  · intro q hq
    rcases hset q hq with hq | rfl
    · exact h.same q hq
    · exact h.same p hmem
  · intro q hq hsent hcopy
    rcases hset q hq with hq | rfl
    · obtain ⟨r', hr', hat'⟩ := hcopy
      have hsame : r'.item = q.row.item := item_congr (h.same q hq r' hr' hat')
      rw [← hsame]
      exact hedge q.tenant r' hr' ((h.sent q hq hsent ⟨r', hr', hat'⟩).trans (congrArg some hsame.symm))
    · exact Function.update_self _ _ _
  · intro tenant' r' hr' hshown
    exact hedge tenant' r' hr' (h.shown tenant' r' hr' hshown)

/-- A copy of the row as it stands has been put, and the row is marked. -/
theorem Faithful.mark (h : Faithful s) {p : Push} (hp : p ∈ s.pushes) (hsent : p.sent = true) (hcopy : Copies s p) :
    Faithful (setRow s p.tenant ((s.rows p.tenant).map BindingRow.marked)) := by
  obtain ⟨r, hr, hat⟩ := hcopy
  have hedge := h.sent p hp hsent ⟨r, hr, hat⟩
  rw [← item_congr (h.same p hp r hr hat)] at hedge
  have hrows : ∀ tenant' r', Function.update s.rows p.tenant ((s.rows p.tenant).map BindingRow.marked) tenant' = some r' →
      ∃ r₀, s.rows tenant' = some r₀ ∧ r'.binding = r₀.binding ∧ r'.updatedAt = r₀.updatedAt ∧
        (tenant' = p.tenant ∧ r' = r₀.marked ∨ r' = r₀) := by
    intro tenant' r' hr'
    by_cases ht : tenant' = p.tenant
    · subst ht
      rw [Function.update_self, hr] at hr'
      cases Option.some.inj hr'
      exact ⟨r, hr, rfl, rfl, .inl ⟨rfl, rfl⟩⟩
    · rw [Function.update_of_ne ht] at hr'
      exact ⟨r', hr', rfl, rfl, .inr rfl⟩
  refine ⟨?_, h.copied, ?_, ?_, ?_⟩
  · intro tenant' r' hr'
    obtain ⟨r₀, hr₀, -, -, ⟨-, rfl⟩ | rfl⟩ := hrows _ _ hr'
    · refine ⟨(h.mirrored _ _ hr₀).1, fun at' hat' => ?_⟩
      cases Option.mem_some_iff.mp hat'
      exact Nat.le_refl _
    · exact h.mirrored _ _ hr₀
  · intro q hq r' hr' heq
    obtain ⟨r₀, hr₀, hbinding, hupdated, -⟩ := hrows _ _ hr'
    exact hbinding.trans (h.same q hq r₀ hr₀ (hupdated.symm.trans heq))
  · rintro q hq hq' ⟨r', hr', heq⟩
    obtain ⟨r₀, hr₀, -, hupdated, -⟩ := hrows _ _ hr'
    exact h.sent q hq hq' ⟨r₀, hr₀, hupdated.symm.trans heq⟩
  · intro tenant' r' hr' hshown
    obtain ⟨r₀, hr₀, -, -, ⟨rfl, rfl⟩ | rfl⟩ := hrows _ _ hr'
    · cases Option.some.inj (hr.symm.trans hr₀)
      exact hedge
    · exact h.shown _ _ hr₀ hshown

/-- Without its row, nothing of a tenant is a copy. -/
theorem Faithful.delete (h : Faithful s) (tenant : String) : Faithful (setRow s tenant none) := by
  have hrows : ∀ tenant' r', Function.update s.rows tenant none tenant' = some r' → s.rows tenant' = some r' := by
    intro tenant' r' hr'
    by_cases ht : tenant' = tenant
    · subst ht
      rw [Function.update_self] at hr'
      cases hr'
    · rwa [Function.update_of_ne ht] at hr'
  refine ⟨fun t r hr => h.mirrored t r (hrows t r hr), h.copied, fun p hp r hr => h.same p hp r (hrows _ r hr), ?_,
    fun t r hr => h.shown t r (hrows t r hr)⟩
  rintro p hp hsent ⟨r, hr, heq⟩
  exact h.sent p hp hsent ⟨r, hrows _ r hr, heq⟩

/-- What has no row is removed. -/
theorem Faithful.remove (h : Faithful s) (hnone : s.rows tenant = none) : Faithful (setEdge s tenant none) := by
  have hedge : ∀ tenant' r, s.rows tenant' = some r → Function.update s.edge tenant none tenant' = s.edge tenant' := by
    intro tenant' r hr
    refine Function.update_of_ne ?_ _ _
    rintro rfl
    rw [hnone] at hr
    cases hr
  refine ⟨h.mirrored, h.copied, h.same, ?_, fun t r hr hshown => (hedge t r hr).trans (h.shown t r hr hshown)⟩
  rintro p hp hsent ⟨r, hr, heq⟩
  exact (hedge _ r hr).trans (h.sent p hp hsent ⟨r, hr, heq⟩)

/-- **A step keeps the edge faithful, unless it puts, marks or removes what an edit has overtaken.** -/
theorem Faithful.step (h : Faithful s) (hin : InTime s a) (hs : step s a = some s') : Faithful s' := by
  cases a with
  | upsert tenant binding createdBy =>
    cases hs
    exact (h.upsert binding createdBy).push (Function.update_self _ _ _)
  | read tenant =>
    unfold Teams.step at hs
    dsimp only at hs
    split at hs
    · cases hs
    · next r hr =>
      split at hs
      · cases hs
        exact h.push hr
      · cases hs
  | put i ok =>
    unfold Teams.step at hs
    dsimp only at hs
    split at hs
    · cases hs
    · next p hp =>
      split at hs
      · cases hs
      · cases ok with
        | true =>
          cases hs
          exact h.put hp (hin p hp)
        | false =>
          cases hs
          exact h.erase i
  | mark i =>
    unfold Teams.step at hs
    dsimp only at hs
    split at hs
    · cases hs
    · next p hp =>
      split at hs
      · next hsent =>
        cases hs
        exact (h.mark (List.mem_of_getElem? hp) hsent (hin p hp)).erase i
      · cases hs
  | crash i =>
    unfold Teams.step at hs
    dsimp only at hs
    split at hs
    · cases hs
      exact h.erase i
    · cases hs
  | delete tenant =>
    unfold Teams.step at hs
    dsimp only at hs
    split at hs
    · cases hs
    · cases hs
      have hgone := h.delete tenant
      exact ⟨hgone.mirrored, hgone.copied, hgone.same, hgone.sent, hgone.shown⟩
  | remove i ok =>
    unfold Teams.step at hs
    dsimp only at hs
    split at hs
    · cases hs
    · next tenant htenant =>
      cases ok with
      | true =>
        cases hs
        have hgone := h.remove (hin tenant htenant)
        exact ⟨hgone.mirrored, hgone.copied, hgone.same, hgone.sent, hgone.shown⟩
      | false =>
        cases hs
        exact ⟨h.mirrored, h.copied, h.same, h.sent, h.shown⟩

theorem run_cons {as : List Action} : run s (a :: as) = (step s a).bind fun s₁ => run s₁ as := rfl

theorem Faithful.run {as : List Action} (h : Faithful s) (hu : Undisturbed s as) (hs : run s as = some s') :
    Faithful s' := by
  induction as generalizing s with
  | nil =>
    cases hs
    exact h
  | cons a as ih =>
    rw [run_cons] at hs
    obtain ⟨s₁, hstep, hs⟩ := Option.bind_eq_some_iff.mp hs
    exact ih (h.step hu.1 hstep) (hu.2 s₁ hstep) hs

/-- **While no push is overtaken by an edit, a row that needs no mirroring is at the edge as it is.** -/
theorem mirrored_current {as : List Action} (hu : Undisturbed noBindings as) (hs : Teams.run noBindings as = some s)
    {r : BindingRow} (hr : s.rows tenant = some r) (hshown : r.needsMirror = false) : s.edge tenant = some r.item :=
  (faithful_noBindings.run hu hs).shown tenant r hr hshown

end Steps

/-! ## §3. Sweeps. -/

/-- What a sweep does for one row, when nothing comes between. -/
def sweepOne (ok : String → Bool) (s : State) (tenant : String) : State :=
  match s.rows tenant with
  | none => s
  | some r =>
    if r.needsMirror && ok tenant then setEdge (setRow s tenant (some r.marked)) tenant (some r.item) else s

/-- `sweep_once`: the rows one after the other, and a failure does not stop the rest. -/
def sweepOnce (ok : String → Bool) (tenants : List String) (s : State) : State := tenants.foldl (sweepOne ok) s

section Sweeps

variable {s s' : State} {ok : String → Bool} {tenants : List String}

theorem run_append {as bs : List Action} : run s (as ++ bs) = (run s as).bind fun s₁ => run s₁ bs := by
  unfold run
  rw [List.foldlM_append]
  rfl

theorem Undisturbed.append {as bs : List Action} (ha : Undisturbed s as)
    (hb : ∀ s₁, run s as = some s₁ → Undisturbed s₁ bs) : Undisturbed s (as ++ bs) := by
  induction as generalizing s with
  | nil => exact hb s rfl
  | cons a as ih =>
    refine ⟨ha.1, fun s₁ hs₁ => ih (ha.2 s₁ hs₁) fun s₂ hs₂ => hb s₂ ?_⟩
    rw [run_cons, hs₁]
    exact hs₂

/-- Read, put and mark, or read and fail to put. -/
theorem sweepOne_run (ok : String → Bool) (s : State) (tenant : String) :
    ∃ as, run s as = some (sweepOne ok s tenant) ∧ Undisturbed s as := by
  unfold sweepOne
  cases hr : s.rows tenant with
  | none => exact ⟨[], rfl, trivial⟩
  | some r =>
    dsimp only
    by_cases hneeds : (r.needsMirror && ok tenant) = true
    · rw [if_pos hneeds]
      have hneeds' := (Bool.and_eq_true_iff.mp hneeds).1
      have hread : step s (.read tenant) = some { s with pushes := s.pushes ++ [⟨tenant, r, false⟩] } := by
        simp [step, hr, hneeds']
      have hput : step { s with pushes := s.pushes ++ [⟨tenant, r, false⟩] } (.put s.pushes.length true) =
          some { setEdge s tenant (some r.item) with pushes := s.pushes ++ [⟨tenant, r, true⟩] } := by
        simp [step, setEdge]
      have hmark : step { setEdge s tenant (some r.item) with pushes := s.pushes ++ [⟨tenant, r, true⟩] }
          (.mark s.pushes.length) = some (setEdge (setRow s tenant (some r.marked)) tenant (some r.item)) := by
        simp [step, setEdge, setRow, hr, List.eraseIdx_append]
      refine ⟨[.read tenant, .put s.pushes.length true, .mark s.pushes.length], ?_, trivial, ?_⟩
      · rw [run_cons, hread, Option.bind_some, run_cons, hput, Option.bind_some, run_cons, hmark]
        rfl
      · intro s₁ hs₁
        cases Option.some.inj (hread.symm.trans hs₁)
        refine ⟨?_, fun s₂ hs₂ => ?_⟩
        · intro p hp
          have hlast : p = ⟨tenant, r, false⟩ := by simpa using hp.symm
          subst hlast
          exact ⟨r, hr, rfl⟩
        · cases Option.some.inj (hput.symm.trans hs₂)
          refine ⟨?_, fun _ _ => trivial⟩
          intro p hp
          have hlast : p = ⟨tenant, r, true⟩ := by simpa using hp.symm
          subst hlast
          exact ⟨r, hr, rfl⟩
    · rw [if_neg hneeds]
      exact ⟨[], rfl, trivial⟩

theorem sweepOnce_run (ok : String → Bool) (tenants : List String) (s : State) :
    ∃ as, run s as = some (sweepOnce ok tenants s) ∧ Undisturbed s as := by
  induction tenants generalizing s with
  | nil => exact ⟨[], rfl, trivial⟩
  | cons tenant tenants ih =>
    obtain ⟨as, has, hua⟩ := sweepOne_run ok s tenant
    obtain ⟨bs, hbs, hub⟩ := ih (sweepOne ok s tenant)
    refine ⟨as ++ bs, ?_, hua.append fun s₁ hs₁ => ?_⟩
    · rw [run_append, has, Option.bind_some]
      exact hbs
    · cases Option.some.inj (has.symm.trans hs₁)
      exact hub

/-- What a sweep leaves of a row: it is put and marked, or it is as it was. -/
theorem sweepOnce_get (ok : String → Bool) (tenants : List String) (s : State) (tenant : String) :
    ((sweepOnce ok tenants s).rows tenant, (sweepOnce ok tenants s).edge tenant) =
      match s.rows tenant with
      | none => (none, s.edge tenant)
      | some r => if tenant ∈ tenants ∧ r.needsMirror = true ∧ ok tenant = true then (some r.marked, some r.item)
          else (some r, s.edge tenant) := by
  induction tenants generalizing s with
  | nil =>
    unfold sweepOnce
    cases hr : s.rows tenant with
    | none => simp [hr]
    | some r => simp [hr]
  | cons t tenants ih =>
    show ((sweepOnce ok tenants (sweepOne ok s t)).rows tenant, (sweepOnce ok tenants (sweepOne ok s t)).edge tenant) = _
    rw [ih]
    by_cases ht : tenant = t
    · subst ht
      unfold sweepOne
      cases hr : s.rows tenant with
      | none => simp [hr]
      | some r =>
        by_cases hneeds : (r.needsMirror && ok tenant) = true
        · have hboth := Bool.and_eq_true_iff.mp hneeds
          simp [setEdge, setRow, hboth.1, hboth.2]
        · have hnot : ¬(r.needsMirror = true ∧ ok tenant = true) := fun hboth => hneeds (Bool.and_eq_true_iff.mpr hboth)
          simp [hneeds, hr, hnot]
    · have hsame : (sweepOne ok s t).rows tenant = s.rows tenant ∧ (sweepOne ok s t).edge tenant = s.edge tenant := by
        unfold sweepOne
        split
        · exact ⟨rfl, rfl⟩
        · split
          · exact ⟨Function.update_of_ne ht _ _, Function.update_of_ne ht _ _⟩
          · exact ⟨rfl, rfl⟩
      rw [hsame.1, hsame.2]
      simp [ht]

/-- **After any run in which no push was overtaken, one sweep that reaches the edge brings every row there and leaves
none to be mirrored; it is itself a run in which none is overtaken.** -/
theorem sweep_settles {as : List Action} (hu : Undisturbed noBindings as) (hs : run noBindings as = some s)
    (hall : ∀ tenant, (s.rows tenant).isSome → tenant ∈ tenants) :
    (∃ bs, run s bs = some (sweepOnce (fun _ => true) tenants s) ∧ Undisturbed s bs) ∧
      ∀ tenant r, s.rows tenant = some r → (sweepOnce (fun _ => true) tenants s).rows tenant = some r.marked ∧
        (sweepOnce (fun _ => true) tenants s).edge tenant = some r.item := by
  refine ⟨sweepOnce_run _ tenants s, fun tenant r hr => ?_⟩
  have hf := faithful_noBindings.run hu hs
  have hget := sweepOnce_get (fun _ => true) tenants s tenant
  rw [hr] at hget
  have hmem := hall tenant (hr ▸ rfl)
  by_cases hneeds : r.needsMirror = true
  · simp only [hmem, hneeds, and_self, if_true] at hget
    exact Prod.mk.inj hget
  · have hshown : r.needsMirror = false := Bool.eq_false_iff.mpr hneeds
    have hold := hf.mirrored tenant r hr
    have hedge := hf.shown tenant r hr hshown
    have hmarked := BindingRow.marked_of_shown hshown hold.2
    simp only [hshown, Bool.false_eq_true, false_and, and_false, if_false] at hget
    rw [hmarked]
    exact ⟨(Prod.mk.inj hget).1, (Prod.mk.inj hget).2.trans hedge⟩

end Sweeps

/-! ## §4. Pushes that are overtaken. -/

/-- Nothing is on its way for the tenant, and its row, if there is one, needs no mirroring. -/
structure Settled (s : State) (tenant : String) : Prop where
  pushes : ∀ p ∈ s.pushes, p.tenant ≠ tenant
  removals : tenant ∉ s.removals
  row : ∀ r, s.rows tenant = some r → r.needsMirror = false

def Action.Edits (tenant : String) : Action → Prop
  | .upsert t _ _ => t = tenant
  | .delete t => t = tenant
  | _ => False

section Overtaken

variable {s s' : State} {a : Action} {tenant : String}

theorem Settled.step (h : Settled s tenant) (ha : ¬a.Edits tenant) (hs : step s a = some s') :
    Settled s' tenant ∧ s'.rows tenant = s.rows tenant ∧ s'.edge tenant = s.edge tenant := by
  have herase : ∀ i : ℕ, ∀ p ∈ s.pushes.eraseIdx i, p.tenant ≠ tenant := fun i p hp => h.pushes p (List.mem_of_mem_eraseIdx hp)
  have hother : ∀ (i : ℕ) (p : Push), s.pushes[i]? = some p → tenant ≠ p.tenant := fun i p hp =>
    (h.pushes p (List.mem_of_getElem? hp)).symm
  have hadd : ∀ (t : String) (r : BindingRow), t ≠ tenant → ∀ p ∈ s.pushes ++ [(⟨t, r, false⟩ : Push)], p.tenant ≠ tenant := by
    intro t r ht p hp
    cases List.mem_append.mp hp with
    | inl hp => exact h.pushes p hp
    | inr hp =>
      cases List.mem_singleton.mp hp
      exact ht
  cases a with
  | upsert t binding createdBy =>
    cases hs
    have ht : tenant ≠ t := fun heq => ha heq.symm
    have hrow : Function.update s.rows t (some (edited (s.rows t) binding createdBy (s.now + 1))) tenant = s.rows tenant :=
      Function.update_of_ne ht _ _
    exact ⟨⟨hadd t _ ht.symm, h.removals, fun r hr => h.row r (hrow.symm.trans hr)⟩, hrow, rfl⟩
  | read t =>
    unfold Teams.step at hs
    dsimp only at hs
    split at hs
    · cases hs
    · next r hr =>
      split at hs
      · next hneeds =>
        cases hs
        have ht : t ≠ tenant := by
          rintro rfl
          rw [h.row r hr] at hneeds
          cases hneeds
        exact ⟨⟨hadd t r ht, h.removals, h.row⟩, rfl, rfl⟩
      · cases hs
  | put i ok =>
    unfold Teams.step at hs
    dsimp only at hs
    split at hs
    · cases hs
    · next p hp =>
      split at hs
      · cases hs
      · cases ok with
        | true =>
          cases hs
          refine ⟨⟨?_, h.removals, h.row⟩, rfl, Function.update_of_ne (hother i p hp) _ _⟩
          intro q hq
          rcases List.mem_or_eq_of_mem_set hq with hq | rfl
          · exact h.pushes q hq
          · exact (hother i p hp).symm
        | false =>
          cases hs
          exact ⟨⟨herase i, h.removals, h.row⟩, rfl, rfl⟩
  | mark i =>
    unfold Teams.step at hs
    dsimp only at hs
    split at hs
    · cases hs
    · next p hp =>
      split at hs
      · cases hs
        have hrow : Function.update s.rows p.tenant ((s.rows p.tenant).map BindingRow.marked) tenant = s.rows tenant :=
          Function.update_of_ne (hother i p hp) _ _
        exact ⟨⟨herase i, h.removals, fun r hr => h.row r (hrow.symm.trans hr)⟩, hrow, rfl⟩
      · cases hs
  | crash i =>
    unfold Teams.step at hs
    dsimp only at hs
    split at hs
    · cases hs
      exact ⟨⟨herase i, h.removals, h.row⟩, rfl, rfl⟩
    · cases hs
  | delete t =>
    unfold Teams.step at hs
    dsimp only at hs
    split at hs
    · cases hs
    · cases hs
      have ht : tenant ≠ t := fun heq => ha heq.symm
      have hrow : Function.update s.rows t none tenant = s.rows tenant := Function.update_of_ne ht _ _
      refine ⟨⟨h.pushes, ?_, fun r hr => h.row r (hrow.symm.trans hr)⟩, hrow, rfl⟩
      intro hmem
      cases List.mem_append.mp hmem with
      | inl hmem => exact h.removals hmem
      | inr hmem => exact ht (List.mem_singleton.mp hmem)
  | remove i ok =>
    unfold Teams.step at hs
    dsimp only at hs
    split at hs
    · cases hs
    · next t ht =>
      have hne : tenant ≠ t := by
        rintro rfl
        exact h.removals (List.mem_of_getElem? ht)
      have hkept : tenant ∉ s.removals.eraseIdx i := fun hmem => h.removals (List.mem_of_mem_eraseIdx hmem)
      cases ok with
      | true =>
        cases hs
        exact ⟨⟨h.pushes, hkept, h.row⟩, rfl, Function.update_of_ne hne _ _⟩
      | false =>
        cases hs
        exact ⟨⟨h.pushes, hkept, h.row⟩, rfl, rfl⟩

/-- **What the edge shows of a tenant for which nothing is on its way, and which has no row or one that is marked, stays
until the next edit, whatever the sweeps do: an old copy that was put late, and a copy that was not removed.** -/
theorem never_repaired (h : Settled s tenant) {as : List Action} (ha : ∀ a ∈ as, ¬a.Edits tenant)
    (hs : run s as = some s') : s'.rows tenant = s.rows tenant ∧ s'.edge tenant = s.edge tenant := by
  induction as generalizing s with
  | nil =>
    cases hs
    exact ⟨rfl, rfl⟩
  | cons a as ih =>
    rw [run_cons] at hs
    obtain ⟨s₁, hstep, hs⟩ := Option.bind_eq_some_iff.mp hs
    obtain ⟨hsettled, hrow, hedge⟩ := h.step (ha a List.mem_cons_self) hstep
    obtain ⟨hrow', hedge'⟩ := ih hsettled (fun a' ha' => ha a' (List.mem_cons_of_mem _ ha')) hs
    exact ⟨hrow'.trans hrow, hedge'.trans hedge⟩

end Overtaken

/-- A tenant is bound, and pushed; it is switched off, which is not pushed. -/
def switchedOff : List Action :=
  [.upsert "T" ⟨"a", true, some "A"⟩ none, .put 0 true, .mark 0, .upsert "T" ⟨"a", false, none⟩ none, .put 0 false]

theorem undisturbed_switchedOff : Undisturbed noBindings switchedOff := by
  refine ⟨trivial, fun s₁ h₁ => ?_⟩
  cases h₁
  refine ⟨?_, fun s₂ h₂ => ?_⟩
  · intro p hp
    cases hp
    exact ⟨_, rfl, rfl⟩
  cases h₂
  refine ⟨?_, fun s₃ h₃ => ?_⟩
  · intro p hp
    cases hp
    exact ⟨_, rfl, rfl⟩
  cases h₃
  exact ⟨trivial, fun s₄ h₄ => ⟨trivial, fun _ _ => trivial⟩⟩

theorem mirrored_current_bound : ∃ s r, run noBindings (switchedOff.take 3) = some s ∧ s.rows "T" = some r ∧
    s.edge "T" = some r.item := by
  have hu : Undisturbed noBindings (switchedOff.take 3) := by
    refine ⟨undisturbed_switchedOff.1, fun s₁ h₁ => ?_⟩
    have h₂ := undisturbed_switchedOff.2 s₁ h₁
    exact ⟨h₂.1, fun s₂ hs₂ => ⟨(h₂.2 s₂ hs₂).1, fun _ _ => trivial⟩⟩
  exact ⟨_, _, rfl, rfl, mirrored_current hu rfl rfl rfl⟩

theorem sweep_settles_off : ∃ s r, run noBindings switchedOff = some s ∧ s.rows "T" = some r ∧
    s.edge "T" ≠ some r.item ∧ (sweepOnce (fun _ => true) ["T"] s).edge "T" = some r.item := by
  refine ⟨_, _, rfl, rfl, by decide, ((sweep_settles undisturbed_switchedOff rfl ?_).2 "T" _ rfl).2⟩
  intro tenant h
  by_cases ht : tenant = "T"
  · exact ht ▸ List.mem_singleton_self _
  · exfalso
    simp [setEdge, setRow, noBindings, Function.update_of_ne ht] at h

/-- The sweep has read the row when it is edited, and its copy is put last: the tenant is answered from the old log
space, and the row is marked. -/
def overtaken : List Action :=
  [.upsert "T" ⟨"a", true, none⟩ none, .crash 0, .read "T", .upsert "T" ⟨"b", true, none⟩ none, .put 1 true, .mark 1,
    .put 0 true, .mark 0]

theorem never_repaired_overtaken : ∃ s s', run noBindings overtaken = some s ∧
    run s [.upsert "U" ⟨"c", true, none⟩ none, .put 0 true, .mark 0] = some s' ∧
    (s'.rows "T").map (fun r => r.item.customerCode) = some "b" ∧ (s'.edge "T").map Binding.customerCode = some "a" := by
  have hrun : ∃ s s', run noBindings overtaken = some s ∧
      run s [.upsert "U" ⟨"c", true, none⟩ none, .put 0 true, .mark 0] = some s' ∧ Settled s "T" ∧
      (s.rows "T").map (fun r => r.item.customerCode) = some "b" ∧ (s.edge "T").map Binding.customerCode = some "a" := by
    refine ⟨_, _, rfl, rfl, ⟨?_, ?_, ?_⟩, rfl, rfl⟩
    · intro p hp
      cases hp
    · intro h
      cases h
    · intro r hr
      cases hr
      rfl
  obtain ⟨s, s', hs, hs', hsettled, hrow, hedge⟩ := hrun
  have hkept := never_repaired hsettled (by simp [Action.Edits]) hs'
  refine ⟨s, s', hs, hs', ?_, ?_⟩
  · rw [hkept.1]
    exact hrow
  · rw [hkept.2]
    exact hedge

end RagPipeline.Teams
