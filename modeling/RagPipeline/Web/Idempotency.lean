/-
  RagPipeline.Web.Idempotency — requests with an idempotency key, any number of them at once.

  A request under the gate first inserts its key (`insert`): the unique constraint on (customer, key) lets
  one of them claim it.  Who lost reads the row that is there (`load`) and is answered from it; who won runs
  the handler (`respond`) and then keeps the answer or drops the claim (`finish`).  Between any two of these
  the other requests go on, and a request can die.

    * `Inv`              — the row of a key is the work of one request;
    * `one_handler_run`  — the handler runs once for a key, unless an answer was not kept;
    * `replay_original`  — what is replayed is what the handler answered to the same request;
    * `settled_forever`  — a kept answer, and the claim of a request that died, stay for good.
-/
import RagPipeline.Lib.OrderedDict
import RagPipeline.Lib.OptionLoops
import Mathlib.Data.List.Infix

namespace RagPipeline.Web

open RagPipeline.Lib

/-! ## §1. The gate. -/

/-- A part of a path pattern: text as it stands, `[^/]+`, and `/?`. -/
inductive PathPart
  | text (t : String)
  | segment
  | optionalSlash
  deriving DecidableEq, Repr

/-- The pattern `^parts$` matches; `$` also stands before one last newline. -/
def pathMatches : List PathPart → List Char → Bool
  | [], rest => rest == [] || rest == ['\n']
  | .text t :: parts, path => t.toList.isPrefixOf path && pathMatches parts (path.drop t.toList.length)
  | .segment :: parts, path => (List.range path.length).any fun n =>
      (path.take (n + 1)).all (fun c => c != '/') && pathMatches parts (path.drop (n + 1))
  | .optionalSlash :: parts, path =>
      pathMatches parts path || (path.head? == some '/' && pathMatches parts path.tail)

/-- `_ALLOWLIST` -/
def allowlist : List (List PathPart) :=
  [[.text "/api/v1/logs/saved-views", .optionalSlash],
   [.text "/api/v1/logs/saved-views/", .segment, .text "/comments", .optionalSlash],
   [.text "/api/v1/logs/saved-views/", .segment, .text "/comments/", .segment, .text "/replies", .optionalSlash],
   [.text "/api/v1/logs/debug/ask", .optionalSlash]]

/-- `_allowed` -/
def allowed (path : String) : Bool := allowlist.any fun parts => pathMatches parts path.toList

/-- What the unique constraint is on. -/
structure Slot where
  customerCode : String
  idemKey : String
  deriving DecidableEq, Repr

structure Request where
  method : String
  path : String
  idempotencyKey : Option String
  customerCode : Option String
  body : List UInt8
  deriving DecidableEq, Repr

/-- The key of a request under the gate; every other request is forwarded untouched. -/
def Request.slot? (request : Request) : Option Slot :=
  if request.method ≠ "POST" || !allowed request.path then none
  else match request.idempotencyKey, request.customerCode with
    | some key, some customer => if key = "" || customer = "" then none else some ⟨customer, key⟩
    | _, _ => none

/-- The columns hold what the insert writes; else it raises, and not for the constraint. -/
def Request.fits (request : Request) (slot : Slot) : Bool :=
  slot.customerCode.length ≤ 64 && slot.idemKey.length ≤ 255 && request.path.length ≤ 512

/-! ## §2. Rows, requests and what one of them does next. -/

structure Response where
  status : ℕ
  contentType : String
  body : List UInt8
  deriving DecidableEq, Repr

inductive IdempotencyStatus
  | inProgress
  | completed
  deriving DecidableEq, Repr

/-- A row of `idempotency_keys`. -/
structure IdempotencyKey (D J : Type*) where
  requestFingerprint : D
  status : IdempotencyStatus
  responseStatus : Option ℕ
  responseBody : Option J
  deriving DecidableEq

/-- SHA-256 as text, and `json.loads(raw.decode() or "null")`. -/
structure Codec (D J : Type*) where
  digest : List UInt8 → D
  loads : List UInt8 → Option J

variable {D J : Type*}

def Codec.fingerprint (codec : Codec D J) (request : Request) : D :=
  codec.digest ((request.method ++ "|" ++ request.path ++ "|").toUTF8.data.toList ++ request.body)

/-- The answer to keep: JSON, and not a server error. -/
def Codec.cacheable? (codec : Codec D J) (response : Response) : Option J :=
  if response.status < 500 ∧ "application/json".toList <:+: response.contentType.toList then
    codec.loads response.body
  else none

/-- Where a request under the gate got its answer from. -/
inductive Answer (J : Type*)
  | own (response : Response)
  | unclaimed (response : Response)
  | replayed (status : ℕ) (body : Option J)
  | reused
  | inProgress
  deriving DecidableEq

/-- How far a request under the gate is. -/
inductive Phase (J : Type*)
  | arrived
  | refused
  | unclaimed
  | claimed
  | handled (response : Response)
  | answered (answer : Answer J)
  deriving DecidableEq

/-- A request under the gate; one that died does nothing more. -/
structure Flight (J : Type*) where
  request : Request
  slot : Slot
  phase : Phase J
  died : Bool
  deriving DecidableEq

inductive Move
  | insert
  | load
  | respond (response : Response)
  | finish
  | die
  deriving DecidableEq

/-- What a request that lost is told by the row it finds: 422, the answer again, or 409. -/
def Codec.reply (codec : Codec D J) (row : IdempotencyKey D J) (request : Request)
    [DecidableEq D] : Answer J :=
  if row.requestFingerprint ≠ codec.fingerprint request then .reused
  else match row.status, row.responseStatus with
    | .completed, some status => if status ≠ 0 then .replayed status row.responseBody else .inProgress
    | _, _ => .inProgress

/-- The row of a claim. -/
def Codec.claim (codec : Codec D J) (request : Request) : IdempotencyKey D J :=
  ⟨codec.fingerprint request, .inProgress, none, none⟩

/-- The row with the answer. -/
def IdempotencyKey.complete (row : IdempotencyKey D J) (status : ℕ) (body : J) : IdempotencyKey D J :=
  { row with status := .completed, responseStatus := some status, responseBody := some body }

/-- One transaction of a request, or the handler: the row of its key and the request after it. -/
def Codec.advance [DecidableEq D] (codec : Codec D J) (row : Option (IdempotencyKey D J)) (f : Flight J) :
    Move → Option (Option (IdempotencyKey D J) × Flight J)
  | .insert => match f.phase with
      | .arrived =>
        if !f.request.fits f.slot then some (row, { f with died := true })
        else match row with
          | none => some (some (codec.claim f.request), { f with phase := .claimed })
          | some r => some (some r, { f with phase := .refused })
      | _ => none
  | .load => match f.phase, row with
      | .refused, none => some (none, { f with phase := .unclaimed })
      | .refused, some r => some (some r, { f with phase := .answered (codec.reply r f.request) })
      | _, _ => none
  | .respond response => match f.phase with
      | .claimed => some (row, { f with phase := .handled response })
      | .unclaimed => some (row, { f with phase := .answered (.unclaimed response) })
      | _ => none
  | .finish => match f.phase with
      | .handled response =>
        let answered := { f with phase := .answered (.own response) }
        match row, codec.cacheable? response with
        | some r, some body => some (some (r.complete response.status body), answered)
        | _, _ => some (none, answered)
      | _ => none
  | .die => some (row, { f with died := true })

/-! ## §3. All requests. -/

structure State (D J : Type*) where
  rows : OrderedDict Slot (IdempotencyKey D J)
  flights : OrderedDict ℕ (Flight J)

def State.initial : State D J := ⟨.empty, .empty⟩

inductive Action
  | arrive (id : ℕ) (request : Request)
  | move (id : ℕ) (m : Move)
  deriving DecidableEq

/-- The table with this row, or none, under a key. -/
def putRow (rows : OrderedDict Slot (IdempotencyKey D J)) (slot : Slot) :
    Option (IdempotencyKey D J) → OrderedDict Slot (IdempotencyKey D J)
  | none => rows.erase slot
  | some row => rows.set slot row

variable [DecidableEq D]

/-- `dispatch`, a step of one request; `none` if it does not apply. -/
def Codec.step (codec : Codec D J) (s : State D J) : Action → Option (State D J)
  | .arrive id request => match s.flights.get? id, request.slot? with
      | some _, _ => none
      | none, none => some s
      | none, some slot => some { s with flights := s.flights.set id ⟨request, slot, .arrived, false⟩ }
  | .move id m => (s.flights.get? id).bind fun f =>
      if f.died then none
      else (codec.advance (s.rows.get? f.slot) f m).map fun next =>
        ⟨putRow s.rows f.slot next.1, s.flights.set id next.2⟩

/-- What requests have come, and how far they are, after these steps from nothing. -/
def Codec.Reachable (codec : Codec D J) (s : State D J) : Prop :=
  ∃ actions : List Action, actions.foldlM codec.step .initial = some s

/-! ## §4. What one step does. -/

/-- What `advance` can do to the row of the key and to the request. -/
inductive Advanced (codec : Codec D J) :
    Option (IdempotencyKey D J) → Flight J → Option (IdempotencyKey D J) → Flight J → Prop
  | died (row) (f : Flight J) : Advanced codec row f row { f with died := true }
  | claimed (f : Flight J) (h : f.phase = .arrived) :
      Advanced codec none f (some (codec.claim f.request)) { f with phase := .claimed }
  | refused (r) (f : Flight J) (h : f.phase = .arrived) :
      Advanced codec (some r) f (some r) { f with phase := .refused }
  | vanished (f : Flight J) (h : f.phase = .refused) :
      Advanced codec none f none { f with phase := .unclaimed }
  | replied (r) (f : Flight J) (h : f.phase = .refused) :
      Advanced codec (some r) f (some r) { f with phase := .answered (codec.reply r f.request) }
  | handled (row) (f : Flight J) (response : Response) (h : f.phase = .claimed) :
      Advanced codec row f row { f with phase := .handled response }
  | untracked (row) (f : Flight J) (response : Response) (h : f.phase = .unclaimed) :
      Advanced codec row f row { f with phase := .answered (.unclaimed response) }
  | finished (row) (f : Flight J) (response : Response) (h : f.phase = .handled response) :
      Advanced codec row f
        (row.bind fun r => (codec.cacheable? response).map (r.complete response.status))
        { f with phase := .answered (.own response) }

variable {codec : Codec D J} {s s' : State D J}

theorem advance_cases {row row' : Option (IdempotencyKey D J)} {f f' : Flight J} {m : Move}
    (h : codec.advance row f m = some (row', f')) : Advanced codec row f row' f' := by
  cases m with
  | insert =>
    simp only [Codec.advance] at h
    split at h
    · rename_i harrived
      split at h
      · obtain ⟨rfl, rfl⟩ := by simpa using h
        exact .died _ _
      · cases row with
        | none =>
          obtain ⟨rfl, rfl⟩ := by simpa using h
          exact .claimed f harrived
        | some r =>
          obtain ⟨rfl, rfl⟩ := by simpa using h
          exact .refused r f harrived
    · cases h
  | load =>
    simp only [Codec.advance] at h
    split at h
    · rename_i hrefused
      obtain ⟨rfl, rfl⟩ := by simpa using h
      exact .vanished f hrefused
    · rename_i r hrefused
      obtain ⟨rfl, rfl⟩ := by simpa using h
      exact .replied r f hrefused
    · cases h
  | respond response =>
    simp only [Codec.advance] at h
    split at h
    · rename_i hclaimed
      obtain ⟨rfl, rfl⟩ := by simpa using h
      exact .handled _ f response hclaimed
    · rename_i hunclaimed
      obtain ⟨rfl, rfl⟩ := by simpa using h
      exact .untracked _ f response hunclaimed
    · cases h
  | finish =>
    simp only [Codec.advance] at h
    split at h
    · rename_i response hhandled
      have : Advanced codec row f _ _ := .finished row f response hhandled
      cases row with
      | none =>
        obtain ⟨rfl, rfl⟩ := by simpa using h
        simpa using this
      | some r =>
        cases hc : codec.cacheable? response with
        | none =>
          obtain ⟨rfl, rfl⟩ := by simpa [hc] using h
          simpa [hc] using this
        | some body =>
          obtain ⟨rfl, rfl⟩ := by simpa [hc] using h
          simpa [hc] using this
    · cases h
  | die =>
    obtain ⟨rfl, rfl⟩ := by simpa [Codec.advance] using h
    exact .died _ _

/-- No step takes a request to another key, or to another request. -/
theorem Advanced.same {row row' : Option (IdempotencyKey D J)} {f f' : Flight J}
    (h : Advanced codec row f row' f') : f'.request = f.request ∧ f'.slot = f.slot := by
  cases h <;> exact ⟨rfl, rfl⟩

omit [DecidableEq D] in
@[simp] theorem get?_putRow_self (rows : OrderedDict Slot (IdempotencyKey D J)) (slot : Slot)
    (row : Option (IdempotencyKey D J)) : (putRow rows slot row).get? slot = row := by
  cases row with
  | none => exact rows.get?_erase_self slot
  | some r => exact rows.get?_set_self slot r

omit [DecidableEq D] in
theorem get?_putRow_ne (rows : OrderedDict Slot (IdempotencyKey D J)) {slot slot' : Slot}
    (row : Option (IdempotencyKey D J)) (h : slot' ≠ slot) :
    (putRow rows slot row).get? slot' = rows.get? slot' := by
  cases row with
  | none => exact rows.get?_erase_ne h
  | some r => exact rows.get?_set_ne r h

/-- A step leaves everything as it is, or lets a new request in, or takes one request further. -/
theorem step_cases {action : Action} (h : codec.step s action = some s') :
    s' = s ∨
    (∃ id request slot, s.flights.get? id = none ∧ request.slot? = some slot ∧
      s' = { s with flights := s.flights.set id ⟨request, slot, .arrived, false⟩ }) ∨
    (∃ id f row f', s.flights.get? id = some f ∧ f.died = false ∧
      Advanced codec (s.rows.get? f.slot) f row f' ∧
      s' = ⟨putRow s.rows f.slot row, s.flights.set id f'⟩) := by
  cases action with
  | arrive id request =>
    simp only [Codec.step] at h
    split at h
    · cases h
    · exact .inl (by simpa using h.symm)
    · rename_i slot hid hslot
      exact .inr (.inl ⟨id, request, slot, hid, hslot, by simpa using h.symm⟩)
  | move id m =>
    obtain ⟨f, hf, h⟩ := Option.bind_eq_some_iff.mp h
    split at h
    · cases h
    · rename_i halive
      obtain ⟨⟨row, f'⟩, hadvance, rfl⟩ := Option.map_eq_some_iff.mp h
      exact .inr (.inr ⟨id, f, row, f', hf, by simpa using halive, advance_cases hadvance, rfl⟩)

/-! ## §5. The row of a key is the work of one request. -/

/-- The row a request is behind: its claim, then the answer it kept. -/
def Codec.owned (codec : Codec D J) (f : Flight J) : Option (IdempotencyKey D J) :=
  match f.phase with
  | .claimed | .handled _ => some (codec.claim f.request)
  | .answered (.own response) =>
    (codec.cacheable? response).map ((codec.claim f.request).complete response.status)
  | _ => none

/-- A request under the claim was answered, and the answer was not kept. -/
def Codec.Dropped (codec : Codec D J) (s : State D J) (slot : Slot) : Prop :=
  ∃ (id : ℕ) (f : Flight J) (response : Response), s.flights.get? id = some f ∧ f.slot = slot ∧
    f.phase = .answered (.own response) ∧ codec.cacheable? response = none

/-- The handler answered this to a request, and it was kept. -/
def Codec.Kept (codec : Codec D J) (s : State D J) (slot : Slot) (fingerprint : D) (status : ℕ) (body : J) :
    Prop :=
  ∃ (id : ℕ) (f : Flight J) (response : Response), s.flights.get? id = some f ∧ f.slot = slot ∧
    codec.fingerprint f.request = fingerprint ∧ f.phase = .answered (.own response) ∧
    codec.cacheable? response = some body ∧ response.status = status

/-- Rows and requests belong together. -/
structure Owners (codec : Codec D J) (s : State D J) : Prop where
  row : ∀ (id : ℕ) (f : Flight J) (r : IdempotencyKey D J), s.flights.get? id = some f →
    codec.owned f = some r → s.rows.get? f.slot = some r
  owner : ∀ (slot : Slot) (r : IdempotencyKey D J), s.rows.get? slot = some r →
    ∃ (id : ℕ) (f : Flight J), s.flights.get? id = some f ∧ f.slot = slot ∧ codec.owned f = some r
  alone : ∀ (id id' : ℕ) (f f' : Flight J), s.flights.get? id = some f → s.flights.get? id' = some f' →
    f.slot = f'.slot → (codec.owned f).isSome → (codec.owned f').isSome → id = id'

/-- What the requests were told, and why. -/
structure Told (codec : Codec D J) (s : State D J) : Prop where
  refused : ∀ (id : ℕ) (f : Flight J), s.flights.get? id = some f → f.phase = .refused →
    (s.rows.get? f.slot).isSome ∨ codec.Dropped s f.slot
  unclaimed : ∀ (id : ℕ) (f : Flight J), s.flights.get? id = some f →
    (f.phase = .unclaimed ∨ ∃ response, f.phase = .answered (.unclaimed response)) → codec.Dropped s f.slot
  replayed : ∀ (id : ℕ) (f : Flight J) (status : ℕ) (body : Option J), s.flights.get? id = some f →
    f.phase = .answered (.replayed status body) →
    ∃ b, body = some b ∧ codec.Kept s f.slot (codec.fingerprint f.request) status b

/-- What a request that lost is told. -/
theorem reply_cases (codec : Codec D J) (r : IdempotencyKey D J) (request : Request) :
    codec.reply r request = .reused ∨ codec.reply r request = .inProgress ∨
    ∃ status, codec.reply r request = .replayed status r.responseBody ∧
      r.requestFingerprint = codec.fingerprint request ∧ r.status = .completed ∧
      r.responseStatus = some status := by
  unfold Codec.reply
  split
  · exact .inl rfl
  · rename_i hsame
    split
    · rename_i status hstatus hresponse
      split
      · exact .inr (.inr ⟨status, rfl, by simpa using hsame, hstatus, hresponse⟩)
      · exact .inr (.inl rfl)
    · exact .inr (.inl rfl)

/-- A request that lost is behind no row. -/
theorem owned_replied (r : IdempotencyKey D J) (f : Flight J) :
    codec.owned { f with phase := .answered (codec.reply r f.request) } = none := by
  obtain h | h | ⟨status, h, -⟩ := reply_cases codec r f.request <;> simp [Codec.owned, h]

/-- What a step makes of a request: it is behind the same row as before, or it changed the row. -/
theorem Advanced.owned {row row' : Option (IdempotencyKey D J)} {f f' : Flight J}
    (h : Advanced codec row f row' f') (hrow : ∀ r, codec.owned f = some r → row = some r) :
    (row' = row ∧ codec.owned f' = codec.owned f) ∨ (row = codec.owned f ∧ row' = codec.owned f') := by
  cases h with
  | died => exact .inl ⟨rfl, rfl⟩
  | claimed _ h => exact .inr ⟨by simp [Codec.owned, h], rfl⟩
  | refused _ _ h => exact .inl ⟨rfl, by simp [Codec.owned, h]⟩
  | vanished _ h => exact .inl ⟨rfl, by simp [Codec.owned, h]⟩
  | replied r _ h => exact .inl ⟨rfl, by rw [owned_replied]; simp [Codec.owned, h]⟩
  | handled _ _ _ h => exact .inl ⟨rfl, by simp [Codec.owned, h]⟩
  | untracked _ _ _ h => exact .inl ⟨rfl, by simp [Codec.owned, h]⟩
  | finished _ _ response h =>
    have howned : codec.owned f = some (codec.claim f.request) := by simp [Codec.owned, h]
    rw [hrow _ howned]
    exact .inr ⟨howned.symm, by simp [Codec.owned]⟩

/-- A request that was answered stays so. -/
theorem Advanced.answered {row row' : Option (IdempotencyKey D J)} {f f' : Flight J}
    (h : Advanced codec row f row' f') {answer : Answer J} (ha : f.phase = .answered answer) :
    f'.phase = .answered answer := by
  cases h <;> simp_all

/-- A row goes only with an answer that is not kept. -/
theorem Advanced.row_isSome {row row' : Option (IdempotencyKey D J)} {f f' : Flight J}
    (h : Advanced codec row f row' f') (hrow : row.isSome) :
    row'.isSome ∨ ∃ response, f'.phase = .answered (.own response) ∧ codec.cacheable? response = none := by
  cases h with
  | finished _ _ response h =>
    obtain ⟨r, rfl⟩ := Option.isSome_iff_exists.mp hrow
    cases hc : codec.cacheable? response with
    | none => exact .inr ⟨response, rfl, hc⟩
    | some body => exact .inl (by simp)
  | claimed => exact .inl rfl
  | vanished => cases hrow
  | died | refused | replied | handled | untracked => exact .inl hrow

omit [DecidableEq D] in
/-- A row with an answer is that of a request whose answer it is. -/
theorem owned_completed {f : Flight J} {r : IdempotencyKey D J} (h : codec.owned f = some r)
    (hr : r.status = .completed) :
    ∃ response body, f.phase = .answered (.own response) ∧ codec.cacheable? response = some body ∧
      r = (codec.claim f.request).complete response.status body := by
  unfold Codec.owned at h
  split at h
  · obtain rfl := Option.some.inj h
    cases hr
  · obtain rfl := Option.some.inj h
    cases hr
  · rename_i response hphase
    obtain ⟨body, hbody, rfl⟩ := Option.map_eq_some_iff.mp h
    exact ⟨response, body, hphase, hbody, rfl⟩
  · cases h

omit [DecidableEq D] in
theorem flight_cases {d : OrderedDict ℕ (Flight J)} {id id' : ℕ} {f g : Flight J}
    (h : (d.set id f).get? id' = some g) : (id' = id ∧ g = f) ∨ (id' ≠ id ∧ d.get? id' = some g) := by
  by_cases hid : id' = id
  · subst hid
    rw [d.get?_set_self] at h
    exact .inl ⟨rfl, (Option.some.inj h).symm⟩
  · rw [d.get?_set_ne f hid] at h
    exact .inr ⟨hid, h⟩

section OneStep

variable {id : ℕ} {f f' : Flight J} {row : Option (IdempotencyKey D J)}

theorem Owners.advance (hinv : Owners codec s) (hf : s.flights.get? id = some f)
    (h : Advanced codec (s.rows.get? f.slot) f row f') :
    Owners codec ⟨putRow s.rows f.slot row, s.flights.set id f'⟩ := by
  have howned := h.owned (hinv.row id f · hf)
  -- another request of this key is behind no row that this one is behind
  have hother : ∀ id' g, id' ≠ id → s.flights.get? id' = some g → g.slot = f.slot →
      (codec.owned g).isSome → s.rows.get? f.slot ≠ codec.owned f := by
    intro id' g hne hg hslot hsome heq
    obtain ⟨r, hr⟩ := Option.isSome_iff_exists.mp hsome
    have hrow := hinv.row id' g r hg hr
    rw [hslot, heq] at hrow
    exact hne (hinv.alone id' id g f hg hf hslot hsome (by simp [hrow]))
  refine ⟨?_, ?_, ?_⟩
  · intro id' g r hg hr
    obtain ⟨-, rfl⟩ | ⟨hne, hg₀⟩ := flight_cases hg
    · rw [h.same.2, get?_putRow_self]
      obtain ⟨rfl, hsame⟩ | ⟨-, rfl⟩ := howned
      · exact hinv.row id f r hf (hsame ▸ hr)
      · exact hr
    · by_cases hslot : g.slot = f.slot
      · rw [hslot, get?_putRow_self]
        obtain ⟨rfl, -⟩ | ⟨heq, -⟩ := howned
        · exact hslot ▸ hinv.row id' g r hg₀ hr
        · exact absurd heq (hother id' g hne hg₀ hslot (by simp [hr]))
      · rw [get?_putRow_ne _ _ hslot]
        exact hinv.row id' g r hg₀ hr
  · intro slot r hr
    by_cases hslot : slot = f.slot
    · subst hslot
      rw [get?_putRow_self] at hr
      subst hr
      obtain ⟨heq, hsame⟩ | ⟨-, heq⟩ := howned
      · obtain ⟨id₀, g, hg, hgslot, hgr⟩ := hinv.owner f.slot r heq.symm
        by_cases hid : id₀ = id
        · subst hid
          obtain rfl := Option.some.inj (hf.symm.trans hg)
          exact ⟨id₀, f', s.flights.get?_set_self id₀ f', h.same.2, hsame.trans hgr⟩
        · exact ⟨id₀, g, (s.flights.get?_set_ne f' hid).trans hg, hgslot, hgr⟩
      · exact ⟨id, f', s.flights.get?_set_self id f', h.same.2, heq.symm⟩
    · rw [get?_putRow_ne _ _ hslot] at hr
      obtain ⟨id₀, g, hg, hgslot, hgr⟩ := hinv.owner slot r hr
      have hid : id₀ ≠ id := by
        rintro rfl
        obtain rfl := Option.some.inj (hf.symm.trans hg)
        exact hslot hgslot.symm
      exact ⟨id₀, g, (s.flights.get?_set_ne f' hid).trans hg, hgslot, hgr⟩
  · intro id₁ id₂ g₁ g₂ h₁ h₂ hslot hsome₁ hsome₂
    -- this request and another one
    have hpair : ∀ id' g, id' ≠ id → s.flights.get? id' = some g → g.slot = f'.slot →
        (codec.owned f').isSome → (codec.owned g).isSome → False := by
      intro id' g hne hg hgslot hsome hgsome
      rw [h.same.2] at hgslot
      obtain ⟨-, hsame⟩ | ⟨heq, -⟩ := howned
      · exact hne (hinv.alone id' id g f hg hf hgslot hgsome (hsame ▸ hsome))
      · exact hother id' g hne hg hgslot hgsome heq
    obtain ⟨rfl, rfl⟩ | ⟨hne₁, hg₁⟩ := flight_cases h₁
    · obtain ⟨rfl, rfl⟩ | ⟨hne₂, hg₂⟩ := flight_cases h₂
      · rfl
      · exact (hpair id₂ g₂ hne₂ hg₂ hslot.symm hsome₁ hsome₂).elim
    · obtain ⟨rfl, rfl⟩ | ⟨hne₂, hg₂⟩ := flight_cases h₂
      · exact (hpair id₁ g₁ hne₁ hg₁ hslot hsome₂ hsome₁).elim
      · exact hinv.alone id₁ id₂ g₁ g₂ hg₁ hg₂ hslot hsome₁ hsome₂

omit [DecidableEq D] in
/-- A request that is answered is found again after the step of any request. -/
theorem find_answered (hf : s.flights.get? id = some f)
    (hkeep : ∀ answer, f.phase = .answered answer → f'.phase = .answered answer)
    (hsame : f'.request = f.request ∧ f'.slot = f.slot) {id' : ℕ} {g : Flight J} {answer : Answer J}
    (hg : s.flights.get? id' = some g) (ha : g.phase = .answered answer) :
    ∃ g', (s.flights.set id f').get? id' = some g' ∧ g'.request = g.request ∧ g'.slot = g.slot ∧
      g'.phase = .answered answer := by
  by_cases hid : id' = id
  · subst hid
    obtain rfl := Option.some.inj (hf.symm.trans hg)
    exact ⟨f', s.flights.get?_set_self id' f', hsame.1, hsame.2, hkeep answer ha⟩
  · exact ⟨g, (s.flights.get?_set_ne f' hid).trans hg, rfl, rfl, ha⟩

theorem Told.advance (hinv : Told codec s) (hown : Owners codec s) (hf : s.flights.get? id = some f)
    (h : Advanced codec (s.rows.get? f.slot) f row f') :
    Told codec ⟨putRow s.rows f.slot row, s.flights.set id f'⟩ := by
  have hdropped : ∀ slot, codec.Dropped s slot →
      codec.Dropped ⟨putRow s.rows f.slot row, s.flights.set id f'⟩ slot := by
    rintro slot ⟨id₀, g, response, hg, hslot, hphase, hc⟩
    obtain ⟨g', hg', -, hslot', hphase'⟩ := find_answered hf (fun _ => h.answered) h.same hg hphase
    exact ⟨id₀, g', response, hg', hslot'.trans hslot, hphase', hc⟩
  have hkept : ∀ slot d status body, codec.Kept s slot d status body →
      codec.Kept ⟨putRow s.rows f.slot row, s.flights.set id f'⟩ slot d status body := by
    rintro slot d status body ⟨id₀, g, response, hg, hslot, hd, hphase, hc, hstatus⟩
    obtain ⟨g', hg', hrequest', hslot', hphase'⟩ :=
      find_answered hf (fun _ => h.answered) h.same hg hphase
    exact ⟨id₀, g', response, hg', hslot'.trans hslot, by rw [hrequest', hd], hphase', hc, hstatus⟩
  refine ⟨?_, ?_, ?_⟩
  · intro id' g hg hphase
    obtain ⟨-, rfl⟩ | ⟨-, hg₀⟩ := flight_cases hg
    · rw [h.same.2, get?_putRow_self]
      generalize hrow : s.rows.get? f.slot = row₀ at h
      cases h with
      | died => exact (hinv.refused id f hf hphase).imp (hrow ▸ ·) (hdropped f.slot)
      | refused => exact .inl rfl
      | claimed | vanished | replied | handled | untracked | finished => cases hphase
    · obtain hthere | hgone := hinv.refused id' g hg₀ hphase
      · by_cases hslot : g.slot = f.slot
        · rw [hslot] at hthere ⊢
          rw [get?_putRow_self]
          refine (h.row_isSome hthere).imp_right fun ⟨response, hown', hc⟩ => ?_
          exact ⟨id, f', response, s.flights.get?_set_self id f', h.same.2, hown', hc⟩
        · rw [get?_putRow_ne _ _ hslot]
          exact .inl hthere
      · exact .inr (hdropped _ hgone)
  · intro id' g hg hphase
    obtain ⟨-, rfl⟩ | ⟨-, hg₀⟩ := flight_cases hg
    · rw [h.same.2]
      refine hdropped _ ?_
      generalize hrow : s.rows.get? f.slot = row₀ at h
      cases h with
      | died => exact hinv.unclaimed id f hf hphase
      | vanished _ hrefused => exact (hinv.refused id f hf hrefused).resolve_left (by simp [hrow])
      | untracked _ _ _ hun => exact hinv.unclaimed id f hf (.inl hun)
      | replied r =>
        obtain hr | hr | ⟨status, hr, -⟩ := reply_cases codec r f.request <;> simp [hr] at hphase
      | claimed | refused | handled | finished => simp at hphase
    · exact hdropped _ (hinv.unclaimed id' g hg₀ hphase)
  · intro id' g status body hg hphase
    obtain ⟨-, rfl⟩ | ⟨-, hg₀⟩ := flight_cases hg
    · rw [h.same.1, h.same.2]
      suffices ∃ b, body = some b ∧ codec.Kept s f.slot (codec.fingerprint f.request) status b from
        this.imp fun b hb => ⟨hb.1, hkept _ _ _ _ hb.2⟩
      generalize hrow : s.rows.get? f.slot = row₀ at h
      cases h with
      | died => exact hinv.replayed id f status body hf hphase
      | replied r =>
        obtain hr | hr | ⟨status', hr, hfingerprint, hcompleted, hresponse⟩ :=
          reply_cases codec r f.request <;> simp only [hr, Phase.answered.injEq] at hphase
        · cases hphase
        · cases hphase
        · obtain ⟨rfl, rfl⟩ := Answer.replayed.inj hphase
          obtain ⟨id₀, g, hg₁, hslot, howned⟩ := hown.owner f.slot r hrow
          obtain ⟨response, body, hg', hc, rfl⟩ := owned_completed howned hcompleted
          refine ⟨body, rfl, id₀, g, response, hg₁, hslot, hfingerprint, hg', hc, ?_⟩
          exact Option.some.inj hresponse
      | claimed | refused | vanished | handled | untracked | finished => cases hphase
    · obtain ⟨b, hb, hk⟩ := hinv.replayed id' g status body hg₀ hphase
      exact ⟨b, hb, hkept _ _ _ _ hk⟩

end OneStep

section Arrival

variable {id : ℕ} {request : Request} {slot : Slot}

omit [DecidableEq D] in
/-- A request that comes is behind no row. -/
theorem Owners.arrive (hinv : Owners codec s) (hid : s.flights.get? id = none) :
    Owners codec { s with flights := s.flights.set id ⟨request, slot, .arrived, false⟩ } := by
  refine ⟨?_, ?_, ?_⟩
  · intro id' g r hg hr
    obtain ⟨-, rfl⟩ | ⟨-, hg₀⟩ := flight_cases hg
    · cases hr
    · exact hinv.row id' g r hg₀ hr
  · intro slot r hr
    obtain ⟨id₀, g, hg, hslot, hgr⟩ := hinv.owner slot r hr
    have hne : id₀ ≠ id := by
      rintro rfl
      rw [hid] at hg
      cases hg
    exact ⟨id₀, g, (s.flights.get?_set_ne _ hne).trans hg, hslot, hgr⟩
  · intro id₁ id₂ g₁ g₂ h₁ h₂ hslot hsome₁ hsome₂
    obtain ⟨rfl, rfl⟩ | ⟨-, hg₁⟩ := flight_cases h₁
    · cases hsome₁
    · obtain ⟨rfl, rfl⟩ | ⟨-, hg₂⟩ := flight_cases h₂
      · cases hsome₂
      · exact hinv.alone id₁ id₂ g₁ g₂ hg₁ hg₂ hslot hsome₁ hsome₂

omit [DecidableEq D] in
theorem Told.arrive (hinv : Told codec s) (hid : s.flights.get? id = none) :
    Told codec { s with flights := s.flights.set id ⟨request, slot, .arrived, false⟩ } := by
  have hfind : ∀ id₀ g, s.flights.get? id₀ = some g →
      (s.flights.set id ⟨request, slot, .arrived, false⟩).get? id₀ = some g := by
    intro id₀ g hg
    have hne : id₀ ≠ id := by
      rintro rfl
      rw [hid] at hg
      cases hg
    exact (s.flights.get?_set_ne _ hne).trans hg
  have hdropped : ∀ slot', codec.Dropped s slot' →
      codec.Dropped { s with flights := s.flights.set id ⟨request, slot, .arrived, false⟩ } slot' :=
    fun _ ⟨id₀, g, response, hg, h⟩ => ⟨id₀, g, response, hfind id₀ g hg, h⟩
  refine ⟨?_, ?_, ?_⟩
  · intro id' g hg hphase
    obtain ⟨-, rfl⟩ | ⟨-, hg₀⟩ := flight_cases hg
    · cases hphase
    · exact (hinv.refused id' g hg₀ hphase).imp_right (hdropped _)
  · intro id' g hg hphase
    obtain ⟨-, rfl⟩ | ⟨-, hg₀⟩ := flight_cases hg
    · simp at hphase
    · exact hdropped _ (hinv.unclaimed id' g hg₀ hphase)
  · intro id' g status body hg hphase
    obtain ⟨-, rfl⟩ | ⟨-, hg₀⟩ := flight_cases hg
    · cases hphase
    · obtain ⟨b, hb, id₀, g₀, response, hg₁, hkept⟩ := hinv.replayed id' g status body hg₀ hphase
      exact ⟨b, hb, id₀, g₀, response, hfind id₀ g₀ hg₁, hkept⟩

end Arrival

theorem Owners.step {action : Action} (hinv : Owners codec s) (h : codec.step s action = some s') :
    Owners codec s' := by
  obtain rfl | ⟨id, request, slot, hid, -, rfl⟩ | ⟨id, f, row, f', hf, -, hadvance, rfl⟩ := step_cases h
  · exact hinv
  · exact hinv.arrive hid
  · exact hinv.advance hf hadvance

theorem Told.step {action : Action} (hinv : Told codec s) (hown : Owners codec s)
    (h : codec.step s action = some s') : Told codec s' := by
  obtain rfl | ⟨id, request, slot, hid, -, rfl⟩ | ⟨id, f, row, f', hf, -, hadvance, rfl⟩ := step_cases h
  · exact hinv
  · exact hinv.arrive hid
  · exact hinv.advance hown hf hadvance

omit [DecidableEq D] in
theorem inv_initial : Owners codec .initial ∧ Told codec .initial := by
  refine ⟨⟨?_, ?_, ?_⟩, ?_, ?_, ?_⟩ <;> intros <;> simp_all [State.initial]

/-- Every state that is reached. -/
theorem inv_reachable (h : codec.Reachable s) : Owners codec s ∧ Told codec s := by
  obtain ⟨actions, hrun⟩ := h
  refine foldlM_induct (P := fun s => Owners codec s ∧ Told codec s) ?_ actions inv_initial hrun
  intro t action t' hinv hstep
  exact ⟨hinv.1.step hstep, hinv.2.step hinv.1 hstep⟩

/-! ## §6. Keys that are used twice. -/

/-- Bodies as they are, and a fingerprint of the whole request. -/
def plainCodec : Codec (List UInt8) (List UInt8) := ⟨fun bytes => bytes, some⟩

def createView : Request := ⟨"POST", "/api/v1/logs/saved-views", some "k", some "acme", [1]⟩

/-- What these actions lead to from nothing; nothing, if one of them does not apply. -/
def Codec.after (codec : Codec D J) (actions : List Action) : State D J :=
  (actions.foldlM codec.step .initial).getD .initial

theorem reachable_after (actions : List Action) : codec.Reachable (codec.after actions) := by
  unfold Codec.after
  cases h : actions.foldlM codec.step .initial with
  | none => exact ⟨[], rfl⟩
  | some s => exact ⟨actions, h⟩

/-- The server fails on the first request after the second one has lost against it. -/
def overtaken : List Action :=
  [.arrive 1 createView, .move 1 .insert, .arrive 2 createView, .move 2 .insert,
   .move 1 (.respond ⟨500, "application/json", []⟩), .move 1 .finish, .move 2 .load]

def repeated : List Action :=
  [.arrive 1 createView, .move 1 .insert, .move 1 (.respond ⟨200, "application/json", [7]⟩), .move 1 .finish,
   .arrive 2 createView, .move 2 .insert, .move 2 .load]

def died : List Action := [.arrive 1 createView, .move 1 .insert, .move 1 .die]

def again : List Action := [.arrive 2 createView, .move 2 .insert, .move 2 .load]

/-! ## §7. What clients can rely on. -/

/-- The handler has been started for the request. -/
def Phase.started : Phase J → Bool
  | .unclaimed | .claimed | .handled _ | .answered (.own _) | .answered (.unclaimed _) => true
  | _ => false

/-- The request holds the claim, and its answer has not been kept or dropped yet. -/
def Phase.holds : Phase J → Bool
  | .claimed | .handled _ => true
  | _ => false

omit [DecidableEq D] in
theorem owned_of_holds {f : Flight J} (h : f.phase.holds = true) :
    codec.owned f = some (codec.claim f.request) := by
  unfold Phase.holds at h
  split at h
  · simp [Codec.owned, *]
  · simp [Codec.owned, *]
  · cases h

omit [DecidableEq D] in
/-- A request whose handler was started is behind the row, or answered without one. -/
theorem Told.started (hinv : Told codec s) {id : ℕ} {f : Flight J} (hf : s.flights.get? id = some f)
    (h : f.phase.started = true) : (codec.owned f).isSome ∨ codec.Dropped s f.slot := by
  unfold Phase.started at h
  split at h
  · exact .inr (hinv.unclaimed id f hf (.inl ‹_›))
  · exact .inl (by simp [Codec.owned, *])
  · exact .inl (by simp [Codec.owned, *])
  · rename_i response hphase
    cases hc : codec.cacheable? response with
    | none => exact .inr ⟨id, f, response, hf, rfl, hphase, hc⟩
    | some body => exact .inl (by simp [Codec.owned, hphase, hc])
  · exact .inr (hinv.unclaimed id f hf (.inr ⟨_, ‹_›⟩))
  · cases h

/-- **Never two requests hold the claim of a key, and the handler is started for two of them only after an
    answer to a third, or to one of them, was not kept.** -/
theorem one_handler_run (h : codec.Reachable s) {id id' : ℕ} {f f' : Flight J}
    (hf : s.flights.get? id = some f) (hf' : s.flights.get? id' = some f') (hslot : f'.slot = f.slot)
    (hne : id' ≠ id) :
    ¬(f.phase.holds = true ∧ f'.phase.holds = true) ∧
      (f.phase.started = true → f'.phase.started = true → codec.Dropped s f.slot) := by
  obtain ⟨hown, htold⟩ := inv_reachable h
  refine ⟨fun ⟨hholds, hholds'⟩ => ?_, fun hstarted hstarted' => ?_⟩
  · exact hne (hown.alone id' id f' f hf' hf hslot (by simp [owned_of_holds hholds'])
      (by simp [owned_of_holds hholds]))
  · obtain hsome | hdropped := htold.started hf hstarted
    · obtain hsome' | hdropped := htold.started hf' hstarted'
      · exact absurd (hown.alone id' id f' f hf' hf hslot hsome' hsome) hne
      · exact hslot ▸ hdropped
    · exact hdropped

/-- The first request is answered with an error, and the handler runs for the second one without a claim. -/
theorem one_handler_run_overtaken : plainCodec.Dropped (plainCodec.after overtaken) ⟨"acme", "k"⟩ :=
  (@one_handler_run _ _ _ plainCodec (plainCodec.after overtaken) (reachable_after overtaken) 1 2
    ⟨createView, ⟨"acme", "k"⟩, .answered (.own ⟨500, "application/json", []⟩), false⟩
    ⟨createView, ⟨"acme", "k"⟩, .unclaimed, false⟩ rfl rfl rfl (by decide)).2 rfl rfl

/-- **What is replayed is the answer of the handler to the same request under the same key, and no server
    error.** -/
theorem replay_original (h : codec.Reachable s) {id : ℕ} {f : Flight J} {status : ℕ} {body : Option J}
    (hf : s.flights.get? id = some f) (hphase : f.phase = .answered (.replayed status body)) :
    ∃ (id' : ℕ) (f' : Flight J) (response : Response), s.flights.get? id' = some f' ∧ f'.slot = f.slot ∧
      codec.fingerprint f'.request = codec.fingerprint f.request ∧
      f'.phase = .answered (.own response) ∧ response.status = status ∧ status < 500 ∧
      codec.loads response.body = body := by
  obtain ⟨b, rfl, id', f', response, hf', hslot, hd, hown, hc, hstatus⟩ :=
    (inv_reachable h).2.replayed id f status body hf hphase
  refine ⟨id', f', response, hf', hslot, hd, hown, hstatus, ?_⟩
  unfold Codec.cacheable? at hc
  split at hc
  · rename_i hjson
    exact ⟨hstatus ▸ hjson.1, hc⟩
  · cases hc

/-- A request that is sent again. -/
theorem replay_original_again : ∃ (id' : ℕ) (f' : Flight (List UInt8)) (response : Response),
    (plainCodec.after repeated).flights.get? id' = some f' ∧ f'.slot = ⟨"acme", "k"⟩ ∧
      plainCodec.fingerprint f'.request = plainCodec.fingerprint createView ∧
      f'.phase = .answered (.own response) ∧ response.status = 200 ∧ 200 < 500 ∧
      plainCodec.loads response.body = some [7] :=
  @replay_original _ _ _ plainCodec (plainCodec.after repeated) (reachable_after repeated) 2
    ⟨createView, ⟨"acme", "k"⟩, .answered (.replayed 200 (some [7])), false⟩ 200 (some [7]) rfl rfl

/-- Nothing will change the row: it has an answer, or the request that holds its claim has died. -/
def Codec.Settled (_ : Codec D J) (s : State D J) (slot : Slot) (row : IdempotencyKey D J) : Prop :=
  s.rows.get? slot = some row ∧ (row.status = .completed ∨
    ∃ (id : ℕ) (f : Flight J), s.flights.get? id = some f ∧ f.slot = slot ∧ f.died = true ∧
      f.phase.holds = true)

/-- A request that has not got past the row yet, or has been answered from it. -/
def Codec.Late (codec : Codec D J) (row : IdempotencyKey D J) (f : Flight J) : Prop :=
  f.phase = .arrived ∨ f.phase = .refused ∨ f.phase = .answered (codec.reply row f.request)

section Settling

variable {id : ℕ} {f f' : Flight J} {slot : Slot} {row : IdempotencyKey D J}
  {row' : Option (IdempotencyKey D J)}

/-- A step leaves a settled row alone. -/
theorem Codec.Settled.row_eq (hs : codec.Settled s slot row) (hinv : Owners codec s)
    (hf : s.flights.get? id = some f) (hslot : f.slot = slot) (halive : f.died = false)
    (h : Advanced codec (some row) f row' f') : row' = some row := by
  cases h with
  | died | refused | replied | handled | untracked => rfl
  | finished _ _ response hphase =>
    exfalso
    have howned : codec.owned f = some (codec.claim f.request) := by simp [Codec.owned, hphase]
    have hrow := hinv.row id f _ hf howned
    rw [hslot, hs.1] at hrow
    obtain hcompleted | ⟨id₀, g, hg, hgslot, hdied, hholds⟩ := hs.2
    · obtain rfl := Option.some.inj hrow
      cases hcompleted
    · obtain rfl := hinv.alone id₀ id g f hg hf (hgslot.trans hslot.symm)
        (by simp [owned_of_holds hholds]) (by simp [howned])
      obtain rfl := Option.some.inj (hg.symm.trans hf)
      simp [hdied] at halive

theorem Codec.Settled.advance (hs : codec.Settled s slot row) (hinv : Owners codec s)
    (hf : s.flights.get? id = some f) (halive : f.died = false)
    (h : Advanced codec (s.rows.get? f.slot) f row' f') :
    codec.Settled ⟨putRow s.rows f.slot row', s.flights.set id f'⟩ slot row := by
  refine ⟨?_, hs.2.imp_right fun ⟨id₀, g, hg, hgslot, hdied, hholds⟩ => ?_⟩
  · by_cases hslot : slot = f.slot
    · subst hslot
      rw [get?_putRow_self]
      rw [hs.1] at h
      exact hs.row_eq hinv hf rfl halive h
    · rw [get?_putRow_ne _ _ hslot]
      exact hs.1
  · have hne : id₀ ≠ id := by
      rintro rfl
      obtain rfl := Option.some.inj (hg.symm.trans hf)
      simp [hdied] at halive
    exact ⟨id₀, g, (s.flights.get?_set_ne f' hne).trans hg, hgslot, hdied, hholds⟩

omit [DecidableEq D] in
theorem Codec.Settled.arrive (hs : codec.Settled s slot row) (hid : s.flights.get? id = none) :
    codec.Settled { s with flights := s.flights.set id f } slot row := by
  refine ⟨hs.1, hs.2.imp_right fun ⟨id₀, g, hg, hrest⟩ => ⟨id₀, g, ?_, hrest⟩⟩
  have hne : id₀ ≠ id := by
    rintro rfl
    simp [hid] at hg
  exact (s.flights.get?_set_ne _ hne).trans hg

theorem Codec.Late.advance (hs : codec.Settled s slot row) (hslot : f.slot = slot) (hlate : codec.Late row f)
    (h : Advanced codec (s.rows.get? f.slot) f row' f') : codec.Late row f' := by
  rw [hslot, hs.1] at h
  cases h with
  | died => exact hlate
  | refused => exact .inr (.inl rfl)
  | replied => exact .inr (.inr rfl)
  | handled _ _ _ hphase | untracked _ _ _ hphase | finished _ _ _ hphase =>
    obtain ha | ha | ha := hlate
    · simp [ha] at hphase
    · simp [ha] at hphase
    · simp [ha] at hphase

end Settling

/-- **A kept answer, and the claim of a request that died, stay for good: every request with the key that has
    not looked at the row yet is told what the row says, and its handler is never started.** -/
theorem settled_forever (h : codec.Reachable s) {slot : Slot} {row : IdempotencyKey D J}
    (hs : codec.Settled s slot row) {actions : List Action} (hrun : actions.foldlM codec.step s = some s') :
    s'.rows.get? slot = some row ∧
    ∀ (id : ℕ) (f' : Flight J), s'.flights.get? id = some f' → f'.slot = slot →
      (∀ f ∈ s.flights.get? id, f.phase = .arrived ∨ f.phase = .refused) → codec.Late row f' := by
  have hstep := foldlM_induct (P := fun t => Owners codec t ∧ codec.Settled t slot row ∧
    ∀ (id : ℕ) (f' : Flight J), t.flights.get? id = some f' → f'.slot = slot →
      (∀ f ∈ s.flights.get? id, f.phase = .arrived ∨ f.phase = .refused) → codec.Late row f')
    ?_ actions ⟨(inv_reachable h).1, hs, ?_⟩ hrun
  · exact ⟨hstep.2.1.1, hstep.2.2⟩
  · rintro t action t' ⟨hown, hsettled, hlate⟩ hstep
    refine ⟨hown.step hstep, ?_⟩
    obtain rfl | ⟨id, request, slot', hid, -, rfl⟩ | ⟨id, f, row', f', hf, halive, hadvance, rfl⟩ :=
      step_cases hstep
    · exact ⟨hsettled, hlate⟩
    · refine ⟨hsettled.arrive hid, fun id' g hg hslot hbefore => ?_⟩
      obtain ⟨-, rfl⟩ | ⟨-, hg₀⟩ := flight_cases hg
      · exact .inl rfl
      · exact hlate id' g hg₀ hslot hbefore
    · refine ⟨hsettled.advance hown hf halive hadvance, ?_⟩
      intro id' g hg hslot hbefore
      obtain ⟨rfl, rfl⟩ | ⟨-, hg₀⟩ := flight_cases hg
      · have hfslot := hadvance.same.2.symm.trans hslot
        exact Codec.Late.advance hsettled hfslot (hlate id' f hf hfslot hbefore) hadvance
      · exact hlate id' g hg₀ hslot hbefore
  · intro id f' hf' hslot hbefore
    exact (hbefore f' hf').imp_right .inl

/-- A request that comes after the first one has died. -/
theorem settled_forever_died : (plainCodec.after (died ++ again)).rows.get? ⟨"acme", "k"⟩ =
    some (plainCodec.claim createView) :=
  (@settled_forever _ _ _ plainCodec (plainCodec.after died) (plainCodec.after (died ++ again))
    (reachable_after died) ⟨"acme", "k"⟩ (plainCodec.claim createView)
    ⟨rfl, .inr ⟨1, ⟨createView, ⟨"acme", "k"⟩, .claimed, true⟩, rfl, rfl, rfl, rfl⟩⟩ again rfl).1

end RagPipeline.Web
