/-
  RagPipeline.Stage2.Grouper — `_group`, the request/response state machine of Stage 2.

  The grouper reads one tenant's lines in time order and hands back the conversations they make up.
  It keeps SEVERAL overlapping indexes to the same mutable builders:

    * `openByKey`        (server, thread, user) → builder: the SLOTS;
    * `currentByThread`  (server, thread) → slot key: what a user-less line inherits;
    * `openByReqid`      (server, stamped id) → builder: the new log format;
    * `recentlyClosed`   (server, thread, user) → (builder, instant): late work rejoins;
    * `pendingReqs`      REQUEST lines no builder has claimed;
    * `builders`         what has been returned so far.

  Object identity is what ties the indexes together (`bb is b` in the source), so builders live in a
  heap under a `BuilderRef`: the builder opened while line `i` is handled is `line i`, the one opened
  for the `n`-th seeded stream is `seed n`.  At most one shared builder is opened per line; the
  one-line builders that are returned at once and never touched again are `Returned.lone`.
  The tag type `ι` of the lines is a parameter; `group` instantiates it with the index of the loop.
-/
import RagPipeline.Lib.OrderedDict
import RagPipeline.Lib.Pop
import RagPipeline.Stage2.Entry

namespace RagPipeline.Stage2

open RagPipeline.Lib

/-! ## §1. Builders, keys and the state. -/

/-- `LATE_WORK_WINDOW`: 250 ms. -/
def lateWorkWindow : Duration := 250000

/-- `_TxnBuilder`. -/
structure TxnBuilder where
  entries : List LogEntry := []
  openPos : StreamPos := noPos
  reqid : Option String := none

/-- The identity of a shared builder. -/
inductive BuilderRef (ι : Type) where
  | seed (n : Nat)
  | line (i : ι)
  deriving DecidableEq, Repr

/-- A slot key: `(server, thread, user)`, or `(server, thread, None, i)` for an anonymous stream. -/
structure StreamKey (ι : Type) where
  server : String
  thread : Option String
  user : Option User
  anon : Option ι := none
  deriving DecidableEq

/-- `key[:2]`. -/
abbrev ThreadKey := String × Option String

/-- `key[:3]`. -/
abbrev ClosedKey := String × Option String × Option User

def StreamKey.threadKey {ι : Type} (k : StreamKey ι) : ThreadKey := (k.server, k.thread)

def StreamKey.closedKey {ι : Type} (k : StreamKey ι) : ClosedKey := (k.server, k.thread, k.user)

/-- An item of the returned list: a shared builder, or the one-line builder of a lone request. -/
inductive Returned (ι : Type) where
  | shared (r : BuilderRef ι)
  | lone (e : LogEntry)

/-- The shared builder, if it is one. -/
def Returned.ref? {ι : Type} : Returned ι → Option (BuilderRef ι)
  | .shared r => some r
  | .lone _ => none

/-- The lone request, if it is one. -/
def Returned.line? {ι : Type} : Returned ι → Option LogEntry
  | .shared _ => none
  | .lone e => some e

/-- The local variables of `_group`. -/
structure GroupState (ι : Type) where
  heap : OrderedDict (BuilderRef ι) TxnBuilder := OrderedDict.empty
  builders : List (Returned ι) := []
  openByKey : OrderedDict (StreamKey ι) (BuilderRef ι) := OrderedDict.empty
  currentByThread : OrderedDict ThreadKey (StreamKey ι) := OrderedDict.empty
  openByReqid : OrderedDict (String × String) (BuilderRef ι) := OrderedDict.empty
  recentlyClosed : OrderedDict ClosedKey (BuilderRef ι × Instant) := OrderedDict.empty
  pendingReqs : List LogEntry := []

section Ops

variable {ι : Type} [DecidableEq ι]

/-- The builder behind a reference. -/
def GroupState.builder (s : GroupState ι) (r : BuilderRef ι) : TxnBuilder :=
  (s.heap.get? r).getD {}

/-- Mutate one builder. -/
def GroupState.modify (s : GroupState ι) (r : BuilderRef ι) (f : TxnBuilder → TxnBuilder) :
    GroupState ι :=
  { s with heap := s.heap.set r (f (s.builder r)) }

/-- `b.add(e)`. -/
def TxnBuilder.add (b : TxnBuilder) (e : LogEntry) : TxnBuilder :=
  { b with entries := b.entries ++ [e] }

/-- `builders.append(b)`. -/
def GroupState.giveBack (s : GroupState ι) (r : BuilderRef ι) : GroupState ι :=
  { s with builders := s.builders ++ [.shared r] }

/-! ## §2. What is read off a builder. -/

/-- `bound_user`. -/
def boundUser (b : TxnBuilder) : Option User :=
  b.entries.findSome? fun e => if namesUser (entryUser e) then entryUser e else none

/-- `has_request`. -/
def hasRequest (b : TxnBuilder) : Bool := b.entries.any fun e => decide (e.entryType = .request)

/-- `txn_user`: the first context user, else the first payload user. -/
def txnUser (b : TxnBuilder) : Option User :=
  (b.entries.findSome? fun e => if namesUser e.contextUser then e.contextUser else none).or (boundUser b)

/-- `is_id_builder`. -/
def isIdBuilder (b : TxnBuilder) : Bool := b.reqid.isSome

/-- `last_ts`: the timestamp of the LAST line that has one, in the order the lines were added. -/
def lastTs (b : TxnBuilder) : Option Instant := b.entries.reverse.findSome? (·.timestamp)

/-- `awaiting_m3`. -/
def awaitingM3 (b : TxnBuilder) : Bool :=
  match b.entries.getLast? with
  | some e => decide (e.entryType = .miCall)
  | none => false

/-- `rank`: `(ts is not None, ts, _Reversed(pos))`. -/
structure Rank where
  ts : Option Instant
  pos : StreamPos

def rankOfBuilder (b : TxnBuilder) : Rank := ⟨lastTs b, b.openPos⟩

def rankOfRequest (r : LogEntry) : Rank := ⟨r.timestamp, streamPos r⟩

/-- `rank(x) > rank(y)`: heard from later, then the older position. -/
def Rank.gt (x y : Rank) : Bool :=
  match x.ts, y.ts with
  | some a, some b => if a = b then x.pos.lt y.pos else decide (b < a)
  | some _, none => true
  | none, some _ => false
  | none, none => x.pos.lt y.pos

/-- `rank(x) >= rank(y)`. -/
def Rank.ge (x y : Rank) : Bool :=
  match x.ts, y.ts with
  | some a, some b => if a = b then !(y.pos.lt x.pos) else decide (b < a)
  | some _, none => true
  | none, some _ => false
  | none, none => !(y.pos.lt x.pos)

/-- A line heard from before `horizon`; a line without a timestamp never is. -/
def olderThan (horizon : Instant) (t : Option Instant) : Bool :=
  match t with
  | some t => decide (t < horizon)
  | none => false

/-! ## §3. Taking a pending request. -/

/-- The pending requests one line takes from: `none` leaves the pool as it was. -/
abbrev Taken := Option (LogEntry × List LogEntry)

/-- `take_by_reqid`: the oldest pending request of this server with this id. -/
def takeByReqid (pending : List LogEntry) (reqid : Option String) (srv : String) : Taken :=
  match reqid with
  | none => none
  | some rid =>
      popFirst? (fun r => decide (entryServer r = srv) && decide (entryReqid r = some rid)) pending

/-- The preferences of a scan, strongest first; the newest request that meets one is taken. -/
def takePreferred (pending : List LogEntry) (pool : LogEntry → Bool)
    (preferences : List (LogEntry → Bool)) : Taken :=
  preferences.findSome? fun accept => popLast? (fun r => pool r && accept r) pending

/-- `take_post_request`: an id-less request of this server — the same thread and user, else the same
    user, else simply the newest. -/
def takePostRequest (pending : List LogEntry) (srv : String) (thread : Option String) (user : Option User) :
    Taken :=
  takePreferred pending
    (fun r => decide (entryServer r = srv) && decide (entryReqid r = none))
    ((if namesUser user then
        [fun r => decide (r.thread = thread) && decide (reqUser r = user),
         fun r => decide (reqUser r = user)]
      else []) ++ [fun _ => true])

/-- `take_by_user`: a request of this user on this server, on the same thread when there is one. -/
def takeByUser (pending : List LogEntry) (user : Option User) (srv : String)
    (thread : Option String) : Taken :=
  if namesUser user then
    takePreferred pending
      (fun r => decide (entryServer r = srv) && decide (reqUser r = user))
      ((if thread.isSome then [fun r => decide (r.thread = thread)] else []) ++ [fun _ => true])
  else none

/-- `take_anonymous_request`: the newest user-less request the same thread logged. -/
def takeAnonymousRequest (pending : List LogEntry) (srv : String) (thread : Option String) : Taken :=
  if thread.isSome then
    popLast? (fun r => decide (entryServer r = srv) && decide (r.thread = thread)
      && decide (reqUser r = none)) pending
  else none

/-! ## §4. Closing and remembering. -/

/-- `forget_id`: drop every id under which a builder is registered. -/
def GroupState.forgetId (s : GroupState ι) (r : BuilderRef ι) : GroupState ι :=
  { s with openByReqid := s.openByReqid.filterItems (fun p => decide (p.2 ≠ r)) }

/-- A slot key stops being its thread's current stream. -/
def GroupState.dropCurrent (s : GroupState ι) (k : StreamKey ι) : GroupState ι :=
  if s.currentByThread.get? k.threadKey = some k then
    { s with currentByThread := s.currentByThread.erase k.threadKey }
  else s

/-- Take a key out of `open_by_key`, and out of `current_by_thread` when it is current there. -/
def GroupState.releaseSlot (s : GroupState ι) (k : StreamKey ι) : GroupState ι :=
  { s with openByKey := s.openByKey.erase k }.dropCurrent k

/-- `close`: release ONE slot, and every id of the builder in it. -/
def GroupState.close (s : GroupState ι) (k : StreamKey ι) : Option (BuilderRef ι) × GroupState ι :=
  match s.openByKey.get? k with
  | none => (none, s)
  | some r => (some r, (s.releaseSlot k).forgetId r)

/-- `builders.append(close(k))`, for a slot that is held. -/
def GroupState.closeInto (s : GroupState ι) (k : StreamKey ι) : GroupState ι :=
  match s.close k with
  | (some r, s') => s'.giveBack r
  | (none, s') => s'

/-- `remember_closed`. -/
def GroupState.rememberClosed (s : GroupState ι) (k : ClosedKey) (r : BuilderRef ι) (e : LogEntry) :
    GroupState ι :=
  match e.timestamp with
  | some t => { s with recentlyClosed := s.recentlyClosed.set k (r, t) }
  | none => s

/-- `rejoin_late_work`: the conversation closed under this key at most 250 ms ago; an older record is
    dropped as it is met. -/
def GroupState.rejoinLateWork (s : GroupState ι) (k : ClosedKey) (e : LogEntry) :
    Option (BuilderRef ι) × GroupState ι :=
  match s.recentlyClosed.get? k, e.timestamp with
  | some (r, closedAt), some t =>
      if t - closedAt > lateWorkWindow then
        (none, { s with recentlyClosed := s.recentlyClosed.erase k })
      else (some r, s)
  | _, _ => (none, s)

/-! ## §5. The stamped-id path. -/

/-- The slot a stamped line claims. -/
def stampedKey (srv : String) (e : LogEntry) : StreamKey ι := ⟨srv, e.thread, e.contextUser, none⟩

/-- The conversation of `(srv, rid)`: the open one, or a new one opened by line `i`. -/
def GroupState.stampedBuilder (s : GroupState ι) (i : ι) (srv rid : String) (e : LogEntry) :
    BuilderRef ι × GroupState ι :=
  match s.openByReqid.get? (srv, rid) with
  | some r => (r, s)
  | none =>
      (.line i,
       { s with
         heap := s.heap.set (.line i) { entries := [], openPos := streamPos e, reqid := some rid }
         openByReqid := s.openByReqid.set (srv, rid) (.line i) })

/-- A slot's builder is headless old-style work: unstamped, with no request of its own. -/
def headless (b : TxnBuilder) : Bool := !isIdBuilder b && !hasRequest b

/-- `b.open_pos` after headless work was absorbed. -/
def absorbedPos (b prior : StreamPos) : StreamPos :=
  if b ≠ noPos then (if prior.lt b then prior else b) else prior

/-- The lines of headless work on the slot move into the stamped conversation. -/
def GroupState.absorb (s : GroupState ι) (r : BuilderRef ι) (k : StreamKey ι) : GroupState ι :=
  match s.openByKey.get? k with
  | some p =>
      if p ≠ r && headless (s.builder p) then
        let s := s.modify r fun b =>
          { b with entries := b.entries ++ (s.builder p).entries
                   openPos := absorbedPos b.openPos (s.builder p).openPos }
        { s with openByKey := s.openByKey.erase k }
      else s
  | none => s

/-- `open_id_builder`. -/
def GroupState.openIdBuilder (s : GroupState ι) (i : ι) (srv rid : String) (e : LogEntry) :
    BuilderRef ι × GroupState ι :=
  let (r, s) := s.stampedBuilder i srv rid e
  let k := stampedKey srv e
  let s := s.absorb r k
  (r, { s with
        openByKey := s.openByKey.set k r
        currentByThread := s.currentByThread.set k.threadKey k })

/-- `close_id_builder`: release the id and EVERY slot the conversation holds. -/
def GroupState.closeIdBuilder (s : GroupState ι) (srv rid : String) :
    Option (BuilderRef ι) × GroupState ι :=
  match s.openByReqid.get? (srv, rid) with
  | none => (none, s)
  | some r =>
      let s := { s with openByReqid := s.openByReqid.erase (srv, rid) }
      let held := (s.openByKey.items.filter (fun p => decide (p.2 = r))).map Prod.fst
      (some r, held.foldl GroupState.releaseSlot s)

/-! ## §6. Eviction. -/

/-- A builder last heard from before the horizon. -/
def GroupState.stale (s : GroupState ι) (horizon : Instant) (r : BuilderRef ι) : Bool :=
  olderThan horizon (lastTs (s.builder r))

/-- The first sweep of `evict_stale`: slots. -/
def GroupState.evictSlots (s : GroupState ι) (horizon : Instant) : GroupState ι :=
  ((s.openByKey.items.filter (fun p => s.stale horizon p.2)).map Prod.fst).foldl
    GroupState.closeInto s

/-- `builders.append(open_by_reqid.pop(k))`, for an id that is open. -/
def GroupState.popIdInto (s : GroupState ι) (k : String × String) : GroupState ι :=
  match s.openByReqid.get? k with
  | some r => { s with openByReqid := s.openByReqid.erase k }.giveBack r
  | none => s

/-- The second sweep: stamped conversations that hold no slot. -/
def GroupState.evictIds (s : GroupState ι) (horizon : Instant) : GroupState ι :=
  ((s.openByReqid.items.filter (fun p => s.stale horizon p.2)).map Prod.fst).foldl
    GroupState.popIdInto s

/-- The third sweep: pending requests, each as its own transaction. -/
def GroupState.evictPending (s : GroupState ι) (horizon : Instant) : GroupState ι :=
  let old := fun r : LogEntry => olderThan horizon r.timestamp
  { s with
    pendingReqs := s.pendingReqs.filter (fun r => !old r)
    builders := s.builders ++ (s.pendingReqs.filter old).map Returned.lone }

/-- `evict_stale(now)`. -/
def GroupState.evictStale (gap : Duration) (s : GroupState ι) (now : Instant) : GroupState ι :=
  ((s.evictSlots (now - gap)).evictIds (now - gap)).evictPending (now - gap)

/-! ## §7. One line. -/

/-- The id that routes a line: its stamp, or for a body the JSON id of an OPEN stamped
    conversation. -/
def GroupState.routedId (s : GroupState ι) (e : LogEntry) : Option String :=
  match stampedReqid e with
  | some rid => some rid
  | none =>
      match e.entryType, entryReqid e with
      | .requestBody, some rid =>
          if (entryServer e, rid) ∈ s.openByReqid.keys then some rid else none
      | _, _ => none

/-- A stamped response closes its conversation, from whatever thread or user. -/
def GroupState.closeStamped (s : GroupState ι) (i : ι) (e : LogEntry) (rid : String) : GroupState ι :=
  let srv := entryServer e
  let (r, s) := match s.closeIdBuilder srv rid with
    | (some r, s) => (r, s)
    | (none, s) => (.line i, { s with heap := s.heap.set (.line i) { openPos := streamPos e } })
  let s := (s.modify r (·.add e)).giveBack r
  match (s.builder r).entries.head? with
  | some head => s.rememberClosed (srv, head.thread, head.contextUser) r e
  | none => s

/-- Any other stamped line joins (or opens) its conversation. -/
def GroupState.joinStamped (s : GroupState ι) (i : ι) (e : LogEntry) (rid : String) : GroupState ι :=
  let (r, s) := s.openIdBuilder i (entryServer e) rid e
  s.modify r (·.add e)

/-- An unstamped POST body: a new cycle of its slot, with the request line it claims. -/
def GroupState.requestBody (s : GroupState ι) (i : ι) (e : LogEntry) : GroupState ι :=
  let srv := entryServer e
  let u := reqUser e
  let k : StreamKey ι := ⟨srv, e.thread, u, none⟩
  let s := s.closeInto k
  let taken := (takeByReqid s.pendingReqs (entryReqid e) srv).or
    (takePostRequest s.pendingReqs srv e.thread u)
  let b : TxnBuilder := match taken with
    | some (req, _) => { entries := [req, e], openPos := streamPos req }
    | none => { entries := [e], openPos := streamPos e }
  { s with
    heap := s.heap.set (.line i) b
    pendingReqs := match taken with
      | some (_, rest) => rest
      | none => s.pendingReqs
    openByKey := s.openByKey.set k (.line i)
    currentByThread := s.currentByThread.set (srv, e.thread) k }

/-- A fresh request of this user waits on this thread. -/
def GroupState.freshRequest (s : GroupState ι) (srv : String) (thread : Option String) (user : Option User) :
    Bool :=
  s.pendingReqs.any fun r =>
    decide (entryServer r = srv) && decide (r.thread = thread) && decide (reqUser r = user)

/-- A new, empty builder of line `i` on the slot `k`, which becomes the thread's current stream. -/
def GroupState.openSlot (s : GroupState ι) (i : ι) (k : StreamKey ι) (e : LogEntry) : GroupState ι :=
  { s with
    heap := s.heap.set (.line i) { openPos := streamPos e }
    openByKey := s.openByKey.set k (.line i)
    currentByThread := s.currentByThread.set k.threadKey k }

/-- `b.add(req); b.open_pos = _stream_pos(req)` for a request just taken from the pool. -/
def GroupState.bind (s : GroupState ι) (r : BuilderRef ι) (taken : Taken) : GroupState ι :=
  match taken with
  | some (req, rest) =>
      { s with pendingReqs := rest }.modify r fun b =>
        { b.add req with openPos := streamPos req }
  | none => s

/-- Where a work line goes: a builder to add it to, or `none` when it rejoined a closed one. -/
def GroupState.workTarget (s : GroupState ι) (i : ι) (e : LogEntry) :
    Option (BuilderRef ι) × GroupState ι :=
  let srv := entryServer e
  match e.contextUser with
  | some u =>
      let k : StreamKey ι := ⟨srv, e.thread, some u, none⟩
      match s.openByKey.get? k with
      | some r =>
          (some r, { s with currentByThread := s.currentByThread.set (srv, e.thread) k })
      | none =>
          -- the tail of the conversation this thread has just answered, unless a fresh request waits
          if s.freshRequest srv e.thread (some u) then (some (.line i), s.openSlot i k e)
          else
            match s.rejoinLateWork k.closedKey e with
            | (some late, s) => (none, s.modify late (·.add e))
            | (none, s) => (some (.line i), s.openSlot i k e)
  | none =>
      -- no user on this line: the stream that is live on this thread now
      match (s.currentByThread.get? (srv, e.thread)).bind s.openByKey.get? with
      | some r => (some r, s)
      | none =>
          let s := s.openSlot i ⟨srv, e.thread, none, some i⟩ e
          (some (.line i), s.bind (.line i) (takeAnonymousRequest s.pendingReqs srv e.thread))

/-- A work line: joins its stream, and binds a pending request once the user is known. -/
def GroupState.work (s : GroupState ι) (i : ι) (e : LogEntry) : GroupState ι :=
  match s.workTarget i e with
  | (none, s) => s
  | (some r, s) =>
      let s := s.modify r (·.add e)
      let bu := reqUser e
      if namesUser bu && !hasRequest (s.builder r) then
        s.bind r (takeByUser s.pendingReqs bu (entryServer e) e.thread)
      else s

/-- The candidates of an unstamped response: the slots with unstamped builders and the pending
    requests of its server, of its own user when there are any, and the M3-blocked builders only when
    nothing else is left. -/
def GroupState.candidates (s : GroupState ι) (e : LogEntry) :
    List (StreamKey ι × BuilderRef ι) × List LogEntry :=
  let srv := entryServer e
  let keys := s.openByKey.items.filter fun p =>
    decide (p.1.server = srv) && !isIdBuilder (s.builder p.2)
  let srvReqs := s.pendingReqs.filter fun r => decide (entryServer r = srv)
  let uKeys := keys.filter fun p => decide (txnUser (s.builder p.2) = e.contextUser)
  let uReqs := srvReqs.filter fun r => decide (reqUser r = e.contextUser)
  let (uKeys, uReqs) := if uKeys.isEmpty && uReqs.isEmpty then (keys, srvReqs) else (uKeys, uReqs)
  let settled := uKeys.filter fun p => !awaitingM3 (s.builder p.2)
  (if !settled.isEmpty || !uReqs.isEmpty then settled else uKeys, uReqs)

/-- The strongest candidates of each kind: `max(…, key=rank)`. -/
def GroupState.bestKey (s : GroupState ι) (keys : List (StreamKey ι × BuilderRef ι)) :
    Option (StreamKey ι × BuilderRef ι) :=
  maxBy? (fun p q => (rankOfBuilder (s.builder p.2)).gt (rankOfBuilder (s.builder q.2))) keys

def bestReq (reqs : List LogEntry) : Option LogEntry :=
  maxBy? (fun r q => (rankOfRequest r).gt (rankOfRequest q)) reqs

/-- An open builder answers: it is closed, takes the response and is returned. -/
def GroupState.answerBuilder (s : GroupState ι) (k : StreamKey ι) (e : LogEntry) : GroupState ι :=
  match s.close k with
  | (some r, s) => (s.modify r (·.add e)).giveBack r |>.rememberClosed k.closedKey r e
  | (none, s) => s

/-- A pending request answers: the two lines are a conversation of their own. -/
def GroupState.answerRequest (s : GroupState ι) (i : ι) (req e : LogEntry) : GroupState ι :=
  let s := { s with
    pendingReqs := s.pendingReqs.eraseP (fun r => decide (r.id = req.id))
    heap := s.heap.set (.line i) { entries := [req, e], openPos := streamPos req } }
  (s.rememberClosed (entryServer e, req.thread, reqUser req) (.line i) e).giveBack (.line i)

/-- Nothing is open: the response is an orphan. -/
def GroupState.orphan (s : GroupState ι) (i : ι) (e : LogEntry) : GroupState ι :=
  { s with heap := s.heap.set (.line i) { entries := [e], openPos := streamPos e } }.giveBack (.line i)

/-- An unstamped response joins the candidate heard from most recently. -/
def GroupState.response (s : GroupState ι) (i : ι) (e : LogEntry) : GroupState ι :=
  let (keys, reqs) := s.candidates e
  match s.bestKey keys, bestReq reqs with
  | some (k, r), some req =>
      if (rankOfBuilder (s.builder r)).ge (rankOfRequest req) then s.answerBuilder k e
      else s.answerRequest i req e
  | some (k, _), none => s.answerBuilder k e
  | none, some req => s.answerRequest i req e
  | none, none => s.orphan i e

/-- What a line sweeps away before it is routed. -/
def GroupState.swept (gap : Duration) (s : GroupState ι) (e : LogEntry) : GroupState ι :=
  match e.timestamp with
  | some now => s.evictStale gap now
  | none => s

/-- The routing of one line, after the sweep. -/
def GroupState.route (s : GroupState ι) (i : ι) (e : LogEntry) : GroupState ι :=
  match s.routedId e with
  | some rid => if e.entryType = .response then s.closeStamped i e rid else s.joinStamped i e rid
  | none =>
      match e.entryType with
      | .request => { s with pendingReqs := s.pendingReqs ++ [e] }
      | .requestBody => s.requestBody i e
      | .response => s.response i e
      | .miCall | .miResult | .sql | .info | .error => s.work i e

/-- One turn of the loop. -/
def GroupState.step (gap : Duration) (s : GroupState ι) (i : ι) (e : LogEntry) : GroupState ι :=
  (s.swept gap e).route i e

/-- The loop. -/
def GroupState.run (gap : Duration) (s : GroupState ι) : List (LogEntry × ι) → GroupState ι
  | [] => s
  | (e, i) :: rest => (s.step gap i e).run gap rest

/-! ## §8. The final flush. -/

/-- The open builders in the order the flush meets them: every slot, then every id. -/
def GroupState.flushOrder (s : GroupState ι) : List (BuilderRef ι) :=
  s.openByKey.values ++ s.openByReqid.values

/-- The flush loop: a stamped builder is emitted once per REQUEST ID, an old-style one per slot. -/
def GroupState.emitted (s : GroupState ι) : List String → List (BuilderRef ι) → List (BuilderRef ι)
  | _, [] => []
  | ids, r :: rest =>
      match (s.builder r).reqid with
      | some rid =>
          if rid ∈ ids then s.emitted ids rest else r :: s.emitted (rid :: ids) rest
      | none => r :: s.emitted ids rest

/-- Everything the grouper hands back. -/
def GroupState.finish (s : GroupState ι) : List (Returned ι) :=
  s.builders ++ (s.emitted [] s.flushOrder).map Returned.shared ++ s.pendingReqs.map Returned.lone

/-- The builder a returned item is. -/
def GroupState.resolve (s : GroupState ι) : Returned ι → TxnBuilder
  | .shared r => s.builder r
  | .lone e => { entries := [e], openPos := streamPos e }

end Ops

/-! ## §9. Seeds, and the whole function. -/

/-- One stream read back from `log_open_stream`. -/
structure SeedStream where
  thread : Option String
  userCtx : Option String
  isCurrent : Bool
  openPos : StreamPos
  entries : List LogEntry

/-- The `seed` argument. -/
structure Seed where
  streams : List SeedStream := []
  pending : List LogEntry := []

/-- The server of a seeded stream is that of its first line. -/
def SeedStream.server (st : SeedStream) : String :=
  match st.entries with
  | [] => ""
  | e :: _ => entryServer e

/-- The slot a seeded stream takes. -/
def SeedStream.key {ι : Type} (st : SeedStream) : StreamKey ι := ⟨st.server, st.thread, st.userCtx.map User.text, none⟩

/-- Put the `n`-th seeded stream back; one with no reloadable lines is skipped. -/
def GroupState.plant {ι : Type} [DecidableEq ι] (s : GroupState ι) (n : Nat) (st : SeedStream) :
    GroupState ι :=
  if st.entries.isEmpty then s
  else
    let rid := stampedReqidOf st.entries
    { s with
      heap := s.heap.set (.seed n) { entries := st.entries, openPos := st.openPos, reqid := rid }
      openByKey := s.openByKey.set st.key (.seed n)
      currentByThread :=
        if st.isCurrent then s.currentByThread.set (st.server, st.thread) st.key
        else s.currentByThread
      openByReqid := match rid with
        | some rid => s.openByReqid.set (st.server, rid) (.seed n)
        | none => s.openByReqid }

/-- The state the loop starts from. -/
def seedState {ι : Type} [DecidableEq ι] (seed : Seed) : GroupState ι :=
  { (seed.streams.zipIdx.foldl (fun s p => s.plant p.2 p.1) ({} : GroupState ι)) with
    pendingReqs := seed.pending }

/-- Every line a seed carries. -/
def Seed.lines (seed : Seed) : List LogEntry := seed.streams.flatMap (·.entries) ++ seed.pending

/-- A seed of open streams: none is empty, no two share a slot, no line is there twice. -/
structure Seed.Valid (seed : Seed) : Prop where
  filled : ∀ st ∈ seed.streams, st.entries ≠ []
  keys : (seed.streams.map fun st => (st.server, st.thread, st.userCtx)).Nodup
  ids : (seed.lines.map (·.id)).Nodup

/-- `seeded_ids`. -/
def Seed.ids (seed : Seed) : List UUID := (seed.streams.flatMap (·.entries)).map (·.id)

/-- The lines of the loop that are not skipped as already seeded, each with its index. -/
def Seed.unseen (seed : Seed) (entries : List LogEntry) : List (LogEntry × Nat) :=
  entries.zipIdx.filter fun p => decide (p.1.id ∉ seed.ids)

/-- The state after the loop. -/
def groupFinal (gap : Duration) (seed : Seed) (entries : List LogEntry) : GroupState Nat :=
  (seedState seed).run gap (seed.unseen entries)

/-- `_group(entries, seed)`, as references. -/
def groupReturned (gap : Duration) (seed : Seed) (entries : List LogEntry) : List (Returned Nat) :=
  (groupFinal gap seed entries).finish

/-- `_group(entries, seed)`, where it returns: the builders. -/
def group (gap : Duration) (seed : Seed) (entries : List LogEntry) : List TxnBuilder :=
  (groupReturned gap seed entries).map (groupFinal gap seed entries).resolve

/-! ## §10. Users that have no hash. -/

section Raises

variable {ι : Type} [DecidableEq ι]

/-- A payload user that is a list or an object. -/
def unhashable (u : Option User) : Bool := u.any fun u => !u.hashable

/-- The pending request an unstamped response answers, when it answers one. -/
def GroupState.answeredRequest (s : GroupState ι) (e : LogEntry) : Option LogEntry :=
  match s.bestKey (s.candidates e).1, bestReq (s.candidates e).2 with
  | some (_, r), some req => if (rankOfBuilder (s.builder r)).ge (rankOfRequest req) then none else some req
  | some _, none => none
  | none, req => req

/-- Routing the line asks for the hash of a user that has none, and raises `TypeError`: the user of a POST body is
    part of its slot's key, that of an answered request of the key it is remembered under. -/
def GroupState.raises (s : GroupState ι) (e : LogEntry) : Bool :=
  (s.routedId e).isNone &&
    match e.entryType with
    | .requestBody => unhashable (reqUser e)
    | .response => e.timestamp.isSome && (s.answeredRequest e).any fun req => unhashable (reqUser req)
    | _ => false

/-- A turn of the loop raises. -/
def GroupState.runRaises (gap : Duration) (s : GroupState ι) : List (LogEntry × ι) → Bool
  | [] => false
  | (e, i) :: rest => (s.swept gap e).raises e || (s.step gap i e).runRaises gap rest

end Raises

/-- **`_group(entries, seed)`**; `none` is the `TypeError`, and nothing is returned. -/
def groupCall (gap : Duration) (seed : Seed) (entries : List LogEntry) : Option (List TxnBuilder) :=
  if (seedState seed).runRaises gap (seed.unseen entries) then none else some (group gap seed entries)

end RagPipeline.Stage2
