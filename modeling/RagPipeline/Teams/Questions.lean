/-
  RagPipeline.Teams.Questions — a question to the bot: out of the queue, to the agent, and its answer to the edge.

  The queue keeps a message until it is deleted, and may hand it out any number of times.  What handles it may die
  between any two steps: the answer is made, and remembered with its question; it is posted; the message is deleted.

    * `answered_or_kept` — whatever has left the queue was malformed, is a dead letter, or has its answer at the edge,
                           or was turned away there for good;
    * `history_own`      — the agent is shown questions and answers of the same conversation and customer only, each
                           of them asked and answered before.
-/
import Mathlib.Data.List.Sort
import RagPipeline.Lib.OptionLoops
import RagPipeline.Lib.Strip

namespace RagPipeline.Teams.Questions

open RagPipeline.Lib

/-! ## §1. A job and its answer. -/

inductive CommandKind
  | atRiskCheck | atRiskUncheck
  deriving DecidableEq, Repr

/-- What the edge publishes, as far as it is read here. -/
structure QuestionJob where
  jobId : String
  customerCode : String
  conversationId : String
  question : String
  command : Option CommandKind
  deriving DecidableEq, Repr

inductive AnswerStatus
  | ok | error
  deriving DecidableEq, Repr

structure AnswerPayload where
  jobId : String
  conversationId : String
  status : AnswerStatus
  answer : String
  citedTransactionIds : List String
  toolCallCount : ℕ
  deriving DecidableEq, Repr

/-- It goes to the conversation of the job, under its id. -/
def AnswerPayload.answers (p : AnswerPayload) (job : QuestionJob) : Prop :=
  p.jobId = job.jobId ∧ p.conversationId = job.conversationId

/-- What a call may raise, as far as the sentence depends on it. -/
inductive Failure
  | authentication | permissionDenied
  | badRequest (text : String)
  | runtime (text : String)
  | rateLimit | connection | internalServer
  | other
  deriving DecidableEq, Repr

def answerFailed : String :=
  "Sorry, I could not answer that one. The question has been logged so the team can look at it."

def customerNotReady : String :=
  "Your organisation's log space is not active on our side yet. Please contact your account manager."

def modelUnavailable : String :=
  "The assistant's language model is not available right now (the AI service refused our credentials or account). Your question has been logged; the team has been alerted."

def modelBusy : String := "The AI service is busy or unreachable at the moment. Please try again in a minute."

def commandUnsupported : String := "This consumer cannot record actions yet; the check was not saved."

def nothingToSay : String := "I could not find anything to say about that."

def mentions (text needle : String) : Bool := decide (needle.toList <:+: text.toList)

/-- The sentence the person sees. -/
def failureMessage : Failure → String
  | .authentication => modelUnavailable
  | .permissionDenied => modelUnavailable
  | .badRequest text => if mentions text.toLower "credit" then modelUnavailable else answerFailed
  | .runtime text => if mentions text "anthropic_api_key" then modelUnavailable else answerFailed
  | .rateLimit => modelBusy
  | .connection => modelBusy
  | .internalServer => modelBusy
  | .other => answerFailed

/-- What an agent returns: its answer, and the transaction each tool call names. -/
structure AgentResult where
  answer : Option String
  toolCalls : List (Option String)
  deriving DecidableEq, Repr

/-- In the order first seen. -/
def citedTransactionIds (calls : List (Option String)) : List String :=
  calls.foldl (fun seen call => match call with
    | none => seen
    | some value => if value = "" ∨ value ∈ seen then seen else seen ++ [value]) []

def answerText (r : AgentResult) : String :=
  let text := stripBy isSpace (r.answer.getD "").toList
  if text = [] then nothingToSay else String.ofList text

/-! ## §2. What is remembered of a conversation. -/

inductive Role
  | user | assistant
  deriving DecidableEq, Repr

/-- A row of `teams_conversation_turns`. -/
structure Turn where
  conversationId : String
  customerCode : String
  role : Role
  position : ℕ
  content : String
  jobId : String
  createdAt : ℕ
  deriving DecidableEq, Repr

/-- What the agent is shown of a turn. -/
structure Said where
  role : Role
  content : String
  deriving DecidableEq, Repr

def Turn.said (t : Turn) : Said := ⟨t.role, t.content⟩

def Turn.newerOrSame (t u : Turn) : Bool :=
  decide (u.createdAt < t.createdAt) || (decide (t.createdAt = u.createdAt) && decide (u.position ≤ t.position))

def recentTurns (turns : List Turn) (conversationId customerCode : String) (limit : ℤ) : List Said :=
  if limit ≤ 0 then []
  else
    let own := turns.filter fun t => t.conversationId = conversationId ∧ t.customerCode = customerCode
    (((own.mergeSort Turn.newerOrSame).take limit.toNat).reverse).map Turn.said

/-- `append_exchange`: the question and its answer, in one instant. -/
def exchange (job : QuestionJob) (answer : String) (now : ℕ) : List Turn :=
  [⟨job.conversationId, job.customerCode, .user, 0, job.question, job.jobId, now⟩,
   ⟨job.conversationId, job.customerCode, .assistant, 1, answer, job.jobId, now⟩]

/-! ## §3. One question. -/

/-- What the calls before the agent return or raise. -/
structure Opening where
  customerReady : Except Failure Bool
  runCommand : Option (Except String String)
  loadHistory : Except Failure Unit

/-- What the agent and the recording return or raise: `unrecorded` is what the recording raised, and whether the turns
are there all the same. -/
structure Conclusion where
  runAgent : Except Failure AgentResult
  unrecorded : Option (Failure × Bool)
  now : ℕ

/-- One run of the agent: for which job, what it was shown, what it said. -/
structure Consultation where
  job : QuestionJob
  history : List Said
  answer : Option String
  deriving DecidableEq, Repr

structure Answered where
  payload : AnswerPayload
  turns : List Turn
  consulted : Consultation

def QuestionJob.sentence (job : QuestionJob) (status : AnswerStatus) (answer : String) : AnswerPayload :=
  ⟨job.jobId, job.conversationId, status, answer, [], 0⟩

/-- `_answer` up to the agent: an answer without it, or what it is shown.  An action never runs it. -/
def opened (limit : ℤ) (turns : List Turn) (job : QuestionJob) (o : Opening) : AnswerPayload ⊕ List Said :=
  match o.customerReady with
  | .error f => .inl (job.sentence .error (failureMessage f))
  | .ok false => .inl (job.sentence .error customerNotReady)
  | .ok true =>
    match job.command with
    | some _ =>
      match o.runCommand with
      | none => .inl (job.sentence .error commandUnsupported)
      | some (.ok text) => .inl (job.sentence .ok text)
      | some (.error text) => .inl (job.sentence .error ("Could not record that: " ++ text))
    | none =>
      match o.loadHistory with
      | .error f => .inl (job.sentence .error (failureMessage f))
      | .ok () => .inr (recentTurns turns job.conversationId job.customerCode limit)

/-- `_answer` from the agent on. -/
def concluded (job : QuestionJob) (history : List Said) (k : Conclusion) : Answered :=
  match k.runAgent with
  | .error f => ⟨job.sentence .error (failureMessage f), [], ⟨job, history, none⟩⟩
  | .ok result =>
    let text := answerText result
    match k.unrecorded with
    | some (f, kept) =>
      ⟨job.sentence .error (failureMessage f), if kept then exchange job text k.now else [], ⟨job, history, some text⟩⟩
    | none =>
      ⟨⟨job.jobId, job.conversationId, .ok, text, citedTransactionIds result.toolCalls, result.toolCalls.length⟩,
        exchange job text k.now, ⟨job, history, some text⟩⟩

/-- One request to the edge: lost on the way, to it or back from it, or answered with a status; a body that cannot be
read raises. -/
inductive Request
  | lost (taken : Bool)
  | status (code : ℕ) (readable : Bool)
  deriving DecidableEq, Repr

inductive Posted
  | delivered | gone | raised
  deriving DecidableEq, Repr

/-- `post`, from the attempt `k` on with `left` attempts: how it ends, and how often the edge takes the answer. -/
def postFrom (requests : ℕ → Request) : ℕ → ℕ → Posted × ℕ
  | _, 0 => (.raised, 0)
  | k, left + 1 =>
    match requests k with
    | .lost taken =>
      let rest := postFrom requests (k + 1) left
      (rest.1, rest.2 + if taken then 1 else 0)
    | .status code readable =>
      if 200 ≤ code ∧ code < 300 then (if readable then .delivered else .raised, 1)
      else if code = 404 then (.gone, 0)
      else if 400 ≤ code ∧ code < 500 then (.raised, 0)
      else postFrom requests (k + 1) left

/-! ## §4. The queue and those at work on it. -/

inductive Phase
  | parsed (job : QuestionJob)
  | asking (job : QuestionJob) (history : List Said)
  | answered (job : QuestionJob) (payload : AnswerPayload)
  | finished
  deriving DecidableEq, Repr

structure Handling where
  message : ℕ
  phase : Phase
  deriving DecidableEq, Repr

/-- The bodies of all messages, by their numbers; `refused` is what the edge has no conversation for. -/
structure State where
  bodies : List String
  queue : List ℕ
  deadLetters : List ℕ
  handlings : List Handling
  turns : List Turn
  consulted : List Consultation
  edge : List AnswerPayload
  refused : List AnswerPayload
  deriving DecidableEq, Repr

def noQuestions : State := ⟨[], [], [], [], [], [], [], []⟩

/-- What the edge, the queue, the consumers and the purge of a log space do, and what may fail. -/
inductive Action
  | send (body : String)
  | receive (message : ℕ)
  | load (i : ℕ) (o : Opening)
  | conclude (i : ℕ) (k : Conclusion)
  | post (i : ℕ) (requests : ℕ → Request)
  | delete (i : ℕ) (ok : Bool)
  | die (i : ℕ)
  | bury (message : ℕ)
  | purge (customerCode : String)

/-- How a body is read (none: it is no valid job), how many turns are shown, how often an answer is posted. -/
structure Setup where
  parse : String → Option QuestionJob
  historyTurns : ℤ
  attempts : ℕ

def Setup.phaseOf (c : Setup) (body : String) : Phase :=
  match c.parse body with
  | none => .finished
  | some job => .parsed job

def State.setPhase (s : State) (i message : ℕ) (phase : Phase) : State :=
  { s with handlings := s.handlings.set i ⟨message, phase⟩ }

def State.drop (s : State) (i : ℕ) : State := { s with handlings := s.handlings.eraseIdx i }

/-- One step of one of those at work: none when there is no such step. -/
def Setup.step (c : Setup) (s : State) : Action → Option State
  | .send body => some { s with bodies := s.bodies ++ [body], queue := s.queue ++ [s.bodies.length] }
  | .receive message =>
    if message ∈ s.queue then
      s.bodies[message]?.map fun body => { s with handlings := s.handlings ++ [⟨message, c.phaseOf body⟩] }
    else none
  | .load i o =>
    match s.handlings[i]? with
    | some ⟨message, .parsed job⟩ =>
      match opened c.historyTurns s.turns job o with
      | .inl payload => some (s.setPhase i message (.answered job payload))
      | .inr history => some (s.setPhase i message (.asking job history))
    | _ => none
  | .conclude i k =>
    match s.handlings[i]? with
    | some ⟨message, .asking job history⟩ =>
      let a := concluded job history k
      some { s.setPhase i message (.answered job a.payload) with
        turns := s.turns ++ a.turns, consulted := s.consulted ++ [a.consulted] }
    | _ => none
  | .post i requests =>
    match s.handlings[i]? with
    | some ⟨message, .answered _ payload⟩ =>
      let posted := postFrom requests 1 c.attempts
      let s' := { s with edge := s.edge ++ List.replicate posted.2 payload }
      match posted.1 with
      | .delivered => some (s'.setPhase i message .finished)
      | .gone => some { s'.setPhase i message .finished with refused := s.refused ++ [payload] }
      | .raised => some (s'.drop i)
    | _ => none
  | .delete i ok =>
    match s.handlings[i]? with
    | some ⟨message, .finished⟩ =>
      some (if ok then { s.drop i with queue := s.queue.filter (· ≠ message) } else s.drop i)
    | _ => none
  | .die i => if i < s.handlings.length then some (s.drop i) else none
  | .bury message =>
    if message ∈ s.queue then
      some { s with queue := s.queue.filter (· ≠ message), deadLetters := s.deadLetters ++ [message] }
    else none
  | .purge customerCode => some { s with turns := s.turns.filter fun t => t.customerCode ≠ customerCode }

def Setup.run (c : Setup) (s : State) (as : List Action) : Option State := as.foldlM c.step s

/-! ## §5. What holds of every run. -/

/-- The message was malformed, or its answer has reached the edge, or the edge has turned it away for good. -/
def Setup.Dealt (c : Setup) (s : State) (message : ℕ) : Prop :=
  ∃ body, s.bodies[message]? = some body ∧
    ∀ job, c.parse body = some job → ∃ p : AnswerPayload, p.answers job ∧ (p ∈ s.edge ∨ p ∈ s.refused)

/-- It was asked in this conversation for this customer, or is the answer that was given there. -/
def IsOwn (before : List Consultation) (job : QuestionJob) (said : Said) : Prop :=
  ∃ e ∈ before, e.job.conversationId = job.conversationId ∧ e.job.customerCode = job.customerCode ∧
    ∃ text, e.answer = some text ∧ (said = ⟨.user, e.job.question⟩ ∨ said = ⟨.assistant, text⟩)

/-- What an agent may be shown for a job, after the consultations before it. -/
structure Setup.Shown (c : Setup) (before : List Consultation) (job : QuestionJob) (history : List Said) : Prop where
  question : job.command = none
  few : history.length ≤ c.historyTurns.toNat
  own : ∀ said ∈ history, IsOwn before job said

def Setup.Fits (c : Setup) (s : State) (h : Handling) : Prop :=
  match h.phase with
  | .parsed job => ∃ body, s.bodies[h.message]? = some body ∧ c.parse body = some job
  | .asking job history =>
    (∃ body, s.bodies[h.message]? = some body ∧ c.parse body = some job) ∧ c.Shown s.consulted job history
  | .answered job payload =>
    (∃ body, s.bodies[h.message]? = some body ∧ c.parse body = some job) ∧ payload.answers job
  | .finished => c.Dealt s h.message

structure Setup.Inv (c : Setup) (s : State) : Prop where
  handled : ∀ h ∈ s.handlings, c.Fits s h
  kept : ∀ m < s.bodies.length, m ∈ s.queue ∨ m ∈ s.deadLetters ∨ c.Dealt s m
  /-- memory holds exchanges that took place -/
  remembered : ∀ t ∈ s.turns, ∃ e ∈ s.consulted, t.conversationId = e.job.conversationId ∧
    t.customerCode = e.job.customerCode ∧
    ∃ text, e.answer = some text ∧ (t.said = ⟨.user, e.job.question⟩ ∨ t.said = ⟨.assistant, text⟩)
  shown : ∀ before e after, s.consulted = before ++ e :: after → c.Shown before e.job e.history

theorem inv_noQuestions (c : Setup) : c.Inv noQuestions where
  handled := fun _ h => nomatch h
  kept := fun _ h => nomatch h
  remembered := fun _ h => nomatch h
  shown := fun before e after h => by cases before <;> cases h

/-- What no step takes back. -/
structure Grows (s s' : State) : Prop where
  bodies : ∀ (m : ℕ) (body : String), s.bodies[m]? = some body → s'.bodies[m]? = some body
  edge : ∀ p ∈ s.edge, p ∈ s'.edge
  refused : ∀ p ∈ s.refused, p ∈ s'.refused
  consulted : ∀ e ∈ s.consulted, e ∈ s'.consulted

section Growth

variable {c : Setup} {s s' : State}

theorem Setup.Dealt.mono {m : ℕ} (hg : Grows s s') (h : c.Dealt s m) : c.Dealt s' m := by
  obtain ⟨body, hbody, hjob⟩ := h
  refine ⟨body, hg.bodies m body hbody, fun job hparse => ?_⟩
  obtain ⟨p, hp, hat⟩ := hjob job hparse
  exact ⟨p, hp, hat.imp (hg.edge p) (hg.refused p)⟩

theorem IsOwn.mono {before after : List Consultation} {job : QuestionJob} {said : Said}
    (hsub : ∀ e ∈ before, e ∈ after) (h : IsOwn before job said) : IsOwn after job said := by
  obtain ⟨e, he, hrest⟩ := h
  exact ⟨e, hsub e he, hrest⟩

theorem Setup.Fits.mono {h : Handling} (hg : Grows s s') (hfits : c.Fits s h) : c.Fits s' h := by
  have hbodies : ∀ job, (∃ body, s.bodies[h.message]? = some body ∧ c.parse body = some job) →
      ∃ body, s'.bodies[h.message]? = some body ∧ c.parse body = some job := by
    rintro job ⟨body, hbody, hparse⟩
    exact ⟨body, hg.bodies _ body hbody, hparse⟩
  obtain ⟨message, phase⟩ := h
  cases phase with
  | parsed job => exact hbodies job hfits
  | asking job history =>
    obtain ⟨hjob, hshown⟩ := hfits
    exact ⟨hbodies job hjob, hshown.question, hshown.few, fun said hsaid => (hshown.own said hsaid).mono hg.consulted⟩
  | answered job payload => exact ⟨hbodies job hfits.1, hfits.2⟩
  | finished => exact Setup.Dealt.mono hg hfits

end Growth

/-! ## §6. What the parts of a question are. -/

section Parts

variable {limit : ℤ} {turns : List Turn} {job : QuestionJob} {history : List Said}

theorem recentTurns_length (conversationId customerCode : String) :
    (recentTurns turns conversationId customerCode limit).length ≤ limit.toNat := by
  unfold recentTurns
  split
  · exact Nat.zero_le _
  · rw [List.length_map, List.length_reverse]
    exact List.length_take_le _ _

theorem mem_recentTurns {conversationId customerCode : String} {said : Said}
    (h : said ∈ recentTurns turns conversationId customerCode limit) :
    ∃ t ∈ turns, t.conversationId = conversationId ∧ t.customerCode = customerCode ∧ t.said = said := by
  unfold recentTurns at h
  split at h
  · cases h
  · obtain ⟨t, ht, hsaid⟩ := List.mem_map.mp h
    have hown := List.mem_mergeSort.mp (List.mem_of_mem_take (List.mem_reverse.mp ht))
    obtain ⟨hmem, hof⟩ := List.mem_filter.mp hown
    obtain ⟨hconversation, hcustomer⟩ := of_decide_eq_true hof
    exact ⟨t, hmem, hconversation, hcustomer, hsaid⟩

theorem sentence_answers (status : AnswerStatus) (text : String) : (job.sentence status text).answers job := ⟨rfl, rfl⟩

theorem opened_answers {o : Opening} {payload : AnswerPayload} (h : opened limit turns job o = .inl payload) :
    payload.answers job := by
  unfold opened at h
  split at h
  · exact Sum.inl.inj h ▸ sentence_answers _ _
  · exact Sum.inl.inj h ▸ sentence_answers _ _
  · split at h
    · split at h
      all_goals exact Sum.inl.inj h ▸ sentence_answers _ _
    · split at h
      · exact Sum.inl.inj h ▸ sentence_answers _ _
      · cases h

theorem opened_shown {o : Opening} (h : opened limit turns job o = .inr history) :
    job.command = none ∧ history = recentTurns turns job.conversationId job.customerCode limit := by
  unfold opened at h
  split at h
  · cases h
  · cases h
  · split at h
    · split at h <;> cases h
    · next hcommand =>
      split at h
      · cases h
      · exact ⟨hcommand, (Sum.inr.inj h).symm⟩

theorem concluded_answers (k : Conclusion) : (concluded job history k).payload.answers job := by
  unfold concluded
  split
  · exact sentence_answers _ _
  · dsimp only
    split <;> exact ⟨rfl, rfl⟩

@[simp] theorem concluded_job (k : Conclusion) : (concluded job history k).consulted.job = job := by
  unfold concluded
  split
  · rfl
  · dsimp only
    split <;> rfl

@[simp] theorem concluded_history (k : Conclusion) : (concluded job history k).consulted.history = history := by
  unfold concluded
  split
  · rfl
  · dsimp only
    split <;> rfl

theorem mem_exchange {text : String} {now : ℕ} {t : Turn} (h : t ∈ exchange job text now) :
    t.conversationId = job.conversationId ∧ t.customerCode = job.customerCode ∧
      (t.said = ⟨.user, job.question⟩ ∨ t.said = ⟨.assistant, text⟩) := by
  unfold exchange at h
  rcases List.mem_pair.mp h with rfl | rfl
  · exact ⟨rfl, rfl, .inl rfl⟩
  · exact ⟨rfl, rfl, .inr rfl⟩

/-- What is remembered is the exchange that took place. -/
theorem concluded_turns {k : Conclusion} {t : Turn} (h : t ∈ (concluded job history k).turns) :
    t.conversationId = job.conversationId ∧ t.customerCode = job.customerCode ∧
      ∃ text, (concluded job history k).consulted.answer = some text ∧
        (t.said = ⟨.user, job.question⟩ ∨ t.said = ⟨.assistant, text⟩) := by
  unfold concluded at h ⊢
  split at h
  · cases h
  · next result hresult =>
    dsimp only at h ⊢
    have hmem : t ∈ exchange job (answerText result) k.now := by
      split at h
      · split at h
        · exact h
        · cases h
      · exact h
    obtain ⟨hconversation, hcustomer, hsaid⟩ := mem_exchange hmem
    refine ⟨hconversation, hcustomer, answerText result, ?_, hsaid⟩
    split <;> rfl

/-- An answer counts as delivered only where the edge has taken it. -/
theorem postFrom_delivered {requests : ℕ → Request} {left : ℕ} :
    ∀ k, (postFrom requests k left).1 = .delivered → 0 < (postFrom requests k left).2 := by
  induction left with
  | zero => exact fun k h => nomatch h
  | succ left ih =>
    intro k h
    unfold postFrom at h ⊢
    split at h
    · exact Nat.add_pos_left (ih (k + 1) h) _
    · split at h
      · rw [if_pos ‹_›]
        exact Nat.one_pos
      · rw [if_neg ‹_›]
        split at h
        · cases h
        · split at h
          · cases h
          · rw [if_neg ‹_›, if_neg ‹_›]
            exact ih (k + 1) h

end Parts

/-! ## §7. What one step keeps. -/

section Steps

variable {c : Setup} {s s' : State}

/-- Only those at work change. -/
theorem Setup.Inv.work (h : c.Inv s) {handlings : List Handling} (hfits : ∀ w ∈ handlings, c.Fits s w) :
    c.Inv { s with handlings := handlings } where
  handled := hfits
  kept := h.kept
  remembered := h.remembered
  shown := h.shown

theorem Setup.Inv.drop (h : c.Inv s) (i : ℕ) : c.Inv (s.drop i) :=
  h.work fun w hw => h.handled w (List.mem_of_mem_eraseIdx hw)

theorem Setup.Inv.setPhase (h : c.Inv s) {i message : ℕ} {phase : Phase} (hfits : c.Fits s ⟨message, phase⟩) :
    c.Inv (s.setPhase i message phase) := by
  refine h.work fun w hw => ?_
  rcases List.mem_or_eq_of_mem_set hw with hw | rfl
  · exact h.handled w hw
  · exact hfits

theorem Setup.Inv.handling (h : c.Inv s) {i : ℕ} {w : Handling} (hw : s.handlings[i]? = some w) : c.Fits s w :=
  h.handled w (List.mem_of_getElem? hw)

theorem Setup.Inv.send (h : c.Inv s) (body : String) :
    c.Inv { s with bodies := s.bodies ++ [body], queue := s.queue ++ [s.bodies.length] } := by
  have hgrows : Grows s { s with bodies := s.bodies ++ [body], queue := s.queue ++ [s.bodies.length] } := by
    refine ⟨fun m old hm => ?_, fun _ hp => hp, fun _ hp => hp, fun _ he => he⟩
    exact (List.getElem?_append_left (List.getElem?_eq_some_iff.mp hm).1).trans hm
  refine ⟨fun w hw => (h.handled w hw).mono hgrows, fun m hm => ?_, h.remembered, h.shown⟩
  have hlength : m < s.bodies.length + 1 := lt_of_lt_of_eq hm List.length_append
  by_cases hold : m < s.bodies.length
  · rcases h.kept m hold with hq | hd | hdealt
    · exact .inl (List.mem_append_left _ hq)
    · exact .inr (.inl hd)
    · exact .inr (.inr (hdealt.mono hgrows))
  · obtain rfl : m = s.bodies.length := by omega
    exact .inl (List.mem_append_right _ (List.mem_singleton_self _))

theorem Setup.fits_phaseOf {message : ℕ} {body : String} (hbody : s.bodies[message]? = some body) :
    c.Fits s ⟨message, c.phaseOf body⟩ := by
  unfold Setup.phaseOf
  split
  · next hnone => exact ⟨body, hbody, fun job hjob => nomatch hnone.symm.trans hjob⟩
  · next job hjob => exact ⟨body, hbody, hjob⟩

/-- The agent is shown what memory holds of the conversation. -/
theorem Setup.Inv.recent (h : c.Inv s) {job : QuestionJob} (hcommand : job.command = none) :
    c.Shown s.consulted job (recentTurns s.turns job.conversationId job.customerCode c.historyTurns) := by
  refine ⟨hcommand, recentTurns_length _ _, fun said hsaid => ?_⟩
  obtain ⟨t, ht, hconversation, hcustomer, rfl⟩ := mem_recentTurns hsaid
  obtain ⟨e, he, hconversation', hcustomer', hanswer⟩ := h.remembered t ht
  exact ⟨e, he, hconversation'.symm.trans hconversation, hcustomer'.symm.trans hcustomer, hanswer⟩

/-- A consultation is added: what came before the others stays before them. -/
theorem Setup.Inv.consult (h : c.Inv s) {job : QuestionJob} {history : List Said}
    (hshown : c.Shown s.consulted job history) (k : Conclusion) :
    c.Inv { s with turns := s.turns ++ (concluded job history k).turns,
                   consulted := s.consulted ++ [(concluded job history k).consulted] } := by
  have hgrows : Grows s { s with turns := s.turns ++ (concluded job history k).turns,
                                 consulted := s.consulted ++ [(concluded job history k).consulted] } :=
    ⟨fun _ _ hm => hm, fun _ hp => hp, fun _ hp => hp, fun _ he => List.mem_append_left _ he⟩
  refine ⟨fun w hw => (h.handled w hw).mono hgrows, fun m hm => ?_, fun t ht => ?_, fun before e after heq => ?_⟩
  · exact (h.kept m hm).imp_right (Or.imp_right (Setup.Dealt.mono hgrows))
  · rcases List.mem_append.mp ht with ht | ht
    · obtain ⟨e, he, hrest⟩ := h.remembered t ht
      exact ⟨e, List.mem_append_left _ he, hrest⟩
    · obtain ⟨hconversation, hcustomer, hanswer⟩ := concluded_turns ht
      refine ⟨_, List.mem_append_right _ (List.mem_singleton_self _), ?_⟩
      rw [concluded_job]
      exact ⟨hconversation, hcustomer, hanswer⟩
  · rcases List.eq_nil_or_concat after with rfl | ⟨rest, last, rfl⟩
    · obtain ⟨rfl, hlast⟩ := List.append_inj' heq rfl
      obtain rfl := (List.singleton_inj.mp hlast)
      rw [concluded_job, concluded_history]
      exact hshown
    · rw [List.concat_eq_append, ← List.cons_append, ← List.append_assoc] at heq
      exact h.shown before e rest (List.append_inj' heq rfl).1

/-- The edge has taken more answers, and turned more away. -/
theorem Setup.Inv.reach (h : c.Inv s) (taken gone : List AnswerPayload) :
    c.Inv { s with edge := s.edge ++ taken, refused := s.refused ++ gone } := by
  have hgrows : Grows s { s with edge := s.edge ++ taken, refused := s.refused ++ gone } :=
    ⟨fun _ _ hm => hm, fun _ hp => List.mem_append_left _ hp, fun _ hp => List.mem_append_left _ hp, fun _ he => he⟩
  exact ⟨fun w hw => (h.handled w hw).mono hgrows,
    fun m hm => (h.kept m hm).imp_right (Or.imp_right (Setup.Dealt.mono hgrows)), h.remembered, h.shown⟩

/-- A message that is dealt with may go. -/
theorem Setup.Inv.remove (h : c.Inv s) {message : ℕ} (hdealt : c.Dealt s message) :
    c.Inv { s with queue := s.queue.filter (· ≠ message) } := by
  refine ⟨h.handled, fun m hm => ?_, h.remembered, h.shown⟩
  by_cases heq : m = message
  · exact .inr (.inr (heq ▸ hdealt))
  · refine (h.kept m hm).imp_left fun hq => ?_
    exact List.mem_filter.mpr ⟨hq, decide_eq_true heq⟩

theorem Setup.Inv.bury (h : c.Inv s) (message : ℕ) :
    c.Inv { s with queue := s.queue.filter (· ≠ message), deadLetters := s.deadLetters ++ [message] } := by
  refine ⟨h.handled, fun m hm => ?_, h.remembered, h.shown⟩
  by_cases heq : m = message
  · exact .inr (.inl (List.mem_append_right _ (List.mem_singleton.mpr heq)))
  · rcases h.kept m hm with hq | hd | hdealt
    · exact .inl (List.mem_filter.mpr ⟨hq, decide_eq_true heq⟩)
    · exact .inr (.inl (List.mem_append_left _ hd))
    · exact .inr (.inr hdealt)

/-- **Every step keeps what holds of the runs.** -/
theorem Setup.Inv.step (h : c.Inv s) {a : Action} (hs : c.step s a = some s') : c.Inv s' := by
  cases a with
  | send body =>
    obtain rfl := Option.some.inj hs
    exact h.send body
  | receive message =>
    unfold Setup.step at hs
    dsimp only at hs
    split at hs
    · obtain ⟨body, hbody, rfl⟩ := Option.map_eq_some_iff.mp hs
      refine h.work fun w hw => ?_
      rcases List.mem_append.mp hw with hw | hw
      · exact h.handled w hw
      · obtain rfl := List.mem_singleton.mp hw
        exact Setup.fits_phaseOf hbody
    · cases hs
  | load i o =>
    unfold Setup.step at hs
    dsimp only at hs
    split at hs
    · next message job hw =>
      have hjob := h.handling hw
      split at hs
      · next payload hopened =>
        obtain rfl := Option.some.inj hs
        exact h.setPhase ⟨hjob, opened_answers hopened⟩
      · next history hopened =>
        obtain rfl := Option.some.inj hs
        obtain ⟨hcommand, rfl⟩ := opened_shown hopened
        exact h.setPhase ⟨hjob, h.recent hcommand⟩
    · cases hs
  | conclude i k =>
    unfold Setup.step at hs
    dsimp only at hs
    split at hs
    · next message job history hw =>
      obtain ⟨hjob, hshown⟩ := h.handling hw
      obtain rfl := Option.some.inj hs
      exact (h.consult hshown k).setPhase ⟨hjob, concluded_answers k⟩
    · cases hs
  | post i requests =>
    unfold Setup.step at hs
    dsimp only at hs
    split at hs
    · next message job payload hw =>
      obtain ⟨⟨body, hbody, hparse⟩, hanswers⟩ := h.handling hw
      -- Where the handling ends in a deletion, the answer is at the edge or was turned away.
      have hdealt : ∀ t : State, t.bodies = s.bodies → payload ∈ t.edge ∨ payload ∈ t.refused → c.Dealt t message := by
        intro t hbodies hat
        refine ⟨body, hbodies ▸ hbody, fun job' hparse' => ?_⟩
        obtain rfl := Option.some.inj (hparse.symm.trans hparse')
        exact ⟨payload, hanswers, hat⟩
      split at hs
      · next hposted =>
        obtain rfl := Option.some.inj hs
        have hreach := h.reach (List.replicate (postFrom requests 1 c.attempts).2 payload) []
        rw [List.append_nil] at hreach
        refine hreach.setPhase (hdealt _ rfl (.inl (List.mem_append_right _ ?_)))
        exact List.mem_replicate.mpr ⟨(postFrom_delivered 1 hposted).ne', rfl⟩
      · obtain rfl := Option.some.inj hs
        refine (h.reach (List.replicate (postFrom requests 1 c.attempts).2 payload) [payload]).setPhase ?_
        exact hdealt _ rfl (.inr (List.mem_append_right _ (List.mem_singleton_self _)))
      · obtain rfl := Option.some.inj hs
        have hreach := h.reach (List.replicate (postFrom requests 1 c.attempts).2 payload) []
        rw [List.append_nil] at hreach
        exact hreach.drop i
    · cases hs
  | delete i ok =>
    unfold Setup.step at hs
    dsimp only at hs
    split at hs
    · next message hw =>
      have hdealt : c.Dealt s message := h.handling hw
      obtain rfl := Option.some.inj hs
      split
      · exact (h.drop i).remove hdealt
      · exact h.drop i
    · cases hs
  | die i =>
    unfold Setup.step at hs
    dsimp only at hs
    split at hs
    · obtain rfl := Option.some.inj hs
      exact h.drop i
    · cases hs
  | bury message =>
    unfold Setup.step at hs
    dsimp only at hs
    split at hs
    · obtain rfl := Option.some.inj hs
      exact h.bury message
    · cases hs
  | purge customerCode =>
    obtain rfl := Option.some.inj hs
    exact ⟨h.handled, h.kept, fun t ht => h.remembered t (List.mem_filter.mp ht).1, h.shown⟩

theorem Setup.inv_run {as : List Action} (hrun : c.run noQuestions as = some s) : c.Inv s :=
  foldlM_induct (fun _ _ _ h hs => h.step hs) as (inv_noQuestions c) hrun

end Steps

/-! ## §8. No question is lost, and none is shown elsewhere. -/

/-- **A message that has left the queue has been dealt with.**  Whatever the order of the steps, however often it was
handed out, and wherever those who handled it died. -/
theorem answered_or_kept (c : Setup) {as : List Action} {s : State} (hrun : c.run noQuestions as = some s) {m : ℕ}
    {body : String} (hbody : s.bodies[m]? = some body) :
    m ∈ s.queue ∨ m ∈ s.deadLetters ∨ c.parse body = none ∨
      ∃ job, c.parse body = some job ∧ ∃ p : AnswerPayload, p.answers job ∧ (p ∈ s.edge ∨ p ∈ s.refused) := by
  have hm : m < s.bodies.length := (List.getElem?_eq_some_iff.mp hbody).1
  rcases (Setup.inv_run hrun).kept m hm with hq | hd | ⟨body', hbody', hjob⟩
  · exact .inl hq
  · exact .inr (.inl hd)
  · obtain rfl := Option.some.inj (hbody.symm.trans hbody')
    cases hparse : c.parse body with
    | none => exact .inr (.inr (.inl rfl))
    | some job => exact .inr (.inr (.inr ⟨job, rfl, hjob job hparse⟩))

/-- **The agent is shown its own conversation only.**  In every run, each turn it is shown was asked, or answered,
in an earlier consultation of the same conversation and customer; no action runs the agent. -/
theorem history_own (c : Setup) {as : List Action} {s : State} (hrun : c.run noQuestions as = some s)
    {before after : List Consultation} {e : Consultation} (hsplit : s.consulted = before ++ e :: after) :
    e.job.command = none ∧ e.history.length ≤ c.historyTurns.toNat ∧ ∀ said ∈ e.history, IsOwn before e.job said := by
  obtain ⟨hcommand, hfew, hown⟩ := (Setup.inv_run hrun).shown before e after hsplit
  exact ⟨hcommand, hfew, hown⟩

/-- Every body is a question of one conversation. -/
def oneChat : Setup := ⟨fun body => some ⟨"job", "A", "chat", body, none⟩, 20, 3⟩

def ready : Opening := ⟨.ok true, none, .ok ()⟩

def saying (text : String) (now : ℕ) : Conclusion := ⟨.ok ⟨some text, []⟩, none, now⟩

def handed : List Action := [.send "late?", .receive 0, .load 0 ready, .conclude 0 (saying "no" 1)]

def answeredOnce : List Action := handed ++ [.post 0 fun _ => .status 200 true, .delete 0 true]

theorem answered_or_kept_once : ∃ s, oneChat.run noQuestions answeredOnce = some s ∧
    ∃ p : AnswerPayload, p.jobId = "job" ∧ (p ∈ s.edge ∨ p ∈ s.refused) := by
  refine ⟨_, rfl, ?_⟩
  rcases @answered_or_kept oneChat answeredOnce _ rfl 0 _ rfl with hq | hd | hnone | ⟨job, hjob, p, hp, hat⟩
  · cases hq
  · cases hd
  · cases hnone
  · cases hjob
    exact ⟨p, hp.1, hat⟩

/-- The process dies before the answer is posted, and the message is handed out again. -/
def handedTwice : List Action :=
  handed ++ [.die 0, .receive 0, .load 0 ready, .conclude 0 (saying "no" 2)]

theorem history_own_again : ∃ s first second, oneChat.run noQuestions handedTwice = some s ∧
    s.consulted = [first] ++ [second] ∧ ∀ said ∈ second.history, IsOwn [first] second.job said :=
  ⟨_, _, _, rfl, rfl, (@history_own oneChat handedTwice _ rfl [_] [] _ rfl).2.2⟩

end RagPipeline.Teams.Questions
