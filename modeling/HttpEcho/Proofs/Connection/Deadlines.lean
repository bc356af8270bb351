import HttpEcho.Proofs.Connection.Course

/-!
# Deadlines of a connection

`Connection.Acts` is the grammar of a turn: what may be done at one time, and in which order, from a
point at which the head of a request is due or a request is being answered, and which phase it leads
to. A head is accepted only where one is due; after each response the next one is due within the
headers timeout; and a turn ends with a deadline only if it began with that deadline and has done
nothing, or has just sent a response. Every turn that octets bring about is of this form
(`Connection.acts_step`).
-/

namespace HttpEcho

/-- A response on the wire that reports a timeout. -/
def Response.IsTimeout (octets : Bytes) : Prop :=
  ∃ (r : Response) (p : Persistence) (headOnly : Bool), r.status = .requestTimeout ∧
    octets = r.encode p headOnly

/-- The status of a response can be read off the wire. -/
theorem Response.status_eq_of_encode_eq {r r' : Response} {p p' : Persistence}
    {headOnly headOnly' : Bool} (h : r.encode p headOnly = r'.encode p' headOnly') :
    r.status = r'.status := by
  have hline := (lines_eq_of_encode_eq h).1
  revert hline
  cases r.status <;> cases r'.status <;> first | exact fun _ => rfl | decide +kernel

/-- A response with another status does not report a timeout. -/
theorem Response.not_isTimeout_encode {r : Response} (h : r.status ≠ .requestTimeout)
    (p : Persistence) (headOnly : Bool) : ¬ IsTimeout (r.encode p headOnly) := by
  rintro ⟨r', p', headOnly', hstatus, hencode⟩
  exact h ((status_eq_of_encode_eq hencode).trans hstatus)

/-- A response that keeps the connection open does not report a timeout. -/
theorem Response.KeepsOpen.not_isTimeout {octets : Bytes} (h : KeepsOpen octets) :
    ¬ IsTimeout octets := by
  obtain ⟨r, idle, headOnly, hstatus, hoctets⟩ := h
  have hne : r.status ≠ .requestTimeout := by
    rcases hstatus with hstatus | hstatus
    all_goals
      rw [hstatus]
      exact nofun
  exact hoctets ▸ not_isTimeout_encode hne (.keepAlive idle) headOnly

/-- The go-ahead does not report a timeout. -/
theorem Response.not_isTimeout_continueResponse : ¬ IsTimeout continueResponse := by
  rintro ⟨r, p, headOnly, -, hencode⟩
  exact encode_ne_continueResponse r p headOnly hencode.symm

/-- A notice says that a head was accepted. -/
def Notice.isRequest : Notice → Bool
  | .request .. => true
  | _ => false

namespace Connection

variable {s : Settings} {now deadline : Nat} {stopping : Bool} {due : Option Nat}
  {actions : List Action} {phase : Phase}

/-- What may be done at one time, from a point at which a head is due or a request is being
answered, and the phase after it. -/
inductive Acts (s : Settings) (now : Nat) : Option Nat → List Action → Phase → Prop
  /-- More of the head is waited for. -/
  | wait {deadline : Nat} {buffer : Bytes} (hne : buffer ≠ []) :
      Acts s now (some deadline) [] (.head deadline buffer)
  /-- The head is refused. -/
  | refuse {deadline : Nat} {error : ProtocolError} :
      Acts s now (some deadline) (reject (.parseFailed error) error.status error.report).actions
        (.ended .closed)
  /-- The head is accepted. -/
  | accept {deadline : Nat} {method target : String} {actions : List Action} {phase : Phase} :
      Acts s now none actions phase →
        Acts s now (some deadline) (.log (.request method target) :: actions) phase
  /-- Something is noted about a request. -/
  | note {notice : Notice} {actions : List Action} {phase : Phase} (hnotice : ¬ notice.isRequest) :
      Acts s now none actions phase → Acts s now none (.log notice :: actions) phase
  /-- The go-ahead is sent. -/
  | goAhead {actions : List Action} {phase : Phase} :
      Acts s now none actions phase → Acts s now none (.send continueResponse :: actions) phase
  /-- More of the body is waited for. -/
  | body {exchange : Exchange} {buffer : Bytes} : Acts s now none [] (.body exchange buffer)
  /-- The response is sent, and nothing more is there. -/
  | idle {octets : Bytes} (hopen : Response.KeepsOpen octets) :
      Acts s now none [.send octets] (.idle false (now + s.keepAliveTimeout))
  /-- The response is sent, and something of the next request is there. -/
  | next {octets : Bytes} {actions : List Action} {phase : Phase}
      (hopen : Response.KeepsOpen octets) :
      Acts s now (some (now + s.headersTimeout)) actions phase →
        Acts s now none (.send octets :: actions) phase
  /-- A response that closes is sent. -/
  | close {octets : Bytes} {closing : List Action} (hoctets : ¬ Response.IsTimeout octets)
      (hclosing : ∀ action ∈ closing, action = .close ∨ action = .log .closingAfterResponse) :
      Acts s now none (.send octets :: closing) (.ended .closed)

/-- Actions that lead on to a point of a turn. -/
def Fronts (s : Settings) (now : Nat) (due : Option Nat) (front : List Action)
    (due' : Option Nat) : Prop :=
  ∀ actions phase, Acts s now due' actions phase → Acts s now due (front ++ actions) phase

/-- What an exchange leads to is a turn, or goes on after a response. -/
def Settled.Acts (s : Settings) (now : Nat) (due : Option Nat) : Settled → Prop
  | .turn t => Connection.Acts s now due t.actions t.phase
  | .next actions _ =>
    Connection.Acts s now due actions (.idle false (now + s.keepAliveTimeout)) ∧
      Fronts s now due actions (some (now + s.headersTimeout))

/-! ### Turns -/

theorem Fronts.trans {due' due'' : Option Nat} {front front' : List Action}
    (h : Fronts s now due front due') (h' : Fronts s now due' front' due'') :
    Fronts s now due (front ++ front') due'' := by
  intro actions phase hacts
  rw [List.append_assoc]
  exact h _ _ (h' _ _ hacts)

theorem fronts_notes {notices : List Notice} (h : ∀ notice ∈ notices, ¬ notice.isRequest) :
    Fronts s now none (notices.map .log) none := by
  intro actions phase hacts
  induction notices with
  | nil => exact hacts
  | cons notice notices ih =>
    obtain ⟨hnotice, hnotices⟩ := List.forall_mem_cons.1 h
    exact .note hnotice (ih hnotices)

theorem fronts_announce (head : Head) (framing : Framing) :
    Fronts s now (some deadline) (announce head framing) none := by
  intro actions phase hacts
  refine .accept ?_
  split
  · exact .goAhead hacts
  · exact hacts

theorem Settled.Acts.after {settled : Settled} {due' : Option Nat} {front : List Action}
    (h : settled.Acts s now due') (hfront : Fronts s now due front due') :
    (settled.after front).Acts s now due := by
  cases settled with
  | turn t => exact hfront _ _ h
  | next actions rest => exact ⟨hfront _ _ h.1, hfront.trans h.2⟩

theorem Settled.Acts.goOn {settled : Settled} (h : settled.Acts s now due)
    (hserve : ∀ actions rest, settled = .next actions rest → rest ≠ [] →
      Connection.Acts s now (some (now + s.headersTimeout))
        (serve s now stopping (now + s.headersTimeout) rest).actions
          (serve s now stopping (now + s.headersTimeout) rest).phase) :
    Connection.Acts s now due (settled.goOn s now stopping).actions
      (settled.goOn s now stopping).phase := by
  cases settled with
  | turn t => exact h
  | next actions rest =>
    cases rest with
    | nil => exact h.1
    | cons b rest => exact h.2 _ _ (hserve actions (b :: rest) rfl (List.cons_ne_nil b rest))

/-- A request is rejected with an error other than a timeout. -/
theorem acts_reject {notice : Notice} {status : Status} {message : String}
    (hnotice : ¬ notice.isRequest) (hstatus : status ≠ .requestTimeout) :
    Acts s now none (reject notice status message).actions
      (reject notice status message).phase := by
  refine .note hnotice (.close (Response.not_isTimeout_encode hstatus _ _) ?_)
  exact List.forall_mem_singleton.2 (.inl rfl)

/-- What is done for a body may be done while a request is being answered. -/
theorem acts_settle {head : Head} {fed : Exchange.Fed}
    (hnotices : ∀ notice ∈ fed.notices, ¬ notice.isRequest)
    (h : ∀ response, fed.progress = .answered response →
      response.status = .ok ∨ response.status = .badRequest) :
    (settle s stopping head fed).Acts s now none := by
  have hnotes : Fronts s now none (fed.notices.map .log) none := fronts_notes hnotices
  cases hprogress : fed.progress with
  | waiting exchange =>
    rw [settle_of_waiting hprogress, Settled.Acts, ← List.append_nil (fed.notices.map _)]
    exact hnotes _ _ .body
  | refused error =>
    rw [settle_of_refused hprogress]
    refine hnotes _ _ (acts_reject (fun h => nomatch h) ?_)
    cases error <;> exact nofun
  | answered response =>
    have hstatus := h response hprogress
    by_cases hopen : keepsOpen s stopping head
    · have hkeeps : Response.KeepsOpen (encodeResponse s stopping head response) := by
        refine ⟨response, .ofMilliseconds s.keepAliveTimeout, head.method = .head, hstatus, ?_⟩
        rw [encodeResponse, if_pos hopen]
      rw [settle_of_keepsOpen hprogress hopen]
      exact ⟨hnotes _ _ (.idle hkeeps), hnotes.trans fun _ _ => .next hkeeps⟩
    · have hoctets : ¬ Response.IsTimeout (encodeResponse s stopping head response) := by
        refine Response.not_isTimeout_encode (fun htimeout => ?_) _ _
        rw [htimeout] at hstatus
        rcases hstatus with hok | hbad
        · cases hok
        · cases hbad
      rw [settle_of_not_keepsOpen hprogress hopen, Settled.Acts, Turn.after, List.append_assoc]
      refine hnotes _ _ (.close hoctets ?_)
      exact List.forall_mem_cons.2 ⟨.inr rfl, List.forall_mem_singleton.2 (.inl rfl)⟩

theorem not_isRequest_of_mem_respond {head : Head} {echo : EchoPolicy} {maxBodySize : Nat}
    {chunks : List Bytes} :
    ∀ notice ∈ (Exchange.respond head echo maxBodySize chunks).1, ¬ notice.isRequest := by
  unfold Exchange.respond
  split
  · dsimp only
    split
    · exact List.forall_mem_nil _
    · exact List.forall_mem_singleton.2 nofun
  cases echo with
  | firstChunk => exact List.forall_mem_nil _
  | full =>
    dsimp only
    unfold Exchange.echoFull
    split
    · split <;> exact List.forall_mem_singleton.2 nofun
    · exact List.forall_mem_nil _

/-- Reading a body is no reason to note that a head was accepted. -/
theorem not_isRequest_of_mem_feed {x : Exchange} {buffer : Bytes} :
    ∀ notice ∈ (x.feed buffer).notices, ¬ notice.isRequest := by
  induction x, buffer using Exchange.feed_induction with
  | chunk x buffer octets hchunk ih =>
    rw [Exchange.feed_chunk hchunk]
    refine List.forall_mem_append.2 ⟨?_, ih⟩
    unfold Exchange.noticeOfChunk
    split
    · exact List.forall_mem_nil _
    · exact List.forall_mem_singleton.2 nofun
  | stop x buffer hstop =>
    cases houtcome : (x.body.advance buffer).outcome with
    | chunk octets => exact absurd houtcome (hstop octets)
    | wait =>
      rw [Exchange.feed_wait houtcome]
      exact List.forall_mem_nil _
    | refused error =>
      rw [Exchange.feed_refused houtcome]
      exact List.forall_mem_nil _
    | complete =>
      rw [Exchange.feed_complete houtcome]
      exact not_isRequest_of_mem_respond

theorem Refusal.not_isRequest {head : Head} {notice : Notice} {status : Status} {message : String}
    (h : Refusal s head notice status message) : ¬ notice.isRequest := by
  cases h <;> exact Bool.false_ne_true

/-- No request is refused as late. -/
theorem Refusal.status_ne_requestTimeout {head : Head} {notice : Notice} {status : Status}
    {message : String} (h : Refusal s head notice status message) : status ≠ .requestTimeout := by
  cases h with
  | @framing error _ => cases error <;> exact nofun
  | tooLarge => exact nofun

/-- An accepted head is noted, and its request answered or rejected. -/
theorem acts_answer {head : Head} {rest : Bytes} :
    (answer s stopping head rest).Acts s now (some deadline) := by
  rcases answer_cases s head rest with ⟨framing, -, hanswer⟩ | ⟨_, _, _, hrefusal, hanswer⟩
  · rw [hanswer]
    exact (acts_settle not_isRequest_of_mem_feed fun _ => Exchange.status_of_feed).after
      (fronts_announce head framing)
  · rw [hanswer]
    exact .accept (acts_reject hrefusal.not_isRequest hrefusal.status_ne_requestTimeout)

/-- What is done for the requests in a buffer may be done where a head is due. -/
theorem acts_serve (deadline : Nat) (buffer : Bytes) : buffer ≠ [] →
    Acts s now (some deadline) (serve s now stopping deadline buffer).actions
      (serve s now stopping deadline buffer).phase := by
  induction deadline, buffer using serve_induction with
  | incomplete deadline buffer hparse =>
    intro hne
    rw [serve_of_incomplete hparse]
    exact .wait hne
  | refused deadline buffer error hparse hne =>
    intro _
    rw [serve_of_error hparse hne]
    exact .refuse
  | request deadline buffer head size hparse ih =>
    intro _
    rw [serve_of_ok hparse]
    exact acts_answer.goOn ih

/-- What is done for more of a body may be done while a request is being answered. -/
theorem acts_resume {exchange : Exchange} {buffer : Bytes} :
    Acts s now none (resume s now stopping exchange buffer).actions
      (resume s now stopping exchange buffer).phase := by
  rw [resume_eq_goOn]
  refine (acts_settle not_isRequest_of_mem_feed fun _ => Exchange.status_of_feed).goOn ?_
  exact fun _ rest _ hne => acts_serve _ rest hne

/-- By when the head has to be complete that octets are read for at a time, if any. -/
def Phase.due? (s : Settings) (now : Nat) : Phase → Option Nat
  | .idle first deadline => some (if first then deadline else now + s.headersTimeout)
  | .head deadline _ => some deadline
  | .body .. | .ended _ => none

/-- **A turn that octets bring about** serves the head that is due, or goes on with a body. -/
theorem acts_step {octets : Bytes} (hphase : ∀ ending, phase ≠ .ended ending)
    (hne : octets ≠ []) :
    Acts s now (phase.due? s now) (step s now stopping phase (.octets octets)).actions
      (step s now stopping phase (.octets octets)).phase := by
  cases phase with
  | idle first deadline => exact acts_serve _ octets hne
  | head deadline buffer =>
    exact acts_serve deadline (buffer ++ octets) (mt List.append_eq_nil_iff.1 fun h => hne h.2)
  | body exchange buffer => exact acts_resume
  | ended ending => exact absurd rfl (hphase ending)

/-- When something other than octets comes, nothing is sent unless it is the deadline of a head, and
no head is accepted. -/
theorem action_cases_of_not_octets {input : Input} {action : Action}
    (hinput : ∀ octets, input ≠ .octets octets)
    (h : action ∈ (step s now stopping phase input).actions) :
    (∃ notice, action = .log notice ∧ ¬ notice.isRequest) ∨
      (∀ notice, action ≠ .log notice) ∧ input = .deadline ∧
        ∃ deadline buffer, phase = .head deadline buffer := by
  cases phase with
  | idle first deadline =>
    cases input with
    | octets octets => exact absurd rfl (hinput octets)
    | failure kind => cases h
    | endOfInput | deadline | stop => exact .inl ⟨_, List.mem_singleton.1 h, nofun⟩
  | head deadline buffer =>
    cases input with
    | octets octets => exact absurd rfl (hinput octets)
    | failure kind | stop => cases h
    | endOfInput => exact .inl ⟨_, List.mem_singleton.1 h, nofun⟩
    | deadline =>
      rcases List.mem_cons.1 h with rfl | h
      · exact .inl ⟨_, rfl, nofun⟩
      refine .inr ⟨?_, rfl, deadline, buffer, rfl⟩
      rcases List.mem_cons.1 h with rfl | h
      · exact nofun
      · exact List.mem_singleton.1 h ▸ nofun
  | body exchange buffer =>
    cases input with
    | octets octets => exact absurd rfl (hinput octets)
    | failure kind | deadline | stop => cases h
    | endOfInput => exact .inl ⟨_, List.mem_singleton.1 h, nofun⟩
  | ended ending => cases h

/-! ### What the grammar says -/

/-- A response that was sent earlier in a turn is still before what comes later. -/
theorem exists_response_cons {action : Action} {front : List Action}
    (h : ∃ front' octets, Response.KeepsOpen octets ∧ front = front' ++ [.send octets]) :
    ∃ front' octets, Response.KeepsOpen octets ∧ action :: front = front' ++ [.send octets] := by
  obtain ⟨front', octets, hopen, rfl⟩ := h
  exact ⟨action :: front', octets, hopen, rfl⟩

/-- A head is accepted at the beginning of a turn, if one is due, or after a response. -/
theorem Acts.accept_cases (h : Acts s now due actions phase) {front back : List Action}
    {notice : Notice} (hactions : actions = front ++ .log notice :: back)
    (hnotice : notice.isRequest) :
    (front = [] ∧ ∃ deadline, due = some deadline) ∨
      ∃ front' octets, Response.KeepsOpen octets ∧ front = front' ++ [.send octets] := by
  induction h generalizing front with
  | wait | body => exact absurd hactions.symm (List.append_ne_nil_of_right_ne_nil _ nofun)
  | refuse =>
    -- what is logged for a refusal is no request
    have hmem : .log notice ∈ front ++ .log notice :: back := List.mem_append_cons_self
    rw [← hactions] at hmem
    rcases List.mem_cons.1 hmem with hnote | hmem
    · cases hnote
      cases hnotice
    · exact absurd hmem nofun
  | close _ hclosing =>
    have hmem : .log notice ∈ front ++ .log notice :: back := List.mem_append_cons_self
    rw [← hactions] at hmem
    rcases List.mem_cons.1 hmem with hsend | hmem
    · cases hsend
    rcases hclosing _ hmem with hclose | hlog
    · cases hclose
    · cases hlog
      cases hnotice
  | idle =>
    have hmem : .log notice ∈ front ++ .log notice :: back := List.mem_append_cons_self
    rw [← hactions] at hmem
    cases List.mem_singleton.1 hmem
  | @accept deadline _ _ _ _ _ ih =>
    cases front with
    | nil => exact .inl ⟨rfl, deadline, rfl⟩
    | cons action front =>
      exact .inr (exists_response_cons ((ih (List.cons.inj hactions).2).resolve_left nofun))
  | note hnot _ ih =>
    cases front with
    | nil =>
      cases (List.cons.inj hactions).1
      exact absurd hnotice hnot
    | cons action front =>
      exact .inr (exists_response_cons ((ih (List.cons.inj hactions).2).resolve_left nofun))
  | goAhead _ ih =>
    cases front with
    | nil => cases (List.cons.inj hactions).1
    | cons action front =>
      exact .inr (exists_response_cons ((ih (List.cons.inj hactions).2).resolve_left nofun))
  | @next octets _ _ hopen _ ih =>
    cases front with
    | nil => cases (List.cons.inj hactions).1
    | cons action front =>
      obtain ⟨rfl, htail⟩ := List.cons.inj hactions
      rcases ih htail with ⟨rfl, -⟩ | hsent
      · exact .inr ⟨[], octets, hopen, rfl⟩
      · exact .inr (exists_response_cons hsent)

/-- No response to a request reports a timeout. -/
theorem Acts.not_isTimeout (h : Acts s now due actions phase) {octets : Bytes}
    (hmem : .send octets ∈ actions) : ¬ Response.IsTimeout octets := by
  induction h with
  | wait | body => cases hmem
  | @refuse deadline error =>
    rcases List.mem_cons.1 hmem with hlog | hmem
    · cases hlog
    rcases List.mem_cons.1 hmem with hsend | hmem
    · have hstatus : (Response.error error.status error.report).status ≠ .requestTimeout := by
        cases error <;> exact nofun
      exact Action.send.inj hsend ▸ Response.not_isTimeout_encode hstatus .close false
    · exact absurd hmem nofun
  | accept _ ih | note _ _ ih =>
    rcases List.mem_cons.1 hmem with hlog | hmem
    · cases hlog
    · exact ih hmem
  | goAhead _ ih =>
    rcases List.mem_cons.1 hmem with hsend | hmem
    · cases hsend
      exact Response.not_isTimeout_continueResponse
    · exact ih hmem
  | idle hopen =>
    cases List.mem_singleton.1 hmem
    exact hopen.not_isTimeout
  | next hopen _ ih =>
    rcases List.mem_cons.1 hmem with hsend | hmem
    · cases hsend
      exact hopen.not_isTimeout
    · exact ih hmem
  | close hoctets hclosing =>
    rcases List.mem_cons.1 hmem with hsend | hmem
    · cases hsend
      exact hoctets
    · rcases hclosing _ hmem with hclose | hlog
      · cases hclose
      · cases hlog

/-- The wait for more of a head goes on, or begins with a response. -/
theorem Acts.head_cases {buffer : Bytes} (h : Acts s now due actions (.head deadline buffer)) :
    buffer ≠ [] ∧ (actions = [] ∧ due = some deadline ∨
      deadline = now + s.headersTimeout ∧
        ∃ front octets, Response.KeepsOpen octets ∧ actions = front ++ [.send octets]) := by
  generalize hphase : Phase.head deadline buffer = phase at h
  induction h with
  | wait hne =>
    cases hphase
    exact ⟨hne, .inl ⟨rfl, rfl⟩⟩
  | accept _ ih | note _ _ ih | goAhead _ ih =>
    obtain ⟨hne, ⟨-, hdue⟩ | ⟨hdeadline, hsent⟩⟩ := ih hphase
    · cases hdue
    · exact ⟨hne, .inr ⟨hdeadline, exists_response_cons hsent⟩⟩
  | @next octets _ _ hopen _ ih =>
    obtain ⟨hne, ⟨rfl, hdue⟩ | ⟨hdeadline, hsent⟩⟩ := ih hphase
    · exact ⟨hne, .inr ⟨(Option.some.inj hdue).symm, [], octets, hopen, rfl⟩⟩
    · exact ⟨hne, .inr ⟨hdeadline, exists_response_cons hsent⟩⟩
  | refuse | body | idle | close => cases hphase

/-- The wait for a request begins with a response. -/
theorem Acts.idle_cases {first : Bool} (h : Acts s now due actions (.idle first deadline)) :
    first = false ∧ deadline = now + s.keepAliveTimeout ∧
      ∃ front octets, Response.KeepsOpen octets ∧ actions = front ++ [.send octets] := by
  generalize hphase : Phase.idle first deadline = phase at h
  induction h with
  | accept _ ih | note _ _ ih | goAhead _ ih | next _ _ ih =>
    obtain ⟨hfirst, hdeadline, hsent⟩ := ih hphase
    exact ⟨hfirst, hdeadline, exists_response_cons hsent⟩
  | @idle octets hopen =>
    cases hphase
    exact ⟨rfl, rfl, [], octets, hopen, rfl⟩
  | wait | refuse | body | close => cases hphase

/-- Where a head is due, it is waited for, accepted or refused. -/
theorem Acts.due_cases (h : Acts s now (some deadline) actions phase) :
    (actions = [] ∧ ∃ buffer, phase = .head deadline buffer) ∨
      ∃ notice rest, actions = .log notice :: rest ∧
        (notice.isRequest ∨ ∃ error, notice = .parseFailed error) := by
  cases h with
  | @wait _ buffer => exact .inl ⟨rfl, buffer, rfl⟩
  | @refuse _ error => exact .inr ⟨_, _, rfl, .inr ⟨error, rfl⟩⟩
  | accept => exact .inr ⟨_, _, rfl, .inl rfl⟩

end Connection

end HttpEcho
