import HttpEcho.Proofs.Connection.Course
import HttpEcho.Proofs.Head.Grammar

/-!
# One response for one request

The octets that a connection receives are divided into those of its requests. A request is a
complete head and what the body that it announces takes up, to its end (`IsRequest`); only of the
last one some octets may be missing or refused. A turn sends no more final responses than there are
requests whose octets it takes up, and what it leaves is what the phase after it still has to answer
(`Connection.answers_step`).
-/

namespace HttpEcho

/-- The octets of a request whose head is complete and whose body has been read up to `body`. -/
def Begun (s : Settings) (body : Body) (octets : Bytes) : Prop :=
  ∃ head size framing, Head.parse s.maxHeaderSize octets = .ok (head, size) ∧
    head.framing = .ok framing ∧
      (Body.ofFraming framing s.maxBodySize).Takes (octets.drop size) body

/-- The octets of exactly one request. -/
def IsRequest (s : Settings) (octets : Bytes) : Prop :=
  ∃ body, Begun s body octets ∧ body.phase = .done

section Division

variable {s : Settings} {body : Body} {octets : Bytes}

/-- A head begins a request of whose body nothing has been read. -/
theorem begun_take {buffer : Bytes} {head : Head} {size : Nat} {framing : Framing}
    (h : Head.parse s.maxHeaderSize buffer = .ok (head, size))
    (hframing : head.framing = .ok framing) :
    Begun s (.ofFraming framing s.maxBodySize) (buffer.take size) := by
  obtain ⟨t, rest, rfl, rfl, hsize, rfl⟩ := Head.exists_wire_of_parse h
  have hparse := Head.parse_wire_append t s.maxHeaderSize []
  rw [if_neg (by omega), List.append_nil] at hparse
  rw [List.take_left]
  refine ⟨t.head, t.wire.length, framing, hparse, hframing, ?_⟩
  rw [List.drop_length]
  exact .nil

theorem Begun.ne_nil (h : Begun s body octets) : octets ≠ [] := by
  obtain ⟨head, size, framing, hparse, -⟩ := h
  have hsize := Head.parse_consumed hparse
  rintro rfl
  rw [List.length_nil] at hsize
  omega

/-- The body goes on. -/
theorem Begun.append {last : Body} {more : Bytes} (h : Begun s body octets)
    (hmore : body.Takes more last) : Begun s last (octets ++ more) := by
  obtain ⟨head, size, framing, hparse, hframing, htakes⟩ := h
  obtain ⟨t, rest, rfl, rfl, hsize, rfl⟩ := Head.exists_wire_of_parse hparse
  refine ⟨t.head, t.wire.length, framing, ?_, hframing, ?_⟩
  · rw [List.append_assoc, Head.parse_wire_append, if_neg (by omega)]
  · rw [List.drop_left] at htakes
    rw [List.append_assoc, List.drop_left]
    exact htakes.trans hmore

end Division

/-- Octets divided into those of one request after the other. -/
inductive Requests (s : Settings) : List Bytes → Prop
  | nil : Requests s []
  /-- The last request, of whose head at least one octet is there. -/
  | last {octets : Bytes} : octets ≠ [] → Requests s [octets]
  | cons {octets : Bytes} {requests : List Bytes} :
      IsRequest s octets → Requests s requests → Requests s (octets :: requests)

theorem Requests.append {s : Settings} {requests requests' : List Bytes}
    (h : ∀ octets ∈ requests, IsRequest s octets) (h' : Requests s requests') :
    Requests s (requests ++ requests') := by
  induction requests with
  | nil => exact h'
  | cons octets requests ih =>
    obtain ⟨hfirst, hrest⟩ := List.forall_mem_cons.1 h
    exact .cons hfirst (ih hrest)

namespace Connection

/-- Whether an action sends a final response. -/
def Action.isFinal : Action → Bool
  | .send octets => octets ≠ continueResponse
  | _ => false

/-- The octets that arrive with an input. -/
def Input.arrived : Input → Bytes
  | .octets arrived => arrived
  | _ => []

/-- The octets that a phase still has to answer. -/
def Phase.Owes (s : Settings) : Phase → Bytes → Prop
  | .idle .., left => left = []
  | .head _ buffer, left => left = buffer ∧ buffer ≠ []
  | .body x buffer, left => ∃ begun, Begun s x.body begun ∧ left = begun ++ buffer
  | .ended _, _ => True

/-- Octets are divided into requests and what a phase still has to answer. As long as something is
awaited, every request so far is complete. -/
def Phase.Divides (s : Settings) (phase : Phase) (octets : Bytes) (requests : List Bytes) : Prop :=
  Requests s requests ∧ ∃ left, octets = requests.flatten ++ left ∧
    ((∀ ending, phase ≠ .ended ending) →
      (∀ octets ∈ requests, IsRequest s octets) ∧ phase.Owes s left)

/-- A turn sends at most one final response for each request among the octets. -/
def Turn.Answers (s : Settings) (turn : Turn) (octets : Bytes) : Prop :=
  ∃ requests, turn.phase.Divides s octets requests ∧
    turn.actions.countP Action.isFinal ≤ requests.length

/-- The same of what an exchange leads to: before the next request, one request is answered. -/
def Settled.Answers (s : Settings) (octets : Bytes) : Settled → Prop
  | .turn t => t.Answers s octets
  | .next actions left => actions.countP Action.isFinal ≤ 1 ∧
    ∃ request, IsRequest s request ∧ octets = request ++ left

section Turns

variable {s : Settings} {now : Nat} {stopping : Bool}

theorem countP_logs (notices : List Notice) :
    (notices.map Action.log).countP Action.isFinal = 0 := by
  rw [List.countP_map]
  exact List.countP_eq_zero.2 fun _ _ => Bool.false_ne_true

/-- A turn after which nothing is awaited may send one response to octets that are there. -/
theorem answers_of_ended {turn : Turn} {octets : Bytes} {ending : Ending}
    (hphase : turn.phase = .ended ending) (hoctets : octets ≠ [])
    (hcount : turn.actions.countP Action.isFinal ≤ 1) : turn.Answers s octets := by
  refine ⟨[octets], ⟨.last hoctets, [], ?_, ?_⟩, hcount⟩
  · rw [List.flatten_singleton, List.append_nil]
  · intro hgoing
    exact absurd hphase (hgoing ending)

/-- A turn without a final response leaves everything to the phase after it. -/
theorem answers_of_owes {turn : Turn} {octets : Bytes} (howes : turn.phase.Owes s octets)
    (hcount : turn.actions.countP Action.isFinal = 0) : turn.Answers s octets :=
  ⟨[], ⟨.nil, octets, rfl, fun _ => ⟨List.forall_mem_nil _, howes⟩⟩, Nat.le_of_eq hcount⟩

/-- Actions without a final response count for nothing. -/
theorem Turn.Answers.after {turn : Turn} {octets : Bytes} {actions : List Action}
    (h : turn.Answers s octets) (hcount : actions.countP Action.isFinal = 0) :
    (turn.after actions).Answers s octets := by
  obtain ⟨requests, hdivides, hle⟩ := h
  refine ⟨requests, hdivides, ?_⟩
  rw [Turn.after, List.countP_append, hcount, Nat.zero_add]
  exact hle

/-- One request is answered, and a turn answers what follows it. -/
theorem Turn.Answers.after_request {turn : Turn} {request rest : Bytes} {actions : List Action}
    (h : turn.Answers s rest) (hrequest : IsRequest s request)
    (hcount : actions.countP Action.isFinal ≤ 1) :
    (turn.after actions).Answers s (request ++ rest) := by
  obtain ⟨requests, ⟨hrequests, left, hleft, hgoing⟩, hle⟩ := h
  refine ⟨request :: requests, ⟨.cons hrequest hrequests, left, ?_, ?_⟩, ?_⟩
  · rw [List.flatten_cons, List.append_assoc, ← hleft]
  · intro hphase
    obtain ⟨hall, howes⟩ := hgoing hphase
    exact ⟨List.forall_mem_cons.2 ⟨hrequest, hall⟩, howes⟩
  · rw [Turn.after, List.countP_append, List.length_cons]
    omega

theorem countP_reject (notice : Notice) (status : Status) (message : String) :
    (reject notice status message).actions.countP Action.isFinal ≤ 1 := by
  rw [reject, finish, List.countP_cons_of_neg Bool.false_ne_true, List.countP_cons,
    List.countP_cons_of_neg Bool.false_ne_true, List.countP_nil]
  split <;> decide

theorem answers_reject {notice : Notice} {status : Status} {message : String} {octets : Bytes}
    (hoctets : octets ≠ []) : (reject notice status message).Answers s octets :=
  answers_of_ended rfl hoctets (countP_reject _ _ _)

/-- Actions without a final response count for nothing before the next request either. -/
theorem Settled.Answers.after {settled : Settled} {octets : Bytes} {actions : List Action}
    (h : settled.Answers s octets) (hcount : actions.countP Action.isFinal = 0) :
    (settled.after actions).Answers s octets := by
  cases settled with
  | turn t => exact Turn.Answers.after h hcount
  | next more left =>
    obtain ⟨hmore, hleft⟩ := h
    refine ⟨?_, hleft⟩
    rw [List.countP_append, hcount, Nat.zero_add]
    exact hmore

/-- Going on answers all octets if serving answers those that are left. -/
theorem Settled.Answers.goOn {settled : Settled} {octets : Bytes}
    (h : settled.Answers s octets)
    (hserve : ∀ actions rest, settled = .next actions rest → rest ≠ [] →
      (serve s now stopping (now + s.headersTimeout) rest).Answers s rest) :
    (settled.goOn s now stopping).Answers s octets := by
  cases settled with
  | turn t => exact h
  | next actions rest =>
    obtain ⟨hcount, request, hrequest, rfl⟩ := h
    cases rest with
    | nil =>
      -- one request is answered, and nothing follows it
      refine ⟨[request], ⟨.cons hrequest .nil, [], ?_, fun _ => ⟨?_, rfl⟩⟩, hcount⟩
      · rw [List.flatten_singleton]
      · exact List.forall_mem_singleton.2 hrequest
    | cons b rest =>
      have hrest := hserve actions (b :: rest) rfl (List.cons_ne_nil b rest)
      exact hrest.after_request hrequest hcount

/-- What the body takes up of a buffer belongs to the request that has begun. -/
theorem answers_settle {head : Head} {x : Exchange} {begun buffer : Bytes}
    (hbegun : Begun s x.body begun) :
    (settle s stopping head (x.feed buffer)).Answers s (begun ++ buffer) := by
  obtain ⟨used, hused, htakes⟩ := x.takes_feed buffer
  have hoctets : begun ++ buffer ≠ [] := List.append_ne_nil_of_left_ne_nil hbegun.ne_nil _
  have hsplit : begun ++ buffer = begun ++ used ++ (x.feed buffer).rest := by
    rw [List.append_assoc, hused]
  have hlogs := countP_logs (x.feed buffer).notices
  cases hprogress : (x.feed buffer).progress with
  | waiting y =>
    rw [hprogress] at htakes
    rw [settle_of_waiting hprogress]
    exact answers_of_owes ⟨begun ++ used, hbegun.append htakes, hsplit⟩ hlogs
  -- after a refusal nothing is awaited, and the request takes all octets
  | refused error =>
    rw [settle_of_refused hprogress]
    exact (answers_reject hoctets).after hlogs
  | answered response =>
    rw [hprogress] at htakes
    obtain ⟨last, hlast, hdone⟩ := htakes
    have hcount : ((x.feed buffer).notices.map Action.log ++
        [Action.send (encodeResponse s stopping head response)]).countP Action.isFinal ≤ 1 := by
      rw [List.countP_append, hlogs, Nat.zero_add]
      exact List.countP_le_length
    -- what is left begins the next request, unless the connection closes
    by_cases hopen : keepsOpen s stopping head
    · rw [settle_of_keepsOpen hprogress hopen]
      exact ⟨hcount, begun ++ used, ⟨last, hbegun.append hlast, hdone⟩, hsplit⟩
    · rw [settle_of_not_keepsOpen hprogress hopen]
      refine answers_of_ended rfl hoctets ?_
      rw [Turn.after, List.countP_append]
      exact hcount

theorem countP_announce (head : Head) (framing : Framing) :
    (announce head framing).countP Action.isFinal = 0 := by
  rw [announce, List.countP_cons_of_neg Bool.false_ne_true]
  split
  · rw [List.countP_singleton, Action.isFinal, decide_eq_false (not_not_intro rfl)]
    rfl
  · rfl

/-- An accepted head begins a request, which is answered at most once. -/
theorem answers_answer {buffer : Bytes} {head : Head} {size : Nat}
    (hparse : Head.parse s.maxHeaderSize buffer = .ok (head, size)) (hne : buffer ≠ []) :
    (answer s stopping head (buffer.drop size)).Answers s buffer := by
  rcases answer_cases s head (buffer.drop size) with
    ⟨framing, hframing, hanswer⟩ | ⟨_, _, _, -, hanswer⟩
  · have hbegun : Begun s (Exchange.start s.echo s.maxBodySize head framing).body
        (buffer.take size) :=
      begun_take hparse hframing
    have hsettle : (settle s stopping head
        ((Exchange.start s.echo s.maxBodySize head framing).feed (buffer.drop size))).Answers s
          (buffer.take size ++ buffer.drop size) :=
      answers_settle hbegun
    rw [List.take_append_drop] at hsettle
    rw [hanswer]
    exact hsettle.after (countP_announce head framing)
  · rw [hanswer]
    exact (answers_reject hne).after rfl

/-- **The requests in a buffer** are answered one after the other, each of them at most once. -/
theorem answers_serve (deadline : Nat) (buffer : Bytes) :
    buffer ≠ [] → (serve s now stopping deadline buffer).Answers s buffer := by
  induction deadline, buffer using serve_induction with
  | incomplete deadline buffer hparse =>
    intro hne
    rw [serve_of_incomplete hparse]
    exact answers_of_owes ⟨rfl, hne⟩ rfl
  | refused deadline buffer error hparse herror =>
    intro hne
    rw [serve_of_error hparse herror]
    exact answers_reject hne
  | request deadline buffer head size hparse ih =>
    intro hne
    rw [serve_of_ok hparse]
    exact (answers_answer hparse hne).goOn ih

/-- Going on with a body answers what came of its request before and what is at hand. -/
theorem answers_resume {x : Exchange} {begun buffer : Bytes}
    (hbegun : Begun s x.body begun) :
    (resume s now stopping x buffer).Answers s (begun ++ buffer) := by
  rw [resume_eq_goOn]
  refine (answers_settle hbegun).goOn ?_
  exact fun _ rest _ => answers_serve _ rest

/-- **A step answers what it takes up.** The octets that the phase owed an answer and those that
arrive are divided into requests, with at most one final response for each of them. -/
theorem answers_step {phase : Phase} {input : Input} {owed : Bytes}
    (howes : phase.Owes s owed) (hinput : input ≠ .octets []) :
    (step s now stopping phase input).Answers s (owed ++ input.arrived) := by
  cases phase with
  | idle first deadline =>
    obtain rfl : owed = [] := howes
    cases input with
    | octets octets =>
      exact answers_serve _ octets fun hnil => hinput (hnil ▸ rfl)
    | endOfInput | failure | deadline | stop => exact answers_of_owes trivial rfl
  | head deadline buffer =>
    obtain ⟨rfl, hne⟩ := howes
    have hoctets : ∀ more, owed ++ more ≠ [] :=
      fun more => List.append_ne_nil_of_left_ne_nil hne more
    cases input with
    | octets octets => exact answers_serve deadline _ (hoctets octets)
    | endOfInput | failure => exact answers_of_owes trivial rfl
    | deadline => exact answers_reject (hoctets [])
    | stop => exact answers_of_owes ⟨List.append_nil owed, hne⟩ rfl
  | body x buffer =>
    obtain ⟨begun, hbegun, rfl⟩ := howes
    cases input with
    | octets octets =>
      rw [List.append_assoc]
      exact answers_resume hbegun
    | endOfInput | failure => exact answers_of_owes trivial rfl
    | deadline | stop => exact answers_of_owes ⟨begun, hbegun, List.append_nil _⟩ rfl
  | ended ending => exact answers_of_owes trivial rfl

end Turns

end Connection

end HttpEcho
