import HttpEcho.Proofs.Session.Bounds
import HttpEcho.Proofs.Session.Passages

/-!
# The loops of a session

A session goes through three loops. The outermost one answers a request at each turn
(`Session.requests`); in a turn, one loop reads the head of the request (`Session.heads`), and one
reads its body (`Session.bodies`). The loops for heads and bodies go round after a read that brought
octets, which is one move of the peer at least. The loop for requests may go round without a read,
if the next request is at hand, and a turn with reads may leave more at hand than there was; but the
octets at hand and those that are still to come get fewer at each turn, since a request has a head
(`Session.meets_requestTurn`).

A run is what the three loops together do (`Session.run_converse`).
-/

namespace HttpEcho

open Connection

/-! ### Octets to come -/

namespace Peer

variable {p : Peer} {patience : Patience} {octets : Bytes}

/-- The octets that are still to come. -/
def coming (p : Peer) : Bytes := p.script.flatMap Move.octets

theorem coming_readFrom {script : List Move}
    (h : (readFrom patience script p).result = .ok (.octets octets)) :
    octets ++ (readFrom patience script p).peer.coming = script.flatMap Move.octets := by
  fun_induction readFrom patience script p with
  | case2 sent rest p _ hempty ih =>
    rw [List.flatMap_cons, Move.octets, List.isEmpty_iff.1 hempty]
    exact ih h
  | case3 sent rest p _ _ =>
    obtain rfl := Arrival.octets.inj (Except.ok.inj h)
    rfl
  | case7 ms rest p _ ih | case12 rest p _ _ _ _ ih => exact ih h
  | case1 | case4 | case5 | case6 | case8 | case9 | case10 | case11 => cases h

/-- What a read brings is the beginning of what was to come. -/
theorem coming_read (h : (p.read patience).result = .ok (.octets octets)) :
    octets ++ (p.read patience).peer.coming = p.coming :=
  coming_readFrom h

end Peer

namespace Connection

/-! ### Octets that are left -/

/-- The octets that an exchange left, whatever it leads to. -/
def Settled.left : Settled → Bytes
  | .next _ rest => rest
  | .turn { actions := _, phase := .body _ buffer } => buffer
  | .turn _ => []

theorem Settled.left_after (front : List Action) (settled : Settled) :
    (settled.after front).left = settled.left := by
  rcases settled with ⟨actions, phase⟩ | ⟨actions, rest⟩
  · cases phase <;> rfl
  · rfl

/-- An exchange leaves the end of the buffer. -/
theorem left_settle_suffix (s : Settings) (stopping : Bool) (head : Head) (x : Exchange)
    (buffer : Bytes) : (settle s stopping head (x.feed buffer)).left <:+ buffer := by
  obtain ⟨used, hused, -⟩ := x.takes_feed buffer
  have hrest : (x.feed buffer).rest <:+ buffer := ⟨used, hused⟩
  cases hprogress : (x.feed buffer).progress with
  | waiting x' =>
    rw [settle_of_waiting hprogress]
    exact hrest
  | refused error =>
    rw [settle_of_refused hprogress]
    exact List.nil_suffix
  | answered response =>
    by_cases hopen : keepsOpen s stopping head
    · rw [settle_of_keepsOpen hprogress hopen]
      exact hrest
    · rw [settle_of_not_keepsOpen hprogress hopen]
      exact List.nil_suffix

/-- The answer to a request leaves the end of what follows its head. -/
theorem left_answer_suffix (s : Settings) (stopping : Bool) (head : Head) (rest : Bytes) :
    (answer s stopping head rest).left <:+ rest := by
  obtain ⟨framing, -, hanswer⟩ | ⟨notice, status, message, -, hanswer⟩ := answer_cases s head rest
  · rw [hanswer, Settled.left_after]
    exact left_settle_suffix s stopping head _ rest
  · rw [hanswer]
    exact List.nil_suffix

end Connection

namespace Session

open Passage

variable {s : Settings} {failure? : Option SendFailure} {phase : Phase} {sends deadline : Nat}
  {peer : Peer} {α : Type}

/-! ### Actions and waits -/

/-- What comes of actions, for the session: a send that failed ends it. -/
def Performed.passage (done : Performed) (peer : Peer) : Passage Unit :=
  match done.failure? with
  | some kind =>
    .halt (.ended
      { trace := .stamp peer.now done.events
        ending := some (.failed kind.fault)
        time := peer.now })
  | none => .on (.stamp peer.now done.events) () done.sends peer

/-- Perform actions. -/
def carryOut (failure? : Option SendFailure) (actions : List Action) (sends : Nat) (peer : Peer) :
    Passage Unit :=
  (perform failure? sends actions).passage peer

/-- End a session with the actions of a turn. -/
def conclude (failure? : Option SendFailure) (turn : Turn) (sends : Nat) (peer : Peer) :
    Passage α :=
  (carryOut failure? turn.actions sends peer).bind fun _ _ peer =>
    .halt (.ended { trace := [], ending := ending? turn.phase, time := peer.now })

/-- Wait for octets in a phase. If something else comes, the session is over. -/
def hear (s : Settings) (failure? : Option SendFailure) (phase : Phase) (sends : Nat)
    (peer : Peer) : Passage Bytes :=
  let r := peer.read (patience phase)
  match input? r.result with
  | none => .halt (.blocked [] phase peer)
  | some (.octets octets) => .on r.trace octets sends r.peer
  | some input =>
    let took := take s failure? phase sends r.peer input
    .halt (.ended
      { trace := r.trace ++ took.trace, ending := ending? took.phase, time := r.peer.now })

/-- The run from a turn on that the connection takes now. -/
def runTurn (s : Settings) (failure? : Option SendFailure) (turn : Turn) (sends : Nat)
    (peer : Peer) : Run :=
  (carryOut failure? turn.actions sends peer).toRun fun _ sends peer =>
    runFrom s failure? turn.phase sends peer

theorem Performed.passage_after (done : Performed) (event : Event) (peer : Peer) :
    (done.after event).passage peer = (done.passage peer).after [⟨peer.now, event⟩] := by
  obtain ⟨events, sends, failure?⟩ := done
  cases failure? <;> rfl

/-- Actions are performed one after the other. -/
theorem carryOut_append (failure? : Option SendFailure) (front back : List Action) (sends : Nat)
    (peer : Peer) :
    carryOut failure? (front ++ back) sends peer =
      (carryOut failure? front sends peer).bind fun _ sends peer =>
        carryOut failure? back sends peer := by
  unfold carryOut
  fun_induction perform failure? sends front with
  | case1 sends => exact (after_nil _).symm
  | case2 sends notice rest ih | case3 sends rest ih =>
    rw [List.cons_append, perform, Performed.passage_after, ih, Performed.passage_after, bind_after]
  | case4 sends octets rest f hfails =>
    rw [List.cons_append, perform, hfails]
    rfl
  | case5 sends octets rest hfails ih =>
    rw [List.cons_append, perform, hfails]
    dsimp only
    rw [Performed.passage_after, ih, Performed.passage_after, bind_after]

/-- Carrying out actions leaves the peer as it is, and takes no time. -/
theorem meets_carryOut (failure? : Option SendFailure) (actions : List Action) (sends : Nat)
    (peer : Peer) :
    (carryOut failure? actions sends peer).Meets (fun _ peer' => peer' = peer)
      (Halt.OverBy peer.now) := by
  unfold carryOut Performed.passage
  cases (perform failure? sends actions).failure? with
  | none => rfl
  | some kind => exact ⟨_, rfl, rfl, Nat.le_refl _⟩

theorem runTurn_after (s : Settings) (failure? : Option SendFailure) (turn : Turn)
    (front : List Action) (sends : Nat) (peer : Peer) :
    runTurn s failure? (turn.after front) sends peer =
      (carryOut failure? front sends peer).toRun fun _ sends peer =>
        runTurn s failure? turn sends peer := by
  unfold runTurn Turn.after
  rw [carryOut_append, toRun_bind]

/-- A turn that ends the connection ends the run. -/
theorem toRun_conclude {turn : Turn} {ending : Ending} (h : turn.phase = .ended ending)
    (sends : Nat) (peer : Peer) (next : α → Nat → Peer → Run) :
    (conclude failure? turn sends peer : Passage α).toRun next =
      runTurn s failure? turn sends peer := by
  unfold conclude runTurn
  rw [toRun_bind, h]
  refine congrArg _ (funext₃ fun _ sends peer => ?_)
  rw [runFrom]
  rfl

theorem meets_conclude (failure? : Option SendFailure) (turn : Turn) (sends : Nat) (peer : Peer)
    {post : α → Peer → Prop} :
    (conclude failure? turn sends peer : Passage α).Meets post fun _ => True := by
  unfold conclude
  cases carryOut failure? turn.actions sends peer <;> trivial

/-- The run from a turn on, by how the turn comes out. -/
theorem runTurn_step (s : Settings) (failure? : Option SendFailure) (phase : Phase) (sends : Nat)
    (peer : Peer) (input : Input) :
    runTurn s failure? (step s peer.now peer.isStopping phase input) sends peer =
      (runFrom s failure? (take s failure? phase sends peer input).phase
        (take s failure? phase sends peer input).sends peer).after
          (take s failure? phase sends peer input).trace := by
  unfold runTurn carryOut Performed.passage take
  dsimp only
  cases (perform failure? sends (step s peer.now peer.isStopping phase input).actions).failure? with
  | none => rfl
  | some kind =>
    dsimp only
    rw [runFrom, Run.after, List.append_nil]
    rfl

section Hearing

variable {input : Input} {octets : Bytes} (s failure? sends)

theorem hear_of_forever (h : input? (peer.read (patience phase)).result = none) :
    hear s failure? phase sends peer = .halt (.blocked [] phase peer) := by
  rw [hear, h]

theorem hear_of_octets (h : input? (peer.read (patience phase)).result = some (.octets octets)) :
    hear s failure? phase sends peer =
      .on (peer.read (patience phase)).trace octets sends (peer.read (patience phase)).peer := by
  rw [hear, h]

theorem hear_of_input (h : input? (peer.read (patience phase)).result = some input)
    (hoctets : ∀ octets, input ≠ .octets octets) :
    hear s failure? phase sends peer = .halt (.ended
      { trace := (peer.read (patience phase)).trace ++
          (take s failure? phase sends (peer.read (patience phase)).peer input).trace
        ending := ending? (take s failure? phase sends (peer.read (patience phase)).peer
          input).phase
        time := (peer.read (patience phase)).peer.now }) := by
  rw [hear, h]
  cases input with
  | octets octets => exact absurd rfl (hoctets octets)
  | endOfInput | failure | deadline | stop => rfl

/-- A run from a wait on is a read, and the turn of the connection with the octets that it
brings. -/
theorem runFrom_eq_hear (phase : Phase) (peer : Peer) (hphase : ∀ ending, phase ≠ .ended ending) :
    runFrom s failure? phase sends peer =
      (hear s failure? phase sends peer).toRun fun octets sends peer =>
        runTurn s failure? (step s peer.now peer.isStopping phase (.octets octets)) sends peer := by
  cases hinput : input? (peer.read (patience phase)).result with
  | none =>
    rw [runFrom_of_forever hphase rfl hinput, hear_of_forever s failure? sends hinput]
    rfl
  | some input =>
    by_cases hoctets : ∃ octets, input = .octets octets
    · obtain ⟨octets, rfl⟩ := hoctets
      rw [runFrom_of_octets hphase rfl hinput, hear_of_octets s failure? sends hinput, toRun,
        runTurn_step, Run.after_after]
    · have hnot := fun octets h => hoctets ⟨octets, h⟩
      rw [runFrom_of_input hphase rfl hinput hnot, hear_of_input s failure? sends hinput hnot]
      rfl

/-- What is heard was the next thing to come, and the peer has made a move for it. -/
theorem meets_hear (phase : Phase) (peer : Peer) :
    (hear s failure? phase sends peer).Meets
      (fun octets peer' => octets ++ peer'.coming = peer.coming ∧
        peer'.script.length < peer.script.length) fun _ => True := by
  cases hinput : input? (peer.read (patience phase)).result with
  | none =>
    rw [hear_of_forever s failure? sends hinput]
    trivial
  | some input =>
    by_cases hoctets : ∃ octets, input = .octets octets
    · obtain ⟨octets, rfl⟩ := hoctets
      have hread := input?_eq_octets hinput
      rw [hear_of_octets s failure? sends hinput]
      exact ⟨Peer.coming_read hread, Peer.length_read_script_lt hread⟩
    · rw [hear_of_input s failure? sends hinput fun octets h => hoctets ⟨octets, h⟩]
      trivial

end Hearing

/-! ### Heads -/

/-- A turn of the loop that reads a head: it is at hand, or more is read. -/
def headTurn (s : Settings) (failure? : Option SendFailure) (deadline : Nat) (buffer : Bytes)
    (sends : Nat) (peer : Peer) : Passage (Bytes ⊕ Head × Bytes) :=
  match Head.parse s.maxHeaderSize buffer with
  | .ok (head, size) => .on [] (.inr (head, buffer.drop size)) sends peer
  | .error .incomplete =>
    (hear s failure? (.head deadline buffer) sends peer).map fun octets => .inl (buffer ++ octets)
  | .error error =>
    conclude failure? (reject (.parseFailed error) error.status error.report) sends peer

/-- **A turn that reads a head** takes a move of the peer if the loop goes round, and what it hears
goes behind what is at hand; and if it leaves the loop, the head has taken octets. -/
theorem meets_headTurn (s : Settings) (failure? : Option SendFailure) (deadline : Nat)
    (buffer : Bytes) (sends : Nat) (peer : Peer) :
    (headTurn s failure? deadline buffer sends peer).Meets
      (Sum.elim
        (fun buffer' peer' => buffer' ++ peer'.coming = buffer ++ peer.coming ∧
          peer'.script.length < peer.script.length)
        fun parsed peer' => peer' = peer ∧ parsed.2 <:+ buffer ∧ parsed.2.length < buffer.length)
      fun _ => True := by
  unfold headTurn
  split
  case h_1 head size hparse =>
    obtain ⟨hpos, hle⟩ := Head.parse_consumed hparse
    refine ⟨rfl, List.drop_suffix _ _, ?_⟩
    rw [List.length_drop]
    omega
  case h_2 =>
    refine Meets.map ?_ Halt.keeps_true
    refine (meets_hear s failure? sends _ peer).imp fun octets peer' hheard => ?_
    refine ⟨?_, hheard.2⟩
    rw [List.append_assoc, hheard.1]
  case h_3 => exact meets_conclude _ _ _ _

/-- The loop that reads a head. -/
def heads (s : Settings) (failure? : Option SendFailure) (deadline : Nat) :
    Rounds Bytes (Head × Bytes) where
  turn := headTurn s failure? deadline
  size _ peer := peer.script.length
  falls buffer sends peer := (meets_headTurn s failure? deadline buffer sends peer).imp
    fun _ _ hmeets _ hnext => by subst hnext; exact hmeets.2

/-- A head takes octets of what is at hand and to come. -/
theorem meets_heads (s : Settings) (failure? : Option SendFailure) (deadline : Nat) (buffer : Bytes)
    (sends : Nat) (peer : Peer) :
    ((heads s failure? deadline).run buffer sends peer).Meets
      (fun parsed peer' => parsed.2 ++ peer'.coming <:+ buffer ++ peer.coming ∧
        (parsed.2 ++ peer'.coming).length < (buffer ++ peer.coming).length)
      fun _ => True := by
  refine Rounds.meets_run (heads s failure? deadline)
    (fun buffer' peer' => buffer' ++ peer'.coming = buffer ++ peer.coming)
    Halt.keeps_true (fun buffer' sends peer' hinv => ?_) sends rfl
  refine (meets_headTurn s failure? deadline buffer' sends peer').imp ?_
  rintro (buffer'' | parsed) peer'' hmeets
  · exact hmeets.1.trans hinv
  · obtain ⟨rfl, hsuffix, hlt⟩ := hmeets
    rw [← hinv]
    refine ⟨List.suffix_append_self_iff.2 hsuffix, ?_⟩
    rw [List.length_append, List.length_append]
    exact Nat.add_lt_add_right hlt _

/-- A run that serves octets is the loop that reads a head, and the answer to the request. -/
theorem toRun_heads (s : Settings) (failure? : Option SendFailure) (deadline : Nat) (buffer : Bytes)
    (sends : Nat) (peer : Peer) :
    ((heads s failure? deadline).run buffer sends peer).toRun (fun parsed sends peer =>
        runTurn s failure?
          ((answer s peer.isStopping parsed.1 parsed.2).goOn s peer.now peer.isStopping)
            sends peer) =
      runTurn s failure? (serve s peer.now peer.isStopping deadline buffer) sends peer := by
  refine Rounds.toRun_run (heads s failure? deadline)
    (fun buffer sends peer =>
      runTurn s failure? (serve s peer.now peer.isStopping deadline buffer) sends peer)
    (fun buffer sends peer => ?_) buffer sends peer
  change (headTurn s failure? deadline buffer sends peer).toRun _ = _
  unfold headTurn
  split
  case h_1 head size hparse =>
    rw [serve_of_ok hparse]
    rfl
  case h_2 hparse =>
    rw [serve_of_incomplete hparse, toRun_map]
    exact (runFrom_eq_hear s failure? sends (.head deadline buffer) peer nofun).symm
  case h_3 error hne hparse =>
    rw [serve_of_error hparse hne]
    exact toRun_conclude rfl sends peer _

/-! ### Bodies -/

/-- What an answer to a request leads to. It is never a wait between two requests. -/
structure Answering where
  settled : Settled
  begun?_eq_none : ∀ turn, settled = .turn turn → turn.phase.begun? = none

/-- Begin to answer a request. -/
def Answering.begin (s : Settings) (stopping : Bool) (head : Head) (rest : Bytes) : Answering :=
  ⟨answer s stopping head rest, fun _ => begun?_of_answer_turn⟩

/-- Go on with a body that more octets have arrived for. -/
def Answering.resume (s : Settings) (stopping : Bool) (x : Exchange) (buffer : Bytes) : Answering :=
  ⟨settle s stopping x.head (x.feed buffer), fun _ => begun?_of_settle_turn⟩

/-- What waits neither for a request nor for more of a body is the end of the connection. -/
theorem Answering.exists_ended (a : Answering) {turn : Turn} (hsettled : a.settled = .turn turn)
    (hbody : ∀ actions x buffer, turn ≠ { actions, phase := .body x buffer }) :
    ∃ ending, turn.phase = .ended ending := by
  have hbegun := a.begun?_eq_none turn hsettled
  obtain ⟨actions, phase⟩ := turn
  cases phase with
  | idle | head => cases hbegun
  | body x buffer => exact absurd rfl (hbody actions x buffer)
  | ended ending => exact ⟨ending, rfl⟩

/-- A turn of the loop that reads a body: the request was answered, or more of the body is read. -/
def bodyTurn (s : Settings) (failure? : Option SendFailure) (a : Answering) (sends : Nat)
    (peer : Peer) : Passage (Answering ⊕ Bytes) :=
  match a.settled with
  | .next actions rest => (carryOut failure? actions sends peer).map fun _ => .inr rest
  | .turn { actions, phase := .body x buffer } =>
    (carryOut failure? actions sends peer).bind fun _ sends peer =>
      (hear s failure? (.body x buffer) sends peer).bind fun octets sends peer =>
        .on [] (.inl (.resume s peer.isStopping x (buffer ++ octets))) sends peer
  | .turn turn => conclude failure? turn sends peer

/-- **A turn that reads a body** takes a move of the peer if the loop goes round, and leaves the end
of what was at hand and to come. -/
theorem meets_bodyTurn (s : Settings) (failure? : Option SendFailure) (a : Answering)
    (sends : Nat) (peer : Peer) :
    (bodyTurn s failure? a sends peer).Meets
      (Sum.elim
        (fun a' peer' => a'.settled.left ++ peer'.coming <:+ a.settled.left ++ peer.coming ∧
          peer'.script.length < peer.script.length)
        fun rest peer' => peer' = peer ∧ rest = a.settled.left)
      fun _ => True := by
  have hcarry := fun actions => (meets_carryOut failure? actions sends peer).mono
    (fun _ _ hpeer => hpeer) fun _ _ => trivial
  unfold bodyTurn
  split
  case h_1 actions rest hsettled =>
    rw [hsettled]
    refine Meets.map ?_ Halt.keeps_true
    exact (hcarry actions).imp fun _ _ hpeer => ⟨hpeer, rfl⟩
  case h_2 actions x buffer hsettled =>
    rw [hsettled]
    refine (hcarry actions).bind Halt.keeps_true fun _ sends peer' hpeer => ?_
    subst hpeer
    refine (meets_hear s failure? sends _ peer').bind Halt.keeps_true fun octets _ peer hheard => ?_
    refine ⟨?_, hheard.2⟩
    rw [Settled.left, ← hheard.1, ← List.append_assoc]
    exact List.suffix_append_self_iff.2 (left_settle_suffix s _ _ x _)
  case h_3 turn _ => exact meets_conclude _ _ _ _

/-- The loop that reads a body. -/
def bodies (s : Settings) (failure? : Option SendFailure) : Rounds Answering Bytes where
  turn := bodyTurn s failure?
  size _ peer := peer.script.length
  falls a sends peer := (meets_bodyTurn s failure? a sends peer).imp
    fun _ _ hmeets _ hnext => by subst hnext; exact hmeets.2

/-- Reading a body leaves the end of what is at hand and to come. -/
theorem meets_bodies (s : Settings) (failure? : Option SendFailure) (a : Answering) (sends : Nat)
    (peer : Peer) :
    ((bodies s failure?).run a sends peer).Meets
      (fun rest peer' => rest ++ peer'.coming <:+ a.settled.left ++ peer.coming) fun _ => True := by
  refine Rounds.meets_run (bodies s failure?)
    (fun a' peer' => a'.settled.left ++ peer'.coming <:+ a.settled.left ++ peer.coming)
    Halt.keeps_true (fun a' sends peer' hinv => ?_) sends List.suffix_rfl
  refine (meets_bodyTurn s failure? a' sends peer').imp ?_
  rintro (a'' | rest) peer'' hmeets
  · exact hmeets.1.trans hinv
  · obtain ⟨rfl, rfl⟩ := hmeets
    exact hinv

/-- A run from an answer on is the loop that reads the body, and what comes after the request. -/
theorem toRun_bodies (s : Settings) (failure? : Option SendFailure) (a : Answering) (sends : Nat)
    (peer : Peer) :
    ((bodies s failure?).run a sends peer).toRun (fun rest sends peer =>
        runTurn s failure? ((Settled.next [] rest).goOn s peer.now peer.isStopping) sends peer) =
      runTurn s failure? (a.settled.goOn s peer.now peer.isStopping) sends peer := by
  refine Rounds.toRun_run (bodies s failure?)
    (fun a sends peer =>
      runTurn s failure? (a.settled.goOn s peer.now peer.isStopping) sends peer)
    (fun a sends peer => ?_) a sends peer
  change (bodyTurn s failure? a sends peer).toRun _ = _
  unfold bodyTurn
  split
  case h_1 actions rest hsettled =>
    rw [hsettled, toRun_map, Settled.goOn_next, runTurn_after]
    refine Meets.toRun_congr ((meets_carryOut failure? actions sends peer).imp ?_)
    rintro _ peer' rfl sends'
    rfl
  case h_2 actions x buffer hsettled =>
    rw [hsettled, toRun_bind]
    refine congrArg (toRun _) (funext₃ fun _ sends peer => ?_)
    refine Eq.trans ?_ (runFrom_eq_hear s failure? sends (.body x buffer) peer nofun).symm
    rw [toRun_bind]
    refine congrArg (toRun _) (funext₃ fun octets sends peer => ?_)
    rw [step, resume_eq_goOn]
    rfl
  case h_3 turn hbody hsettled =>
    obtain ⟨ending, hended⟩ := a.exists_ended hsettled hbody
    rw [hsettled]
    exact toRun_conclude hended sends peer _

/-! ### Requests -/

/-- Where the loop for requests stands: whether the session has just begun, and the octets at
hand. -/
structure Lap where
  first : Bool
  buffer : Bytes
  deriving DecidableEq, Repr

/-- When the first octet of a request has to arrive, if none is there at a time. -/
def Lap.idleDeadline (s : Settings) (lap : Lap) (now : Nat) : Nat :=
  now + if lap.first then s.headersTimeout else s.keepAliveTimeout

/-- When a head has to be complete of which the first octet was waited for since one time and is
there at another. -/
def Lap.headDeadline (s : Settings) (lap : Lap) (since now : Nat) : Nat :=
  (if lap.first then since else now) + s.headersTimeout

/-- Wait for the first octet of a request. -/
def awaitRequest (s : Settings) (failure? : Option SendFailure) (lap : Lap) (sends : Nat)
    (peer : Peer) : Passage Bytes :=
  if lap.buffer = [] then hear s failure? (.idle lap.first (lap.idleDeadline s peer.now)) sends peer
  else .on [] lap.buffer sends peer

/-- A turn of the loop for requests: wait for a request, read its head, and answer it, with its
body. -/
def requestTurn (s : Settings) (failure? : Option SendFailure) (lap : Lap) (sends : Nat)
    (peer : Peer) : Passage Bytes :=
  (awaitRequest s failure? lap sends peer).bind fun buffer sends peer' =>
    ((heads s failure? (lap.headDeadline s peer.now peer'.now)).run buffer sends peer').bind
      fun parsed sends peer =>
        (bodies s failure?).run (.begin s peer.isStopping parsed.1 parsed.2) sends peer

/-- **A turn that answers a request** takes at least one octet from the front of what is at hand and
to come, if the loop goes round. -/
theorem meets_requestTurn (s : Settings) (failure? : Option SendFailure) (lap : Lap) (sends : Nat)
    (peer : Peer) :
    (requestTurn s failure? lap sends peer).Meets
      (fun rest peer' => rest ++ peer'.coming <:+ lap.buffer ++ peer.coming ∧
        (rest ++ peer'.coming).length < (lap.buffer ++ peer.coming).length)
      fun _ => True := by
  have hawait : (awaitRequest s failure? lap sends peer).Meets
      (fun buffer peer' => buffer ++ peer'.coming = lap.buffer ++ peer.coming) fun _ => True := by
    unfold awaitRequest
    split
    case isTrue hnil =>
      rw [hnil]
      exact (meets_hear s failure? sends _ peer).imp fun _ _ hheard => hheard.1
    case isFalse => rfl
  refine hawait.bind Halt.keeps_true fun buffer sends peer' hbuffer => ?_
  rw [← hbuffer]
  refine (meets_heads s failure? _ buffer sends peer').bind Halt.keeps_true
    fun parsed sends peer'' hparsed => ?_
  refine (meets_bodies s failure? _ sends peer'').imp fun rest peer hrest => ?_
  have hsuffix := hrest.trans
    (List.suffix_append_self_iff.2 (left_answer_suffix s peer''.isStopping parsed.1 parsed.2))
  exact ⟨hsuffix.trans hparsed.1, Nat.lt_of_le_of_lt hsuffix.length_le hparsed.2⟩

/-- The loop for requests. -/
def requests (s : Settings) (failure? : Option SendFailure) : Rounds Lap Empty where
  turn lap sends peer :=
    (requestTurn s failure? lap sends peer).map fun rest => .inl { first := false, buffer := rest }
  size lap peer := (lap.buffer ++ peer.coming).length
  falls lap sends peer := by
    refine Meets.map ?_ Halt.keeps_true
    refine (meets_requestTurn s failure? lap sends peer).imp fun rest peer' hrest lap' hlap => ?_
    obtain rfl := Sum.inl.inj hlap
    exact hrest.2

/-- How a session halts. -/
def converse (s : Settings) (failure? : Option SendFailure) (peer : Peer) : Halt :=
  ((requests s failure?).run { first := true, buffer := [] } 0 peer).halted

/-- What a connection does at the beginning of a turn of the loop for requests. -/
def Lap.turn (s : Settings) (lap : Lap) (peer : Peer) : Turn :=
  if lap.buffer = [] then
    { actions := [], phase := .idle lap.first (lap.idleDeadline s peer.now) }
  else serve s peer.now peer.isStopping (lap.headDeadline s peer.now peer.now) lap.buffer

/-- A later round begins with what the request before it left. -/
theorem Lap.turn_again (s : Settings) (rest : Bytes) (peer : Peer) :
    (Lap.mk false rest).turn s peer = (Settled.next [] rest).goOn s peer.now peer.isStopping := by
  cases rest <;> rfl

/-- A run from the wait for a request on, by what is at hand then. -/
theorem toRun_awaitRequest (s : Settings) (failure? : Option SendFailure) (lap : Lap) (sends : Nat)
    (peer : Peer) :
    (awaitRequest s failure? lap sends peer).toRun (fun buffer sends peer' =>
        runTurn s failure? (serve s peer'.now peer'.isStopping
          (lap.headDeadline s peer.now peer'.now) buffer) sends peer') =
      runTurn s failure? (lap.turn s peer) sends peer := by
  unfold awaitRequest Lap.turn
  split
  case isTrue hnil =>
    refine Eq.trans ?_ (runFrom_eq_hear s failure? sends (.idle lap.first _) peer nofun).symm
    refine congrArg (toRun _) (funext₃ fun octets sends peer' => ?_)
    rw [step, Lap.idleDeadline, Lap.headDeadline]
    cases lap.first <;> rfl
  case isFalse => rfl

/-- A run is a turn of the loop for requests, and the run from the next turn on. -/
theorem toRun_requestTurn (s : Settings) (failure? : Option SendFailure) (lap : Lap) (sends : Nat)
    (peer : Peer) :
    (requestTurn s failure? lap sends peer).toRun (fun rest sends peer =>
        runTurn s failure? ((Lap.mk false rest).turn s peer) sends peer) =
      runTurn s failure? (lap.turn s peer) sends peer := by
  unfold requestTurn
  rw [toRun_bind, ← toRun_awaitRequest]
  refine congrArg (toRun _) (funext₃ fun buffer sends peer' => ?_)
  rw [toRun_bind, ← toRun_heads]
  refine congrArg (toRun _) (funext₃ fun parsed sends peer => ?_)
  simp only [Lap.turn_again]
  exact toRun_bodies s failure? (.begin s peer.isStopping parsed.1 parsed.2) sends peer

/-- **A run is what the loops of a session do.** -/
theorem run_converse (s : Settings) (failure? : Option SendFailure) (peer : Peer) :
    (converse s failure? peer).run = run s failure? peer := by
  unfold converse
  rw [run_halted _ (fun e => e.elim), Rounds.toRun_run (requests s failure?)
    (fun lap sends peer => runTurn s failure? (lap.turn s peer) sends peer)]
  · rfl
  intro lap sends peer
  exact (toRun_map _ _ _).trans (toRun_requestTurn s failure? lap sends peer)

end Session

end HttpEcho
