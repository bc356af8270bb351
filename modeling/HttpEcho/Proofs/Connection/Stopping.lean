import HttpEcho.Proofs.Connection.Deadlines

/-!
# Turns after a stop

Whether the server has been told to stop makes a difference to a turn in one place only: where a
response would keep the connection open. A turn after a stop is the turn that would be taken without
it, or does the same up to the first such response, and sends one that closes in its place
(`Connection.cutsShort_step`). So nothing but go-aheads and responses that close is sent
(`Connection.sendsToClose_step`), and a response that closes is the last thing of its turn but for
the closing (`Connection.Acts.sent_cases`).
-/

namespace HttpEcho

namespace Connection

variable {s : Settings} {now deadline : Nat} {stopping : Bool} {due : Option Nat}
  {actions : List Action} {phase : Phase} {head : Head} {fed : Exchange.Fed} {rest : Bytes}

/-- What is done to close after a response. -/
def Action.IsClosing (action : Action) : Prop :=
  action = .close ∨ action = .log .closingAfterResponse

/-- Every send is a go-ahead or a response that closes. -/
def SendsToClose (actions : List Action) : Prop :=
  ∀ octets, .send octets ∈ actions → octets = continueResponse ∨ Response.Closes octets

/-- The turn that sends a response that closes after some actions. -/
def part (actions : List Action) (octets : Bytes) : Turn :=
  finish (actions ++ [.send octets, .log .closingAfterResponse, .close])

/-- A turn is the same as another one, or does the same up to a response that keeps the connection
open, and parts there. -/
inductive Turn.CutsShort : Turn → Turn → Prop
  | same {turn : Turn} : CutsShort turn turn
  | cut {turn : Turn} {common more : List Action} {closing kept : Bytes} :
      turn.actions = common ++ .send kept :: more → CutsShort (part common closing) turn

/-- An exchange leads to the same turn as otherwise, or parts where it would go on. -/
inductive Settled.CutsShort : Settled → Settled → Prop
  | same {turn : Turn} : CutsShort (.turn turn) (.turn turn)
  | cut {common : List Action} {closing kept rest : Bytes} :
      CutsShort (.turn (part common closing)) (.next (common ++ [.send kept]) rest)

/-- What an exchange leads to sends nothing but go-aheads and responses that close, and does not go
on. -/
inductive Settled.SendsToClose : Settled → Prop
  | turn {turn : Turn} : Connection.SendsToClose turn.actions → SendsToClose (.turn turn)

/-! ### What is sent -/

theorem SendsToClose.nil : SendsToClose [] := fun _ h => nomatch h

theorem SendsToClose.append {actions' : List Action} (h : SendsToClose actions)
    (h' : SendsToClose actions') : SendsToClose (actions ++ actions') := by
  intro octets hmem
  exact (List.mem_append.1 hmem).elim (h octets) (h' octets)

theorem sendsToClose_logs (notices : List Notice) : SendsToClose (notices.map .log) := by
  intro octets hmem
  obtain ⟨notice, -, heq⟩ := List.mem_map.1 hmem
  cases heq

theorem sendsToClose_announce (head : Head) (framing : Framing) :
    SendsToClose (announce head framing) := by
  intro octets hmem
  unfold announce at hmem
  split at hmem
  · rcases List.mem_cons.1 hmem with hlog | hsend
    · cases hlog
    · exact .inl (Action.send.inj (List.mem_singleton.1 hsend))
  · cases List.mem_singleton.1 hmem

theorem sendsToClose_reject (notice : Notice) (status : Status) (message : String) :
    SendsToClose (reject notice status message).actions := by
  intro octets hmem
  rcases List.mem_cons.1 hmem with hlog | hmem
  · cases hlog
  rcases List.mem_cons.1 hmem with hsend | hmem
  · exact .inr ⟨.error status message, false, Action.send.inj hsend⟩
  · cases List.mem_singleton.1 hmem

theorem Settled.SendsToClose.after {settled : Settled} {front : List Action}
    (h : settled.SendsToClose) (hfront : Connection.SendsToClose front) :
    (settled.after front).SendsToClose := by
  obtain ⟨hturn⟩ := h
  exact .turn (hfront.append hturn)

theorem Settled.SendsToClose.goOn {settled : Settled} (h : settled.SendsToClose) :
    Connection.SendsToClose (settled.goOn s now stopping).actions := by
  obtain ⟨hturn⟩ := h
  exact hturn

/-- After a stop no connection stays open. -/
theorem not_keepsOpen_of_stopping : ¬ keepsOpen s true head := by
  rw [keepsOpen, Bool.not_true, Bool.and_false]
  exact Bool.false_ne_true

/-- What is sent for a body after a stop closes the connection. -/
theorem sendsToClose_settle : (settle s true head fed).SendsToClose := by
  have hlogs := sendsToClose_logs fed.notices
  cases hprogress : fed.progress with
  | waiting exchange =>
    rw [settle_of_waiting hprogress]
    exact .turn hlogs
  | refused error =>
    rw [settle_of_refused hprogress]
    exact .turn (hlogs.append (sendsToClose_reject _ _ _))
  | answered response =>
    rw [settle_of_not_keepsOpen hprogress not_keepsOpen_of_stopping]
    refine .turn (.append (hlogs.append fun octets hmem => ?_) fun octets hmem => ?_)
    · refine .inr ⟨response, head.method = .head, ?_⟩
      rw [Action.send.inj (List.mem_singleton.1 hmem), encodeResponse,
        if_neg not_keepsOpen_of_stopping]
    · rcases List.mem_cons.1 hmem with hlog | hmem
      · cases hlog
      · cases List.mem_singleton.1 hmem

/-- The answer to a request after a stop closes the connection. -/
theorem sendsToClose_answer : (answer s true head rest).SendsToClose := by
  have hlog : SendsToClose [.log (.request head.method.token head.target)] :=
    sendsToClose_logs [_]
  rcases answer_cases s head rest with ⟨framing, -, hanswer⟩ | ⟨_, _, _, -, hanswer⟩
  · rw [hanswer]
    exact sendsToClose_settle.after (sendsToClose_announce head framing)
  · rw [hanswer]
    exact .turn (hlog.append (sendsToClose_reject _ _ _))

/-- What is sent for the requests in a buffer after a stop closes the connection. -/
theorem sendsToClose_serve (deadline : Nat) (buffer : Bytes) :
    SendsToClose (serve s now true deadline buffer).actions := by
  cases hparse : Head.parse s.maxHeaderSize buffer with
  | ok parsed =>
    rw [serve_of_ok hparse]
    exact sendsToClose_answer.goOn
  | error error =>
    by_cases hne : error = .incomplete
    · rw [serve_of_incomplete (hne ▸ hparse)]
      exact .nil
    · rw [serve_of_error hparse hne]
      exact sendsToClose_reject _ _ _

/-- **After a stop** nothing but go-aheads and responses that close is sent. -/
theorem sendsToClose_step (phase : Phase) (input : Input) :
    SendsToClose (step s now true phase input).actions := by
  cases phase with
  | idle first deadline =>
    cases input with
    | octets octets => exact sendsToClose_serve _ octets
    | failure kind => exact .nil
    | endOfInput | deadline | stop => exact sendsToClose_logs [_]
  | head deadline buffer =>
    cases input with
    | octets octets => exact sendsToClose_serve deadline _
    | failure kind | stop => exact .nil
    | endOfInput => exact sendsToClose_logs [_]
    | deadline => exact sendsToClose_reject _ _ _
  | body exchange buffer =>
    cases input with
    | octets octets =>
      rw [step, resume_eq_goOn]
      exact sendsToClose_settle.goOn
    | failure kind | deadline | stop => exact .nil
    | endOfInput => exact sendsToClose_logs [_]
  | ended ending => exact .nil

/-- No response of actions that close keeps the connection open. -/
theorem SendsToClose.not_keepsOpen {octets : Bytes} (h : SendsToClose actions)
    (hmem : .send octets ∈ actions) : ¬ Response.KeepsOpen octets := by
  intro hopen
  rcases h octets hmem with hgo | hcloses
  · exact hopen.ne_continueResponse hgo
  · exact hopen.not_closes hcloses

/-! ### Where a turn is cut short -/

theorem Settled.CutsShort.after {settled settled' : Settled} (h : settled.CutsShort settled')
    (front : List Action) : (settled.after front).CutsShort (settled'.after front) := by
  cases h with
  | same => exact .same
  | @cut common closing kept rest =>
    have hparts : (part common closing).after front = part (front ++ common) closing :=
      congrArg (Turn.mk · _) (List.append_assoc _ _ _).symm
    rw [Settled.after, Settled.after, hparts, ← List.append_assoc]
    exact .cut

theorem Settled.CutsShort.goOn {settled settled' : Settled} (h : settled.CutsShort settled') :
    (settled.goOn s now true).CutsShort (settled'.goOn s now stopping) := by
  cases h with
  | same => exact .same
  | @cut common closing kept rest =>
    cases rest with
    | nil => exact .cut rfl
    | cons b rest => exact .cut (List.append_assoc common _ _)

/-- What is done for a body after a stop is the same, or cut short. -/
theorem cutsShort_settle : (settle s true head fed).CutsShort (settle s false head fed) := by
  cases hprogress : fed.progress with
  | waiting exchange =>
    rw [settle_of_waiting hprogress, settle_of_waiting hprogress]
    exact .same
  | refused error =>
    rw [settle_of_refused hprogress, settle_of_refused hprogress]
    exact .same
  | answered response =>
    rw [settle_of_not_keepsOpen hprogress not_keepsOpen_of_stopping, Turn.after, finish,
      List.append_assoc]
    by_cases hopen : keepsOpen s false head
    · rw [settle_of_keepsOpen hprogress hopen]
      exact .cut
    · -- the connection closes in either case
      have hencode : encodeResponse s true head response =
          encodeResponse s false head response := by
        rw [encodeResponse, encodeResponse, if_neg not_keepsOpen_of_stopping, if_neg hopen]
      rw [settle_of_not_keepsOpen hprogress hopen, Turn.after, finish, List.append_assoc, hencode]
      exact .same

/-- The answer to a request after a stop is the same, or cut short. -/
theorem cutsShort_answer : (answer s true head rest).CutsShort (answer s false head rest) := by
  rcases answer_cases s head rest with ⟨framing, -, hanswer⟩ | ⟨_, _, _, -, hanswer⟩
  · rw [hanswer, hanswer]
    exact cutsShort_settle.after _
  · rw [hanswer, hanswer]
    exact .same

/-- What is done for the requests in a buffer after a stop is the same, or cut short. -/
theorem cutsShort_serve (deadline : Nat) (buffer : Bytes) :
    (serve s now true deadline buffer).CutsShort (serve s now false deadline buffer) := by
  cases hparse : Head.parse s.maxHeaderSize buffer with
  | ok parsed =>
    rw [serve_of_ok hparse, serve_of_ok hparse]
    exact cutsShort_answer.goOn
  | error error =>
    by_cases hne : error = .incomplete
    · rw [serve_of_incomplete (hne ▸ hparse), serve_of_incomplete (hne ▸ hparse)]
      exact .same
    · rw [serve_of_error hparse hne, serve_of_error hparse hne]
      exact .same

/-- A stop makes no difference to what is done when something else than octets comes. -/
theorem step_of_not_octets {input : Input} (phase : Phase) (stopping' : Bool)
    (hinput : ∀ octets, input ≠ .octets octets) :
    step s now stopping phase input = step s now stopping' phase input := by
  cases input with
  | octets octets => exact absurd rfl (hinput octets)
  | endOfInput | failure kind | deadline | stop => cases phase <;> rfl

/-- **A stop cuts a turn short**, if it makes a difference to it. -/
theorem cutsShort_step (phase : Phase) (input : Input) :
    (step s now true phase input).CutsShort (step s now false phase input) := by
  by_cases hinput : ∀ octets, input ≠ .octets octets
  · rw [step_of_not_octets phase false hinput]
    exact .same
  obtain ⟨octets, hoctets⟩ := Classical.not_forall.1 hinput
  obtain rfl := Classical.not_not.1 hoctets
  cases phase with
  | idle first deadline => exact cutsShort_serve _ octets
  | head deadline buffer => exact cutsShort_serve deadline _
  | body exchange buffer =>
    rw [step, step, resume_eq_goOn, resume_eq_goOn]
    exact cutsShort_settle.goOn
  | ended ending => exact .same

/-! ### After a response that closes -/

/-- Only the closing comes after the response in a rejection. -/
theorem back_of_reject {notice : Notice} {status : Status} {message : String}
    {front back : List Action} {octets : Bytes}
    (h : (reject notice status message).actions = front ++ .send octets :: back) :
    back = [.close] := by
  obtain - | ⟨action, front⟩ := front
  · cases (List.cons.inj h).1
  have hsend := (List.cons.inj h).2
  obtain - | ⟨action, front⟩ := front
  · exact (List.cons.inj hsend).2.symm
  have hclose := (List.cons.inj hsend).2
  obtain - | ⟨action, front⟩ := front
  · cases (List.cons.inj hclose).1
  · exact absurd (List.cons.inj hclose).2.symm
      (List.append_ne_nil_of_right_ne_nil _ (List.cons_ne_nil _ _))

/-- What is sent in a turn is a go-ahead or a response that keeps the connection open, or there is
only the closing after it. -/
theorem Acts.sent_cases (h : Acts s now due actions phase) {front back : List Action}
    {octets : Bytes} (hactions : actions = front ++ .send octets :: back) :
    octets = continueResponse ∨ Response.KeepsOpen octets ∨
      (∀ action ∈ back, action.IsClosing) ∧ phase = .ended .closed := by
  induction h generalizing front with
  | wait | body => exact absurd hactions.symm (List.append_ne_nil_of_right_ne_nil _ nofun)
  | refuse =>
    refine .inr (.inr ⟨?_, rfl⟩)
    rw [back_of_reject hactions]
    exact List.forall_mem_singleton.2 (.inl rfl)
  | accept _ ih | note _ _ ih =>
    obtain - | ⟨action, front⟩ := front
    · cases (List.cons.inj hactions).1
    · exact ih (List.cons.inj hactions).2
  | goAhead _ ih =>
    obtain - | ⟨action, front⟩ := front
    · exact .inl (Action.send.inj (List.cons.inj hactions).1).symm
    · exact ih (List.cons.inj hactions).2
  | idle hopen =>
    obtain - | ⟨action, front⟩ := front
    · exact .inr (.inl (Action.send.inj (List.cons.inj hactions).1 ▸ hopen))
    · exact absurd (List.cons.inj hactions).2.symm
        (List.append_ne_nil_of_right_ne_nil _ (List.cons_ne_nil _ _))
  | next hopen _ ih =>
    obtain - | ⟨action, front⟩ := front
    · exact .inr (.inl (Action.send.inj (List.cons.inj hactions).1 ▸ hopen))
    · exact ih (List.cons.inj hactions).2
  | @close _ closing _ hclosing =>
    obtain - | ⟨action, front⟩ := front
    · obtain ⟨-, rfl⟩ := List.cons.inj hactions
      exact .inr (.inr ⟨hclosing, rfl⟩)
    · -- nothing is sent after it
      have htail : closing = front ++ .send octets :: back := (List.cons.inj hactions).2
      rcases hclosing (.send octets) (htail ▸ List.mem_append_cons_self) with hclose | hlog
      · cases hclose
      · cases hlog

/-- The same holds of a turn that something else than octets brings about. -/
theorem sent_cases_of_not_octets {input : Input} {front back : List Action} {octets : Bytes}
    (hinput : ∀ octets, input ≠ .octets octets)
    (hactions : (step s now stopping phase input).actions = front ++ .send octets :: back) :
    (∀ action ∈ back, action.IsClosing) ∧
      (step s now stopping phase input).phase = .ended .closed := by
  obtain ⟨notice, hlog, -⟩ | ⟨-, rfl, deadline, buffer, rfl⟩ :=
    action_cases_of_not_octets hinput (hactions ▸ List.mem_append_cons_self)
  · cases hlog
  · refine ⟨?_, rfl⟩
    rw [back_of_reject hactions]
    exact List.forall_mem_singleton.2 (.inl rfl)

end Connection

end HttpEcho
