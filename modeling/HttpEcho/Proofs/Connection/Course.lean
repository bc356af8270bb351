import HttpEcho.Proofs.Connection.Turns
import HttpEcho.Proofs.Exchange
import HttpEcho.Proofs.Response
import HttpEcho.Session

/-!
# The course of a conversation

A conversation goes through stages. While it goes on, octets are received and responses that keep
the connection open are sent, each of them after a go-ahead or without one. A response that closes
is followed by the closing of the sending side and by nothing else. An end of input and a failure
end a conversation at once.

`Stage.Step` says which event may come at which stage, and `Stage.Path` is a sequence of such
steps. A turn of a connection is such a path, and it leads to a stage that fits the phase after it
(`Connection.fits_step`).
-/

namespace HttpEcho

open Connection (Ending)

/-- Whether an event is a notice, which nobody outside sees. -/
def Event.isNotice : Event → Bool
  | .logged _ => true
  | _ => false

/-- How an event ends a conversation by itself. -/
def Event.ending? : Event → Option Ending
  | .endOfInput => some .closed
  | .readFailed kind | .sendFailed kind => some (.failed kind.fault)
  | _ => none

/-- The events of a trace, notices aside. -/
def Trace.deeds (trace : Trace) : List Event := trace.events.filter (!·.isNotice)

theorem Trace.deeds_cons (stamped : Stamped) (trace : Trace) :
    Trace.deeds (stamped :: trace) =
      if stamped.event.isNotice then trace.deeds else stamped.event :: trace.deeds := by
  rw [deeds, events, List.map_cons, List.filter_cons]
  cases stamped.event.isNotice <;> rfl

/-- Where a conversation stands. -/
inductive Stage where
  /-- It goes on. `promised` says whether a go-ahead was sent and no response since. -/
  | going (promised : Bool)
  /-- The response that closes was sent, at this time. -/
  | parting (time : Nat)
  /-- It came to its end, at this time and in this way. -/
  | done (time : Nat) (ending : Ending)

namespace Stage

/-- What may happen at a stage, and the stage after it. -/
inductive Step : Stage → Stamped → Stage → Prop
  | logged {stage : Stage} {time : Nat} {notice : Notice} : Step stage ⟨time, .logged notice⟩ stage
  | received {promised : Bool} {time move : Nat} :
      Step (.going promised) ⟨time, .received move⟩ (.going promised)
  | stopAsked {promised : Bool} {time : Nat} :
      Step (.going promised) ⟨time, .stopAsked⟩ (.going promised)
  | goAhead {time : Nat} : Step (.going false) ⟨time, .sent continueResponse⟩ (.going true)
  | respond {promised : Bool} {time : Nat} {octets : Bytes} (h : Response.KeepsOpen octets) :
      Step (.going promised) ⟨time, .sent octets⟩ (.going false)
  | part {promised : Bool} {time : Nat} {octets : Bytes} (h : Response.Closes octets) :
      Step (.going promised) ⟨time, .sent octets⟩ (.parting time)
  | closed {time : Nat} : Step (.parting time) ⟨time, .closed⟩ (.done time .closed)
  | endOfInput {promised : Bool} {time : Nat} :
      Step (.going promised) ⟨time, .endOfInput⟩ (.done time .closed)
  | readFailed {promised : Bool} {time : Nat} {kind : FaultKind} :
      Step (.going promised) ⟨time, .readFailed kind⟩ (.done time (.failed kind.fault))
  | sendFailed {promised : Bool} {time : Nat} {kind : FaultKind} :
      Step (.going promised) ⟨time, .sendFailed kind⟩ (.done time (.failed kind.fault))

/-- A trace leads from stage to stage. -/
inductive Path : Stage → Trace → Stage → Prop
  | nil {stage : Stage} : Path stage [] stage
  | cons {stage stage' stage'' : Stage} {event : Stamped} {trace : Trace} :
      Step stage event stage' → Path stage' trace stage'' → Path stage (event :: trace) stage''

namespace Path

variable {stage stage' stage'' : Stage} {trace trace' : Trace}

theorem append (h : Path stage trace stage') (h' : Path stage' trace' stage'') :
    Path stage (trace ++ trace') stage'' := by
  induction h with
  | nil => exact h'
  | cons step _ ih => exact .cons step (ih h')

theorem exists_of_append (h : Path stage (trace ++ trace') stage'') :
    ∃ stage', Path stage trace stage' ∧ Path stage' trace' stage'' := by
  induction trace generalizing stage with
  | nil => exact ⟨stage, .nil, h⟩
  | cons event trace ih =>
    cases h with
    | cons step rest =>
      obtain ⟨stage', hpath, hpath'⟩ := ih rest
      exact ⟨stage', .cons step hpath, hpath'⟩

/-- A path goes through the stage before each of its events and the one after it. -/
theorem exists_step {event : Stamped} (h : Path stage (trace ++ event :: trace') stage'') :
    ∃ before after, Path stage trace before ∧ Step before event after ∧
      Path after trace' stage'' := by
  obtain ⟨before, hbefore, hrest⟩ := exists_of_append h
  cases hrest with
  | cons step hafter => exact ⟨before, _, hbefore, step, hafter⟩

/-- After the end there is nothing but notices. -/
theorem of_done {time : Nat} {ending : Ending} (h : Path (.done time ending) trace stage') :
    stage' = .done time ending ∧ trace.deeds = [] := by
  induction trace with
  | nil =>
    cases h
    exact ⟨rfl, rfl⟩
  | cons event trace ih =>
    cases h with
    | cons step rest =>
      cases step with
      | logged =>
        obtain ⟨hend, hdeeds⟩ := ih rest
        exact ⟨hend, (Trace.deeds_cons _ _).trans hdeeds⟩

/-- After the response that closes there is, notices aside, the closing and nothing else. -/
theorem of_parting {time : Nat} (h : Path (.parting time) trace stage')
    (hdone : stage' ≠ .parting time) :
    stage' = .done time .closed ∧ trace.deeds = [.closed] := by
  induction trace with
  | nil =>
    cases h
    exact absurd rfl hdone
  | cons event trace ih =>
    cases h with
    | cons step rest =>
      cases step with
      | logged =>
        obtain ⟨hend, hdeeds⟩ := ih rest
        exact ⟨hend, (Trace.deeds_cons _ _).trans hdeeds⟩
      | closed =>
        obtain ⟨hend, hdeeds⟩ := of_done rest
        refine ⟨hend, (Trace.deeds_cons _ _).trans ?_⟩
        exact congrArg (Event.closed :: ·) hdeeds

end Path

end Stage

namespace Connection

open Stage

/-! ### Turns -/

/-- The event that an action comes out as. -/
def Action.event : Action → Event
  | .log notice => .logged notice
  | .send octets => .sent octets
  | .close => .closed

/-- Actions at one time lead from stage to stage. -/
def Leads (now : Nat) (stage : Stage) (actions : List Action) (stage' : Stage) : Prop :=
  Path stage (.stamp now (actions.map Action.event)) stage'

/-- A stage fits what a connection waits for. Only with a body a response can be owed. -/
inductive Phase.Fits (now : Nat) : Phase → Stage → Prop
  | idle {first : Bool} {deadline : Nat} : Fits now (.idle first deadline) (.going false)
  | head {deadline : Nat} {buffer : Bytes} : Fits now (.head deadline buffer) (.going false)
  | body {exchange : Exchange} {buffer : Bytes} {promised : Bool} :
      Fits now (.body exchange buffer) (.going promised)
  | ended {ending : Ending} {promised : Bool} : Fits now (.ended ending) (.going promised)
  | done {ending : Ending} : Fits now (.ended ending) (.done now ending)

/-- A turn leads from a stage to one that fits the phase after it. -/
def Turn.Fits (now : Nat) (stage : Stage) (turn : Turn) : Prop :=
  ∃ stage', Leads now stage turn.actions stage' ∧ turn.phase.Fits now stage'

/-- What an exchange leads to fits a stage. Before the next request no response is owed. -/
def Settled.Fits (now : Nat) (stage : Stage) : Settled → Prop
  | .turn t => t.Fits now stage
  | .next actions _ => Leads now stage actions (.going false)

section Turns

variable {s : Settings} {now : Nat} {stopping promised : Bool} {stage stage' stage'' : Stage}

theorem Leads.append {actions actions' : List Action} (h : Leads now stage actions stage')
    (h' : Leads now stage' actions' stage'') : Leads now stage (actions ++ actions') stage'' := by
  rw [Leads, Trace.stamp, List.map_append, List.map_append]
  exact Path.append h h'

theorem Leads.nil : Leads now stage [] stage := Path.nil

theorem Leads.cons {action : Action} {actions : List Action}
    (h : Step stage ⟨now, action.event⟩ stage') (h' : Leads now stage' actions stage'') :
    Leads now stage (action :: actions) stage'' :=
  Path.cons h h'

/-- Logging leads nowhere else. -/
theorem leads_logs (notices : List Notice) : Leads now stage (notices.map .log) stage := by
  induction notices with
  | nil => exact .nil
  | cons notice notices ih => exact .cons .logged ih

theorem Turn.Fits.after {turn : Turn} {actions : List Action} (h : turn.Fits now stage')
    (hactions : Leads now stage actions stage') : (turn.after actions).Fits now stage := by
  obtain ⟨stage'', hleads, hfits⟩ := h
  exact ⟨stage'', hactions.append hleads, hfits⟩

theorem fits_reject (notice : Notice) (status : Status) (message : String) :
    (reject notice status message).Fits now (.going promised) := by
  have hclose : Response.Closes ((Response.error status message).encode .close false) :=
    ⟨_, _, rfl⟩
  exact ⟨.done now .closed, .cons .logged (.cons (.part hclose) (.cons .closed .nil)), .done⟩

theorem fits_finish (notice : Notice) :
    (finish [.log notice]).Fits now (.going promised) :=
  ⟨.going promised, .cons .logged .nil, .ended⟩

theorem Settled.Fits.after {settled : Settled} {actions : List Action}
    (h : settled.Fits now stage') (hactions : Leads now stage actions stage') :
    (settled.after actions).Fits now stage := by
  cases settled with
  | turn t => exact Turn.Fits.after h hactions
  | next more left => exact hactions.append h

/-- Going on fits if serving what is left does. -/
theorem Settled.Fits.goOn {settled : Settled} (h : settled.Fits now stage)
    (hserve : ∀ actions rest, settled = .next actions rest →
      (serve s now stopping (now + s.headersTimeout) rest).Fits now (.going false)) :
    (settled.goOn s now stopping).Fits now stage := by
  cases settled with
  | turn t => exact h
  | next actions rest =>
    cases rest with
    | nil => exact ⟨.going false, h, .idle⟩
    | cons b rest => exact (hserve actions (b :: rest) rfl).after h

/-- What is done for a body fits a request that is being answered. -/
theorem fits_settle {head : Head} {fed : Exchange.Fed}
    (h : ∀ response, fed.progress = .answered response →
      response.status = .ok ∨ response.status = .badRequest) :
    (settle s stopping head fed).Fits now (.going promised) := by
  have hlogs : Leads now (.going promised) (fed.notices.map .log) (.going promised) :=
    leads_logs fed.notices
  cases hprogress : fed.progress with
  | waiting exchange =>
    rw [settle_of_waiting hprogress]
    exact ⟨.going promised, hlogs, .body⟩
  | refused error =>
    rw [settle_of_refused hprogress]
    exact (fits_reject _ _ _).after hlogs
  | answered response =>
    by_cases hopen : keepsOpen s stopping head
    · have hkeeps : Response.KeepsOpen (encodeResponse s stopping head response) := by
        refine ⟨response, .ofMilliseconds s.keepAliveTimeout, head.method = .head,
          h response hprogress, ?_⟩
        rw [encodeResponse, if_pos hopen]
      rw [settle_of_keepsOpen hprogress hopen]
      exact hlogs.append (.cons (.respond hkeeps) .nil)
    · have hcloses : Response.Closes (encodeResponse s stopping head response) := by
        refine ⟨response, head.method = .head, ?_⟩
        rw [encodeResponse, if_neg hopen]
      have hsent : Leads now (.going promised) (fed.notices.map .log ++
          [.send (encodeResponse s stopping head response)]) (.parting now) :=
        hlogs.append (.cons (.part hcloses) .nil)
      rw [settle_of_not_keepsOpen hprogress hopen]
      -- the response that closes comes before the closing
      refine Turn.Fits.after ?_ hsent
      exact ⟨.done now .closed, .cons .logged (.cons .closed .nil), .done⟩

theorem leads_announce (head : Head) (framing : Framing) :
    ∃ promised, Leads now (.going false) (announce head framing) (.going promised) := by
  unfold announce
  split
  · exact ⟨true, .cons .logged (.cons .goAhead .nil)⟩
  · exact ⟨false, .cons .logged .nil⟩

/-- The answer to a request fits where a request is due. -/
theorem fits_answer {head : Head} {rest : Bytes} :
    (answer s stopping head rest).Fits now (.going false) := by
  rcases answer_cases s head rest with ⟨framing, -, hanswer⟩ | ⟨_, _, _, -, hanswer⟩
  · obtain ⟨promised, hannounce⟩ := leads_announce head framing
    rw [hanswer]
    exact (fits_settle fun _ => Exchange.status_of_feed).after hannounce
  · rw [hanswer]
    exact (fits_reject _ _ _).after (.cons .logged .nil)

/-- What is done for the requests in a buffer fits where a request is due. -/
theorem fits_serve (deadline : Nat) (buffer : Bytes) :
    (serve s now stopping deadline buffer).Fits now (.going false) := by
  induction deadline, buffer using serve_induction with
  | incomplete deadline buffer hparse =>
    rw [serve_of_incomplete hparse]
    exact ⟨.going false, .nil, .head⟩
  | refused deadline buffer error hparse hne =>
    rw [serve_of_error hparse hne]
    exact fits_reject _ _ _
  | request deadline buffer head size hparse ih =>
    rw [serve_of_ok hparse]
    exact fits_answer.goOn ih

/-- What is done for more of a body fits a request that is being answered. -/
theorem fits_resume {exchange : Exchange} {buffer : Bytes} :
    (resume s now stopping exchange buffer).Fits now (.going promised) := by
  rw [resume_eq_goOn]
  refine (fits_settle fun _ => Exchange.status_of_feed).goOn ?_
  exact fun _ rest _ => fits_serve _ rest

/-- **A step of the connection fits.** While the conversation goes on, whatever comes leads to a
stage that fits the phase after it. -/
theorem fits_step {phase : Phase} {input : Input} (h : phase.Fits now (.going promised)) :
    (step s now stopping phase input).Fits now (.going promised) := by
  cases h with
  | idle =>
    cases input with
    | octets octets => exact fits_serve _ _
    | failure kind => exact ⟨_, .nil, .ended⟩
    | endOfInput | deadline | stop => exact fits_finish _
  | head =>
    cases input with
    | octets octets => exact fits_serve _ _
    | endOfInput => exact fits_finish _
    | failure kind => exact ⟨_, .nil, .ended⟩
    | deadline => exact fits_reject _ _ _
    | stop => exact ⟨_, .nil, .head⟩
  | body =>
    cases input with
    | octets octets => exact fits_resume
    | endOfInput => exact fits_finish _
    | failure kind => exact ⟨_, .nil, .ended⟩
    | deadline | stop => exact ⟨_, .nil, .body⟩
  | ended => exact ⟨_, .nil, .ended⟩

/-- After the end of input nothing is done, and the connection ends in order. -/
theorem fits_step_endOfInput {phase : Phase} (h : ∀ ending, phase ≠ .ended ending) :
    (step s now stopping phase .endOfInput).Fits now (.done now .closed) := by
  cases phase with
  | idle | head | body => exact ⟨_, .cons .logged .nil, .done⟩
  | ended ending => exact absurd rfl (h ending)

/-- After a failure nothing is done, and the connection ends with it. -/
theorem fits_step_failure {phase : Phase} {kind : FaultKind} (h : ∀ ending, phase ≠ .ended ending) :
    (step s now stopping phase (.failure kind)).Fits now (.done now (.failed kind.fault)) := by
  cases phase with
  | idle | head | body => exact ⟨_, .nil, .done⟩
  | ended ending => exact absurd rfl (h ending)

end Turns

end Connection

end HttpEcho
