import HttpEcho.Proofs.Session.Changes

/-!
# Accepted heads

A turn says that it accepts a head where it comes to the request, and nowhere else: what it does
from there on is the answer to that head, followed by what else is served
(`Connection.accepts_step`). So a run, from the point at which it accepts a head, is the answer to
it and what comes after (`Session.exists_answering_of_run`).
-/

namespace HttpEcho

open Connection

namespace Connection

variable {s : Settings} {now : Nat} {stopping : Bool} {head : Head} {buffer rest : Bytes}
  {x : Exchange}

/-- None of the actions says that a head is accepted. -/
def AcceptsNone (actions : List Action) : Prop :=
  ∀ notice, .log notice ∈ actions → ¬ notice.isRequest

/-- A turn comes, after some actions, to a request whose head is accepted. -/
def Turn.ComesTo (s : Settings) (now : Nat) (stopping : Bool) (method target : String) (turn : Turn)
    (front : List Action) : Prop :=
  ∃ buffer head size, Head.parse s.maxHeaderSize buffer = .ok (head, size) ∧
    head.method.token = method ∧ head.target = target ∧
      turn = ((answer s stopping head (buffer.drop size)).goOn s now stopping).after front

/-- Where the actions say that a head is accepted, the turn comes to that request. -/
def Turn.Accepts (s : Settings) (now : Nat) (stopping : Bool) (actions : List Action)
    (turn : Turn) :
    Prop :=
  ∀ front method target back, actions = front ++ .log (.request method target) :: back →
    turn.ComesTo s now stopping method target front

/-- The actions that an exchange leads to. -/
def Settled.actions : Settled → List Action
  | .turn t => t.actions
  | .next actions _ => actions

theorem AcceptsNone.append {actions actions' : List Action} (h : AcceptsNone actions)
    (h' : AcceptsNone actions') : AcceptsNone (actions ++ actions') :=
  fun notice hmem => (List.mem_append.1 hmem).elim (h notice) (h' notice)

theorem acceptsNone_logs {notices : List Notice} (h : ∀ notice ∈ notices, ¬ notice.isRequest) :
    AcceptsNone (notices.map .log) := by
  intro notice hmem
  obtain ⟨notice', hnotice, heq⟩ := List.mem_map.1 hmem
  exact Action.log.inj heq ▸ h notice' hnotice

theorem acceptsNone_nil : AcceptsNone [] := fun _ hmem => absurd hmem List.not_mem_nil

theorem AcceptsNone.send {actions : List Action} (h : AcceptsNone actions) (octets : Bytes) :
    AcceptsNone (.send octets :: actions) :=
  fun notice hmem => h notice ((List.mem_cons.1 hmem).resolve_left nofun)

theorem acceptsNone_close : AcceptsNone [.close] :=
  fun _ hmem => nomatch List.mem_singleton.1 hmem

theorem AcceptsNone.log {actions : List Action} {notice : Notice} (h : AcceptsNone actions)
    (hnotice : ¬ notice.isRequest) : AcceptsNone (.log notice :: actions) := by
  intro notice' hmem
  rcases List.mem_cons.1 hmem with heq | hmem
  · exact Action.log.inj heq ▸ hnotice
  · exact h notice' hmem

theorem acceptsNone_reject {notice : Notice} (hnotice : ¬ notice.isRequest) (status : Status)
    (message : String) : AcceptsNone (reject notice status message).actions :=
  (acceptsNone_close.send _).log hnotice

/-- Nothing that is done for a body says that a head is accepted. -/
theorem acceptsNone_settle : AcceptsNone (settle s stopping head (x.feed buffer)).actions := by
  have hlogs : AcceptsNone ((x.feed buffer).notices.map .log) :=
    acceptsNone_logs not_isRequest_of_mem_feed
  cases hprogress : (x.feed buffer).progress with
  | waiting y =>
    rw [settle_of_waiting hprogress]
    exact hlogs
  | refused error =>
    rw [settle_of_refused hprogress]
    have hnotice : ¬ (Notice.bodyFailed error).isRequest := Bool.false_ne_true
    exact hlogs.append (acceptsNone_reject hnotice error.status error.message)
  | answered response =>
    by_cases hopen : keepsOpen s stopping head
    · rw [settle_of_keepsOpen hprogress hopen]
      exact hlogs.append (acceptsNone_nil.send _)
    · rw [settle_of_not_keepsOpen hprogress hopen]
      exact (hlogs.append (acceptsNone_nil.send _)).append
        (acceptsNone_close.log Bool.false_ne_true)

/-- An answer says first that the head is accepted, and not again. -/
theorem actions_answer (s : Settings) (stopping : Bool) (head : Head) (rest : Bytes) :
    ∃ others, (answer s stopping head rest).actions =
      .log (.request head.method.token head.target) :: others ∧ AcceptsNone others := by
  obtain ⟨framing, -, hanswer⟩ | ⟨notice, status, message, hrefusal, hanswer⟩ :=
    answer_cases s head rest
  · have hgoAhead : AcceptsNone
        (if head.expectsContinue && framing ≠ .empty then [.send continueResponse] else []) := by
      split
      · exact acceptsNone_nil.send _
      · exact acceptsNone_nil
    refine ⟨_, ?_, hgoAhead.append (@acceptsNone_settle s stopping head rest
      (.start s.echo s.maxBodySize head framing))⟩
    rw [hanswer]
    cases settle s stopping head
      ((Exchange.start s.echo s.maxBodySize head framing).feed rest) <;> rfl
  · exact ⟨_, congrArg Settled.actions (hanswer stopping),
      acceptsNone_reject hrefusal.not_isRequest status message⟩

/-- Where no head is accepted, nothing is to be shown. -/
theorem accepts_of_acceptsNone {actions : List Action} {turn : Turn} (h : AcceptsNone actions) :
    turn.Accepts s now stopping actions := by
  rintro front method target back rfl
  exact absurd rfl (h _ List.mem_append_cons_self)

theorem accepts_goOn {settled : Settled}
    (hsettled : (settled.goOn s now stopping).Accepts s now stopping settled.actions)
    (hserve : ∀ actions rest, settled = .next actions rest →
      (serve s now stopping (now + s.headersTimeout) rest).Accepts s now stopping
        (serve s now stopping (now + s.headersTimeout) rest).actions) :
    (settled.goOn s now stopping).Accepts s now stopping (settled.goOn s now stopping).actions := by
  cases settled with
  | turn turn => exact hsettled
  | next actions rest =>
    intro front method target back h
    cases rest with
    | nil => exact hsettled front method target back h
    | cons b rest =>
      obtain ⟨middle, hmiddle⟩ | ⟨middle, rfl, hmiddle⟩ := Session.split_of_append_eq h
      · exact hsettled front method target middle hmiddle
      · obtain ⟨buffer, head, size, hparse, hmethod, htarget, hturn⟩ :=
          hserve actions (b :: rest) rfl middle method target back hmiddle
        refine ⟨buffer, head, size, hparse, hmethod, htarget, ?_⟩
        rw [← Turn.after_after, ← hturn]
        rfl

/-- The first head that is accepted in answering a request is its own. -/
theorem accepts_answer {size : Nat}
    (hparse : Head.parse s.maxHeaderSize buffer = .ok (head, size)) :
    ((answer s stopping head (buffer.drop size)).goOn s now stopping).Accepts s now stopping
      (answer s stopping head (buffer.drop size)).actions := by
  intro front method target back h
  obtain ⟨others, hactions, hothers⟩ := actions_answer s stopping head (buffer.drop size)
  rw [hactions] at h
  cases front with
  | nil =>
    obtain ⟨hmethod, htarget⟩ := Notice.request.inj (Action.log.inj (List.cons.inj h).1)
    exact ⟨buffer, head, size, hparse, hmethod, htarget, rfl⟩
  | cons action front =>
    obtain ⟨-, rfl⟩ := List.cons.inj h
    exact absurd rfl (hothers _ List.mem_append_cons_self)

/-- **Where a head is accepted in a buffer that is served**, the turn comes to that request. -/
theorem accepts_serve (deadline : Nat) (buffer : Bytes) :
    (serve s now stopping deadline buffer).Accepts s now stopping
      (serve s now stopping deadline buffer).actions := by
  induction deadline, buffer using serve_induction with
  | incomplete deadline buffer hparse =>
    rw [serve_of_incomplete hparse]
    exact accepts_of_acceptsNone acceptsNone_nil
  | refused deadline buffer error hparse hne =>
    rw [serve_of_error hparse hne]
    have hnotice : ¬ (Notice.parseFailed error).isRequest := Bool.false_ne_true
    exact accepts_of_acceptsNone (acceptsNone_reject hnotice error.status error.report)
  | request deadline buffer head size hparse ih =>
    rw [serve_of_ok hparse]
    exact accepts_goOn (accepts_answer hparse) ih

/-- **Where a head is accepted**, it is that of a request which the turn comes to. -/
theorem accepts_step (phase : Phase) (input : Input) :
    (step s now stopping phase input).Accepts s now stopping
      (step s now stopping phase input).actions := by
  by_cases hoctets : ∃ octets, input = .octets octets
  · obtain ⟨octets, rfl⟩ := hoctets
    cases phase with
    | idle | head => exact accepts_serve _ _
    | body exchange buffer =>
      rw [step, resume_eq_goOn]
      exact accepts_goOn (accepts_of_acceptsNone acceptsNone_settle) fun _ _ _ => accepts_serve _ _
    | ended => exact accepts_of_acceptsNone acceptsNone_nil
  · refine accepts_of_acceptsNone fun notice hmem => ?_
    obtain ⟨notice', heq, hnotice⟩ | ⟨hnot, -⟩ :=
      action_cases_of_not_octets (fun octets heq => hoctets ⟨octets, heq⟩) hmem
    · exact Action.log.inj heq ▸ hnotice
    · exact absurd rfl (hnot notice)

end Connection

namespace Session

variable {s : Settings} {p peer : Peer} {head : Head}

/-- The run from an accepted head on. -/
def answering (s : Settings) (head : Head) (rest : Bytes) (peer : Peer) : Run :=
  fromTurn s ((answer s peer.isStopping head rest).goOn s peer.now peer.isStopping) peer

/-- The run from a wait at which the given octets arrive, if they begin with a head, after what is
there of it. -/
theorem arrives_of_head {phase : Phase} {begun octets : Bytes} {size : Nat}
    (hbegun : phase.begun? = some begun) (hne : octets ≠ [])
    (hparse : Head.parse s.maxHeaderSize (begun ++ octets) = .ok (head, size)) :
    arrives s phase peer octets = answering s head ((begun ++ octets).drop size) peer := by
  obtain ⟨deadline, hdue⟩ := @exists_due?_of_begun? s peer.now phase _ hbegun
  rw [arrives_of_ne_nil hne, step_of_begun? hbegun hdue, serve_of_ok hparse, answering]

/-- **Where a run accepts a head**, it goes on with the answer to it. -/
theorem exists_answering_of_run {before after : Trace} {time : Nat} {method target : String}
    (h : (run s none p).trace = before ++ ⟨time, .logged (.request method target)⟩ :: after) :
    ∃ buffer head size peer, Head.parse s.maxHeaderSize buffer = .ok (head, size) ∧
      head.method.token = method ∧ head.target = target ∧ peer.now = time ∧
        run s none p = (answering s head (buffer.drop size) peer).after before := by
  have hdoes := does_of_run h Bool.false_ne_true
  generalize hstamped : (⟨time, .logged (.request method target)⟩ : Stamped) = stamped at hdoes
  obtain @⟨trace, phase, peer, r, input, turn, front, back, action, hreach, hphase, hr, hinput, rfl,
    hactions⟩ := hdoes
  cases action with
  | send | close => cases hstamped
  | log notice =>
    cases hstamped
    -- only octets lead to a turn that accepts a head
    have hoctets : ∃ octets, input = .octets octets := by
      refine Classical.byContradiction fun hnot => ?_
      have hmem : .log (.request method target) ∈
          (step s r.peer.now r.peer.isStopping phase input).actions :=
        hactions ▸ List.mem_append_cons_self
      obtain ⟨notice, heq, hnotice⟩ | ⟨hlog, -⟩ :=
        action_cases_of_not_octets (fun octets heq => hnot ⟨octets, heq⟩) hmem
      · exact hnotice (Action.log.inj heq ▸ rfl)
      · exact hlog _ rfl
    obtain ⟨octets, rfl⟩ := hoctets
    obtain ⟨buffer, head, size, hparse, hmethod, htarget, hturn⟩ :=
      accepts_step phase _ front method target back hactions
    have hne := Peer.ne_nil_of_read hr (input?_eq_octets hinput)
    refine ⟨buffer, head, size, r.peer, hparse, hmethod, htarget, rfl, ?_⟩
    obtain ⟨sends, hrun⟩ := hreach.run_eq
    rw [hrun, runFrom_eq_afterRead hphase hr, afterRead, hinput]
    dsimp only
    rw [arrives_of_ne_nil hne, hturn, fromTurn_after, Run.after_after, Run.after_after,
      List.append_assoc, answering]

end Session

end HttpEcho
