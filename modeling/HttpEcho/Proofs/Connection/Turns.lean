import HttpEcho.Connection

/-!
# Turns, case by case

What a connection does in one turn, said once: with an exchange that was fed (`settle_of_…`), with
a request head (`Connection.answer_cases`), and with the octets in a buffer (`serve_of_…` and
`Connection.serve_induction`). Invariants of connections are proved along these cases.
-/

namespace HttpEcho

namespace Connection

/-- Put actions in front of what an exchange leads to. -/
def Settled.after (actions : List Action) : Settled → Settled
  | .turn t => .turn (t.after actions)
  | .next more left => .next (actions ++ more) left

/-- Go on after an exchange: wait, or serve what is left. -/
def Settled.goOn (s : Settings) (now : Nat) (stopping : Bool) : Settled → Turn
  | .turn t => t
  | .next actions [] => { actions, phase := .idle false (now + s.keepAliveTimeout) }
  | .next actions rest => (serve s now stopping (now + s.headersTimeout) rest).after actions

/-- What an accepted head leads to before its body is read: a notice, and the go-ahead if the
client waits for it. -/
def announce (head : Head) (framing : Framing) : List Action :=
  .log (.request head.method.token head.target) ::
    if head.expectsContinue && framing ≠ .empty then [.send continueResponse] else []

variable {s : Settings} {now deadline size : Nat} {stopping : Bool} {head : Head}
  {buffer rest : Bytes}

theorem Turn.after_after (turn : Turn) (front front' : List Action) :
    (turn.after front').after front = turn.after (front ++ front') := by
  rw [Turn.after, Turn.after, Turn.after, List.append_assoc]

theorem Settled.goOn_after (settled : Settled) (front : List Action) :
    (settled.after front).goOn s now stopping = (settled.goOn s now stopping).after front := by
  cases settled with
  | turn turn => rfl
  | next actions rest =>
    cases rest with
    | nil => rfl
    | cons b rest => exact (Turn.after_after _ front actions).symm

/-- What is done after a response does not depend on it. -/
theorem Settled.goOn_next (actions : List Action) (rest : Bytes) :
    (Settled.next actions rest).goOn s now stopping =
      ((Settled.next [] rest).goOn s now stopping).after actions := by
  rw [← goOn_after, after, List.append_nil]

/-! ### Exchanges -/

section Settling

variable {fed : Exchange.Fed}

theorem settle_of_waiting {x : Exchange} (h : fed.progress = .waiting x) :
    settle s stopping head fed =
      .turn { actions := fed.notices.map .log, phase := .body x fed.rest } := by
  rw [settle, h]

theorem settle_of_refused {error : BodyError} (h : fed.progress = .refused error) :
    settle s stopping head fed =
      .turn ((reject (.bodyFailed error) error.status error.message).after
        (fed.notices.map .log)) := by
  rw [settle, h]

theorem settle_of_keepsOpen {response : Response} (h : fed.progress = .answered response)
    (hopen : keepsOpen s stopping head) :
    settle s stopping head fed =
      .next (fed.notices.map .log ++ [.send (encodeResponse s stopping head response)])
        fed.rest := by
  rw [settle, h]
  exact if_pos hopen

theorem settle_of_not_keepsOpen {response : Response} (h : fed.progress = .answered response)
    (hopen : ¬ keepsOpen s stopping head) :
    settle s stopping head fed =
      .turn ((finish [.log .closingAfterResponse, .close]).after
        (fed.notices.map .log ++ [.send (encodeResponse s stopping head response)])) := by
  rw [settle, h]
  exact if_neg hopen

end Settling

/-! ### Requests -/

theorem answer_proceed_eq (framing : Framing) :
    answer.proceed s stopping head rest (.log (.request head.method.token head.target)) framing =
      (settle s stopping head
        ((Exchange.start s.echo s.maxBodySize head framing).feed rest)).after
          (announce head framing) := by
  rw [answer.proceed]
  split
  case h_1 t ht => rw [ht, Settled.after, announce]
  case h_2 actions left hnext => rw [hnext, Settled.after, announce]

/-- A request is answered if its framing is accepted and its declared length within the limit. -/
theorem answer_of_framing {framing : Framing} (h : head.framing = .ok framing)
    (hlength : ∀ n, framing = .length n → n ≤ s.maxBodySize) :
    answer s stopping head rest =
      (settle s stopping head
        ((Exchange.start s.echo s.maxBodySize head framing).feed rest)).after
          (announce head framing) := by
  rw [← answer_proceed_eq, answer, h]
  dsimp only
  split
  case h_1 n => exact if_neg (Nat.not_lt.2 (hlength n rfl))
  case h_2 => rfl

theorem answer_of_error {error : ProtocolError} (h : head.framing = .error error) :
    answer s stopping head rest =
      .turn ((reject (.framingFailed error) error.status error.report).after
        [.log (.request head.method.token head.target)]) := by
  rw [answer, h]

theorem answer_of_tooLarge {n : Nat} (h : head.framing = .ok (.length n))
    (hlt : s.maxBodySize < n) :
    answer s stopping head rest =
      .turn ((reject (.declaredTooLarge n (.tooLarge s.maxBodySize))
        (BodyError.tooLarge s.maxBodySize).status (BodyError.tooLarge s.maxBodySize).message).after
          [.log (.request head.method.token head.target)]) := by
  rw [answer, h]
  exact if_pos hlt

/-- Why a request is rejected although its head was accepted, with what status and what text. -/
inductive Refusal (s : Settings) (head : Head) : Notice → Status → String → Prop
  | framing {error : ProtocolError} (h : head.framing = .error error) :
      Refusal s head (.framingFailed error) error.status error.report
  | tooLarge {n : Nat} (h : head.framing = .ok (.length n)) (hlt : s.maxBodySize < n) :
      Refusal s head (.declaredTooLarge n (.tooLarge s.maxBodySize))
        (BodyError.tooLarge s.maxBodySize).status (BodyError.tooLarge s.maxBodySize).message

theorem Refusal.congr {head' : Head} {notice : Notice} {status : Status} {message : String}
    (h : Refusal s head notice status message) (hframing : head'.framing = head.framing) :
    Refusal s head' notice status message := by
  cases h with
  | framing herror => exact .framing (hframing.trans herror)
  | tooLarge hlength hlt => exact .tooLarge (hframing.trans hlength) hlt

theorem answer_of_refusal {notice : Notice} {status : Status} {message : String}
    (h : Refusal s head notice status message) :
    answer s stopping head rest = .turn ((reject notice status message).after
      [.log (.request head.method.token head.target)]) := by
  cases h with
  | framing hframing => exact answer_of_error hframing
  | tooLarge hframing hlt => exact answer_of_tooLarge hframing hlt

/-- A head that is not refused has a framing for which there is room. -/
theorem exists_framing_of_not_refusal
    (h : ¬ ∃ notice status message, Refusal s head notice status message) :
    ∃ framing, head.framing = .ok framing ∧ ∀ n, framing = .length n → n ≤ s.maxBodySize := by
  cases hframing : head.framing with
  | error error => exact absurd ⟨_, _, _, .framing hframing⟩ h
  | ok framing =>
    refine ⟨framing, rfl, fun n hn => Nat.le_of_not_lt fun hlt => h ?_⟩
    exact ⟨_, _, _, .tooLarge (hn ▸ hframing) hlt⟩

/-- **A request is answered or rejected**, whether or not the server has been told to stop. -/
theorem answer_cases (s : Settings) (head : Head) (rest : Bytes) :
    (∃ framing, head.framing = .ok framing ∧ ∀ stopping, answer s stopping head rest =
        (settle s stopping head
          ((Exchange.start s.echo s.maxBodySize head framing).feed rest)).after
            (announce head framing)) ∨
      ∃ notice status message, Refusal s head notice status message ∧ ∀ stopping,
        answer s stopping head rest = .turn ((reject notice status message).after
          [.log (.request head.method.token head.target)]) := by
  cases hframing : head.framing with
  | error error => exact .inr ⟨_, _, _, .framing hframing, fun _ => answer_of_error hframing⟩
  | ok framing =>
    by_cases hlength : ∀ n, framing = .length n → n ≤ s.maxBodySize
    · exact .inl ⟨framing, rfl, fun _ => answer_of_framing hframing hlength⟩
    · obtain ⟨n, hn⟩ := Classical.not_forall.1 hlength
      obtain ⟨rfl, hle⟩ := Classical.not_imp.1 hn
      have hlt := Nat.lt_of_not_le hle
      exact .inr ⟨_, _, _, .tooLarge hframing hlt, fun _ => answer_of_tooLarge hframing hlt⟩

/-! ### Buffers -/

theorem serve_of_incomplete (h : Head.parse s.maxHeaderSize buffer = .error .incomplete) :
    serve s now stopping deadline buffer = { actions := [], phase := .head deadline buffer } := by
  rw [serve]
  split
  · rfl
  · simp_all
  · simp_all

theorem serve_of_error {error : ProtocolError}
    (h : Head.parse s.maxHeaderSize buffer = .error error)
    (hne : error ≠ .incomplete) :
    serve s now stopping deadline buffer =
      reject (.parseFailed error) error.status error.report := by
  rw [serve]
  split
  · simp_all
  · simp_all
  · simp_all

theorem serve_of_ok (h : Head.parse s.maxHeaderSize buffer = .ok (head, size)) :
    serve s now stopping deadline buffer =
      (answer s stopping head (buffer.drop size)).goOn s now stopping := by
  rw [serve]
  split
  · simp_all
  · simp_all
  · rename_i head' size' h'
    cases h.symm.trans h'
    split <;> simp_all [Settled.goOn]

theorem resume_eq_goOn (x : Exchange) (buffer : Bytes) :
    resume s now stopping x buffer =
      (settle s stopping x.head (x.feed buffer)).goOn s now stopping := by
  unfold resume
  cases settle s stopping x.head (x.feed buffer) with
  | turn t => rfl
  | next actions rest => cases rest <;> rfl

/-- **Induction along the requests in a buffer.** After a request that leaves the connection open,
the octets that are left are served in the same way. -/
theorem serve_induction {motive : Nat → Bytes → Prop}
    (incomplete : ∀ deadline buffer, Head.parse s.maxHeaderSize buffer = .error .incomplete →
      motive deadline buffer)
    (refused : ∀ deadline buffer error, Head.parse s.maxHeaderSize buffer = .error error →
      error ≠ .incomplete → motive deadline buffer)
    (request : ∀ deadline buffer head size,
      Head.parse s.maxHeaderSize buffer = .ok (head, size) →
        (∀ actions rest, answer s stopping head (buffer.drop size) = .next actions rest →
          motive (now + s.headersTimeout) rest) → motive deadline buffer)
    (deadline : Nat) (buffer : Bytes) : motive deadline buffer := by
  induction hlength : buffer.length using Nat.strongRecOn generalizing deadline buffer with
  | ind n ih =>
    subst hlength
    cases hparse : Head.parse s.maxHeaderSize buffer with
    | error error =>
      by_cases herror : error = .incomplete
      · exact incomplete deadline buffer (herror ▸ hparse)
      · exact refused deadline buffer error hparse herror
    | ok parsed =>
      obtain ⟨head, size⟩ := parsed
      refine request deadline buffer head size hparse fun actions rest hnext => ?_
      refine ih rest.length ?_ _ rest rfl
      -- at least the head of the request is gone
      have hle := length_answer_next_le hnext
      have hsize := Head.parse_consumed hparse
      rw [List.length_drop] at hle
      omega

end Connection

end HttpEcho
