import HttpEcho.Proofs.Body.Declared
import HttpEcho.Proofs.Connection.Deadlines
import HttpEcho.Proofs.Head.Extent

/-!
# Octets that arrive together

A read may bring the end of one request and the beginning of the next one. Between two requests it
makes no difference: if a connection that takes octets is then between two requests, or has begun to
read a head, then it does with those octets and more what it does with the first ones and then, at
the same time, with the others (`Connection.step_append`). An answer that leaves the connection open
is the same whatever follows the request (`Connection.answer_append`).
-/

namespace HttpEcho

/-! ### Bodies -/

namespace Body

variable {body : Body} {buffer octets : Bytes} {remaining : Nat}

/-- A chunk of a body of known length holds the end of the body, and is the same whatever follows,
or it is all that is at hand and the body waits for more. -/
theorem advance_length_cases (hphase : body.phase = .length remaining)
    (h : (body.advance buffer).outcome = .chunk octets) :
    (∀ more, body.advance (buffer ++ more) = (body.advance buffer).append more) ∨
      ((body.advance buffer).body.advance (body.advance buffer).rest).outcome = .wait := by
  have hroom : body.received + remaining ≤ body.limit := by
    refine Nat.le_of_not_lt fun hlt => ?_
    rw [advance_of_refuse (step_length_of_lt hphase hlt buffer)] at h
    cases h
  have hne : buffer ≠ [] := by
    rintro rfl
    rw [advance_of_wait (step_length_nil hphase hroom)] at h
    cases h
  rcases Nat.lt_or_ge buffer.length remaining with hlt | hle
  · right
    rw [advance_of_chunk (step_length hphase hroom hne), List.drop_of_length_le (Nat.le_of_lt hlt)]
    dsimp only
    rw [advance_of_wait (step_length_nil (if_neg (Nat.not_le.2 hlt)) ?_)]
    dsimp only
    omega
  · left
    intro more
    have hmore : remaining ≤ (buffer ++ more).length := by
      rw [List.length_append]
      exact Nat.le_trans hle (Nat.le_add_right _ _)
    rw [advance_of_chunk (step_length hphase hroom hne), advance_of_chunk (step_length hphase hroom
      (List.append_ne_nil_of_left_ne_nil hne more)), if_pos hle, if_pos hmore, Nat.min_eq_left hle,
      Nat.min_eq_left hmore, List.take_append_of_le_length hle, List.drop_append_of_le_length hle]
    rfl

/-- A body of known length is complete only after a chunk. -/
theorem isChunked_of_complete (h : (body.advance buffer).outcome = .complete) : body.IsChunked := by
  intro remaining hphase
  rcases Nat.lt_or_ge body.limit (body.received + remaining) with hlt | hroom
  · rw [advance_of_refuse (step_length_of_lt hphase hlt buffer)] at h
    cases h
  · by_cases hnil : buffer = []
    · rw [hnil, advance_of_wait (step_length_nil hphase hroom)] at h
      cases h
    · rw [advance_of_chunk (step_length hphase hroom hnil)] at h
      cases h

end Body

/-! ### Exchanges -/

namespace Exchange

variable {x : Exchange} {buffer : Bytes}

/-- An exchange that is answered leaves what follows its body. -/
theorem feed_append {response : Response} (h : (x.feed buffer).progress = .answered response)
    (more : Bytes) :
    x.feed (buffer ++ more) = { x.feed buffer with rest := (x.feed buffer).rest ++ more } := by
  induction x, buffer using feed_induction with
  | chunk x buffer octets hchunk ih =>
    rw [feed_chunk hchunk] at h
    have happend : x.body.advance (buffer ++ more) = (x.body.advance buffer).append more := by
      by_cases hchunked : x.body.IsChunked
      · exact Body.advance_append hchunked (.inr ⟨octets, hchunk⟩) more
      obtain ⟨remaining, hphase⟩ := Classical.not_forall_not.1 hchunked
      obtain happend | hwait := Body.advance_length_cases hphase hchunk
      · exact happend more
      · -- the exchange would be waiting for more of the body
        rw [feed_wait hwait] at h
        cases h
    have hmore : (x.body.advance (buffer ++ more)).outcome = .chunk octets := by
      rw [happend]
      exact hchunk
    rw [feed_chunk hchunk, feed_chunk hmore, happend]
    dsimp only [Body.Advance.append]
    rw [ih h]
    rfl
  | stop x buffer hstop =>
    cases houtcome : (x.body.advance buffer).outcome with
    | chunk octets => exact absurd houtcome (hstop octets)
    | wait =>
      rw [feed_wait houtcome] at h
      cases h
    | refused error =>
      rw [feed_refused houtcome] at h
      cases h
    | complete =>
      have happend := Body.advance_append (Body.isChunked_of_complete houtcome) (.inl houtcome) more
      have hmore : (x.body.advance (buffer ++ more)).outcome = .complete := by
        rw [happend]
        exact houtcome
      rw [feed_complete houtcome, feed_complete hmore, happend]
      rfl

end Exchange

/-! ### Requests -/

namespace Connection

variable {s : Settings} {now deadline : Nat} {stopping : Bool} {head : Head} {fed : Exchange.Fed}
  {buffer rest left : Bytes} {actions : List Action} {turn : Turn} {phase : Phase}

/-- The octets that are there of the next head, in a phase between two requests. -/
def Phase.begun? : Phase → Option Bytes
  | .idle .. => some []
  | .head _ buffer => some buffer
  | .body .. | .ended _ => none

/-- An exchange leads to the next request once it is answered, and what follows it is left as it
is. -/
theorem settle_next (h : settle s stopping head fed = .next actions left) :
    (∃ response, fed.progress = .answered response) ∧ left = fed.rest ∧
      ∀ rest, settle s stopping head { fed with rest } = .next actions rest := by
  cases hprogress : fed.progress with
  | waiting x =>
    rw [settle_of_waiting hprogress] at h
    cases h
  | refused error =>
    rw [settle_of_refused hprogress] at h
    cases h
  | answered response =>
    by_cases hopen : keepsOpen s stopping head
    · rw [settle_of_keepsOpen hprogress hopen] at h
      cases h
      exact ⟨⟨response, rfl⟩, rfl, fun rest => settle_of_keepsOpen rfl hopen⟩
    · rw [settle_of_not_keepsOpen hprogress hopen] at h
      cases h

/-- An exchange that does not lead to the next request leaves nothing of it. -/
theorem begun?_of_settle_turn (h : settle s stopping head fed = .turn turn) :
    turn.phase.begun? = none := by
  cases hprogress : fed.progress with
  | waiting x =>
    rw [settle_of_waiting hprogress] at h
    cases h
    rfl
  | refused error =>
    rw [settle_of_refused hprogress] at h
    cases h
    rfl
  | answered response =>
    by_cases hopen : keepsOpen s stopping head
    · rw [settle_of_keepsOpen hprogress hopen] at h
      cases h
    · rw [settle_of_not_keepsOpen hprogress hopen] at h
      cases h
      rfl

/-- A response that leaves the connection open is the same whatever follows the request. -/
theorem settle_append {x : Exchange}
    (h : settle s stopping head (x.feed buffer) = .next actions left)
    (more : Bytes) :
    settle s stopping head (x.feed (buffer ++ more)) = .next actions (left ++ more) := by
  obtain ⟨⟨response, hresponse⟩, rfl, hrest⟩ := settle_next h
  rw [Exchange.feed_append hresponse]
  exact hrest _

/-- **An answer that leaves the connection open** is the same whatever follows the request, and
leaves that. -/
theorem answer_append (h : answer s stopping head rest = .next actions left) (more : Bytes) :
    answer s stopping head (rest ++ more) = .next actions (left ++ more) := by
  cases hframing : head.framing with
  | error error =>
    rw [answer_of_error hframing] at h
    cases h
  | ok framing =>
    by_cases hlength : ∀ n, framing = .length n → n ≤ s.maxBodySize
    · rw [answer_of_framing hframing hlength] at h ⊢
      cases hsettle : settle s stopping head
        ((Exchange.start s.echo s.maxBodySize head framing).feed rest) with
      | turn t =>
        rw [hsettle] at h
        cases h
      | next actions' left' =>
        rw [hsettle] at h
        cases h
        rw [settle_append hsettle]
        rfl
    · obtain ⟨n, hn⟩ := Classical.not_forall.1 hlength
      obtain ⟨rfl, hle⟩ := Classical.not_imp.1 hn
      rw [answer_of_tooLarge hframing (Nat.lt_of_not_le hle)] at h
      cases h

theorem begun?_of_answer_turn (h : answer s stopping head rest = .turn turn) :
    turn.phase.begun? = none := by
  obtain ⟨framing, -, hanswer⟩ | ⟨notice, status, message, -, hanswer⟩ := answer_cases s head rest
  · rw [hanswer] at h
    cases hsettle : settle s stopping head
      ((Exchange.start s.echo s.maxBodySize head framing).feed rest) with
    | turn t =>
      rw [hsettle] at h
      cases h
      have hbegun := begun?_of_settle_turn hsettle
      exact hbegun
    | next =>
      rw [hsettle] at h
      cases h
  · rw [hanswer] at h
    cases h
    rfl

/-! ### Turns -/

/-- Octets are served together with more that arrive at the same time. -/
def Joins (s : Settings) (now : Nat) (stopping : Bool) (more : Bytes) (deadline : Nat)
    (buffer : Bytes) : Prop :=
  (serve s now stopping deadline buffer).phase.begun?.isSome →
    serve s now stopping deadline (buffer ++ more) =
      (step s now stopping (serve s now stopping deadline buffer).phase (.octets more)).after
        (serve s now stopping deadline buffer).actions

theorem goOn_append {more : Bytes} (hmore : more ≠ [])
    (hserve : Joins s now stopping more (now + s.headersTimeout) left)
    (h : ((Settled.next actions left).goOn s now stopping).phase.begun?.isSome) :
    (Settled.next actions (left ++ more)).goOn s now stopping =
      (step s now stopping ((Settled.next actions left).goOn s now stopping).phase
        (.octets more)).after ((Settled.next actions left).goOn s now stopping).actions := by
  rcases left with _ | ⟨b, left⟩
  · rcases more with _ | ⟨b, more⟩
    · exact absurd rfl hmore
    · rfl
  · have hturn : (Settled.next actions (b :: left)).goOn s now stopping =
        (serve s now stopping (now + s.headersTimeout) (b :: left)).after actions := rfl
    rw [hturn] at h ⊢
    change (serve s now stopping (now + s.headersTimeout) ((b :: left) ++ more)).after actions = _
    rw [hserve h, Turn.after_after]
    rfl

/-- **What is served of a buffer between two requests** is the same if more arrives at the same
time. -/
theorem serve_append {more : Bytes} (hmore : more ≠ []) (deadline : Nat) (buffer : Bytes) :
    Joins s now stopping more deadline buffer := by
  induction deadline, buffer using serve_induction with
  | incomplete deadline buffer hparse =>
    intro _
    rw [serve_of_incomplete hparse]
    rfl
  | refused deadline buffer error hparse hne =>
    intro h
    rw [serve_of_error hparse hne] at h
    cases h
  | request deadline buffer head size hparse ih =>
    intro h
    have hsize := (Head.parse_consumed hparse).2
    rw [serve_of_ok hparse] at h ⊢
    rw [serve_of_ok (Head.parse_append_of_ok hparse more), List.drop_append_of_le_length hsize]
    cases hanswer : answer s stopping head (buffer.drop size) with
    | turn turn =>
      rw [hanswer, Settled.goOn, begun?_of_answer_turn hanswer] at h
      cases h
    | next actions left =>
      rw [hanswer] at h
      rw [answer_append hanswer]
      exact goOn_append hmore (ih actions left hanswer) h

theorem resume_append {x : Exchange} {more : Bytes} (hmore : more ≠ [])
    (h : (resume s now stopping x buffer).phase.begun?.isSome) :
    resume s now stopping x (buffer ++ more) =
      (step s now stopping (resume s now stopping x buffer).phase (.octets more)).after
        (resume s now stopping x buffer).actions := by
  rw [resume_eq_goOn] at h ⊢
  rw [resume_eq_goOn]
  cases hsettle : settle s stopping x.head (x.feed buffer) with
  | turn turn =>
    rw [hsettle, Settled.goOn, begun?_of_settle_turn hsettle] at h
    cases h
  | next actions left =>
    rw [hsettle] at h
    rw [settle_append hsettle]
    exact goOn_append hmore (serve_append hmore _ left) h

/-- **Octets that arrive together** are taken like octets that arrive one after the other at the
same time, if the connection is between two requests then. -/
theorem step_append {octets more : Bytes} (hmore : more ≠ [])
    (h : (step s now stopping phase (.octets octets)).phase.begun?.isSome) :
    step s now stopping phase (.octets (octets ++ more)) =
      (step s now stopping (step s now stopping phase (.octets octets)).phase (.octets more)).after
        (step s now stopping phase (.octets octets)).actions := by
  cases phase with
  | idle first deadline => exact serve_append hmore _ octets h
  | head deadline buffer =>
    have hjoins := serve_append hmore deadline (buffer ++ octets) h
    rwa [List.append_assoc] at hjoins
  | body exchange buffer =>
    have hjoins := resume_append hmore h
    rwa [List.append_assoc] at hjoins
  | ended ending => cases h

/-- What a connection does with octets, if there are any. -/
def takes (s : Settings) (now : Nat) (stopping : Bool) (phase : Phase) (octets : Bytes) : Turn :=
  if octets = [] then { actions := [], phase } else step s now stopping phase (.octets octets)

theorem takes_nil : takes s now stopping phase [] = { actions := [], phase } := rfl

theorem takes_of_ne_nil {octets : Bytes} (h : octets ≠ []) :
    takes s now stopping phase octets = step s now stopping phase (.octets octets) :=
  if_neg h

theorem takes_ended (ending : Ending) (octets : Bytes) :
    takes s now stopping (.ended ending) octets = { actions := [], phase := .ended ending } := by
  rw [takes, step]
  exact ite_self _

/-- A connection that has ended does not come to a wait between two requests. -/
theorem ne_ended_of_takes {octets begun : Bytes}
    (h : (takes s now stopping phase octets).phase.begun? = some begun) (ending : Ending) :
    phase ≠ .ended ending := by
  rintro rfl
  rw [takes_ended] at h
  cases h

/-- **Taking octets in two parts** that meet between two requests is taking them at once. -/
theorem takes_append {octets : Bytes} (h : (takes s now stopping phase octets).phase.begun?.isSome)
    (more : Bytes) :
    takes s now stopping phase (octets ++ more) =
      (takes s now stopping (takes s now stopping phase octets).phase more).after
        (takes s now stopping phase octets).actions := by
  by_cases hoctets : octets = []
  · subst hoctets
    rfl
  by_cases hmore : more = []
  · rw [hmore, List.append_nil, takes_nil, Turn.after, List.append_nil]
  rw [takes_of_ne_nil hoctets] at h ⊢
  rw [takes_of_ne_nil hmore, takes_of_ne_nil (List.append_ne_nil_of_left_ne_nil hoctets more)]
  exact step_append hmore h

/-- Between two requests, octets are served with those that are there of the next head. -/
theorem step_of_begun? {begun octets : Bytes} (hbegun : phase.begun? = some begun)
    (hdue : phase.due? s now = some deadline) :
    step s now stopping phase (.octets octets) =
      serve s now stopping deadline (begun ++ octets) := by
  cases phase with
  | idle first deadline' =>
    cases hbegun
    cases hdue
    rfl
  | head deadline' buffer =>
    cases hbegun
    cases hdue
    rfl
  | body | ended => cases hbegun

/-- A head that is waited for is due by some time. -/
theorem exists_due?_of_begun? {begun : Bytes} (hbegun : phase.begun? = some begun) :
    ∃ deadline, phase.due? s now = some deadline := by
  cases phase with
  | idle | head => exact ⟨_, rfl⟩
  | body | ended => cases hbegun

/-- What is there of the next head is not a head yet. -/
theorem parse_begun_goOn {settled : Settled} {begun : Bytes}
    (hturn : ∀ turn, settled = .turn turn → turn.phase.begun? = none)
    (hserve : ∀ actions rest, settled = .next actions rest →
      (serve s now stopping (now + s.headersTimeout) rest).phase.begun? = some begun →
        Head.parse s.maxHeaderSize begun = .error .incomplete)
    (h : (settled.goOn s now stopping).phase.begun? = some begun) :
    Head.parse s.maxHeaderSize begun = .error .incomplete := by
  cases settled with
  | turn turn =>
    rw [Settled.goOn, hturn turn rfl] at h
    cases h
  | next actions rest =>
    cases rest with
    | nil =>
      cases h
      exact Head.parse_nil _
    | cons b rest => exact hserve actions (b :: rest) rfl h

/-- What serving a buffer leaves of a head is not a head yet. -/
theorem parse_begun_serve {begun : Bytes} (deadline : Nat) (buffer : Bytes) :
    (serve s now stopping deadline buffer).phase.begun? = some begun →
      Head.parse s.maxHeaderSize begun = .error .incomplete := by
  induction deadline, buffer using serve_induction with
  | incomplete deadline buffer hparse =>
    rw [serve_of_incomplete hparse]
    rintro ⟨⟩
    exact hparse
  | refused deadline buffer error hparse hne =>
    rw [serve_of_error hparse hne]
    rintro ⟨⟩
  | request deadline buffer head size hparse ih =>
    rw [serve_of_ok hparse]
    exact parse_begun_goOn (fun turn => begun?_of_answer_turn) ih

/-- **Octets that are kept for the next head** are not a head yet. -/
theorem parse_begun_step {octets begun : Bytes}
    (h : (step s now stopping phase (.octets octets)).phase.begun? = some begun) :
    Head.parse s.maxHeaderSize begun = .error .incomplete := by
  cases phase with
  | idle | head => exact parse_begun_serve _ _ h
  | body exchange buffer =>
    rw [step, resume_eq_goOn] at h
    exact parse_begun_goOn (fun turn => begun?_of_settle_turn)
      (fun actions rest _ => parse_begun_serve _ rest) h
  | ended ending => cases h

end Connection

end HttpEcho
