import HttpEcho.Proofs.Session.Requests

/-!
# What a client sees of a run

Whatever the peer does and whichever send fails, the octets that are sent in a run are the
beginning of a conversation: responses that keep the connection open, each after a go-ahead or
without one, and then perhaps one that closes. The response that closes, an end of input and a
failure are each the end of what is done (`Session.orderly_run`).
-/

namespace HttpEcho

open Connection (Ending)
open Stage

/-- What may be sent in a whole conversation, one string of octets at a time. -/
inductive Conversation : List Bytes → Prop
  | nil : Conversation []
  | respond {octets : Bytes} {rest : List Bytes} :
      Response.KeepsOpen octets → Conversation rest → Conversation (octets :: rest)
  | goAheadRespond {octets : Bytes} {rest : List Bytes} :
      Response.KeepsOpen octets → Conversation rest →
        Conversation (continueResponse :: octets :: rest)
  | close {octets : Bytes} : Response.Closes octets → Conversation [octets]
  | goAheadClose {octets : Bytes} :
      Response.Closes octets → Conversation [continueResponse, octets]

/-- What may still be sent at a stage. -/
def Stage.Completes (rest : List Bytes) : Stage → Prop
  | .going false => Conversation rest
  | .going true => Conversation (continueResponse :: rest)
  | .parting _ | .done .. => rest = []

/-- Every stage of a conversation can be completed. -/
theorem Stage.exists_completes (stage : Stage) : ∃ rest, stage.Completes rest := by
  cases stage with
  | going promised =>
    cases promised with
    | false => exact ⟨[], .nil⟩
    | true => exact ⟨[_], .goAheadClose ⟨.ok [], false, rfl⟩⟩
  | parting | done => exact ⟨[], rfl⟩

/-- What is sent on a path is the beginning of what may be sent. -/
theorem Stage.Path.exists_completes {stage stage' : Stage} {trace : Trace}
    (h : Path stage trace stage') : ∃ rest, stage.Completes rest ∧ trace.sends <+: rest := by
  induction h with
  | @nil stage =>
    obtain ⟨rest, hrest⟩ := stage.exists_completes
    exact ⟨rest, hrest, List.nil_prefix⟩
  | @cons stage stage' _ _ trace step _ ih =>
    obtain ⟨rest, hrest, hsends⟩ := ih
    -- nothing is sent after an end, and any completion of what was sent before it will do
    have hend : ∀ event time ending, stage' = .done time ending →
        Trace.sends (event :: trace) = trace.sends →
          ∃ rest, stage.Completes rest ∧ Trace.sends (event :: trace) <+: rest := by
      rintro event time ending rfl hevent
      obtain ⟨rest', hrest'⟩ := stage.exists_completes
      obtain rfl : rest = [] := hrest
      refine ⟨rest', hrest', ?_⟩
      rw [hevent, List.prefix_nil.1 hsends]
      exact List.nil_prefix
    cases step with
    | logged | received | stopAsked => exact ⟨rest, hrest, hsends⟩
    | closed | endOfInput | readFailed | sendFailed => exact hend _ _ _ rfl rfl
    | goAhead => exact ⟨_, hrest, List.cons_prefix_cons.2 ⟨rfl, hsends⟩⟩
    | @respond promised _ octets hkeeps =>
      refine ⟨octets :: rest, ?_, List.cons_prefix_cons.2 ⟨rfl, hsends⟩⟩
      cases promised with
      | false => exact .respond hkeeps hrest
      | true => exact .goAheadRespond hkeeps hrest
    | @part promised _ octets hcloses =>
      obtain rfl : rest = [] := hrest
      refine ⟨[octets], ?_, List.cons_prefix_cons.2 ⟨rfl, hsends⟩⟩
      cases promised with
      | false => exact .close hcloses
      | true => exact .goAheadClose hcloses

/-- No go-ahead follows another one without a response between them. -/
theorem Conversation.not_goAhead_twice {sent : List Bytes} (h : Conversation sent) (i : Nat) :
    sent[i]? = some continueResponse → sent[i + 1]? ≠ some continueResponse := by
  induction h generalizing i with
  | nil => exact nofun
  | @respond octets rest hkeeps _ ih =>
    intro hi
    cases i with
    | zero => exact absurd (Option.some.inj hi) hkeeps.ne_continueResponse
    | succ i => exact ih i hi
  | @goAheadRespond octets rest hkeeps _ ih =>
    intro hi hnext
    match i with
    | 0 => exact hkeeps.ne_continueResponse (Option.some.inj hnext)
    | 1 => exact hkeeps.ne_continueResponse (Option.some.inj hi)
    | i + 2 => exact ih i hi hnext
  | close hcloses =>
    intro hi hnext
    exact nomatch hnext
  | goAheadClose hcloses =>
    intro hi hnext
    match i with
    | 0 => exact hcloses.ne_continueResponse (Option.some.inj hnext)
    | i + 1 => exact nomatch hnext

namespace Session

/-- What can be said of any run. -/
structure Run.Orderly (s : Settings) (peer : Peer) (r : Run) : Prop where
  /-- What is sent is the beginning of a conversation. -/
  conversation : ∃ sent, Conversation sent ∧ r.trace.sends <+: sent
  /-- No two go-aheads are sent without a response between them. -/
  goAheads : ∀ i, r.trace.sends[i]? = some continueResponse →
    r.trace.sends[i + 1]? ≠ some continueResponse
  /-- There is at most one final response for each request whose head has begun. -/
  finals : ∃ requests left, Requests s requests ∧
    peer.received r.trace = requests.flatten ++ left ∧ r.trace.finals ≤ requests.length
  /-- After a response that closes, the sending side is closed and the run is over. -/
  parting : ∀ (before : Trace) (octets : Bytes) (time : Nat) (after : Trace),
    r.trace = before ++ ⟨time, .sent octets⟩ :: after → Response.Closes octets →
      after.deeds = [.closed] ∧ r.ending = some .closed ∧ r.time = time
  /-- After an end of input or a failure nothing is done and the run is over. -/
  silence : ∀ (before : Trace) (event : Event) (time : Nat) (after : Trace) (ending : Ending),
    r.trace = before ++ ⟨time, event⟩ :: after → event.ending? = some ending →
      after.deeds = [] ∧ r.ending = some ending ∧ r.time = time

/-- **Every run is orderly**, whatever the settings, the moves of the peer and the sends that
fail. -/
theorem orderly_run (s : Settings) (failure? : Option SendFailure) (peer : Peer) :
    (run s failure? peer).Orderly s peer := by
  obtain ⟨stage, hpath, hend⟩ := path_run s failure? peer
  obtain ⟨sent, hsent, hprefix⟩ := hpath.exists_completes
  refine ⟨⟨sent, hsent, hprefix⟩, ?_, answers_run s failure? peer, ?_, ?_⟩
  · intro i hi hnext
    -- what was sent stands at the same places of the whole conversation
    have hsome : ∀ {j : Nat} {octets : Bytes}, (run s failure? peer).trace.sends[j]? = some octets →
        sent[j]? = some octets := by
      intro j octets hj
      obtain ⟨more, rfl⟩ := hprefix
      exact (List.getElem?_append_left (List.getElem?_eq_some_iff.1 hj).1).trans hj
    exact Conversation.not_goAhead_twice hsent i (hsome hi) (hsome hnext)
  · intro before octets time after htrace hcloses
    rw [htrace] at hpath
    obtain ⟨stage₁, stage₂, -, step, hafter⟩ := hpath.exists_step
    cases step with
    | goAhead => exact absurd rfl hcloses.ne_continueResponse
    | respond hkeeps => exact absurd hcloses hkeeps.not_closes
    | part =>
      have hdone : stage ≠ .parting time := by
        rintro rfl
        exact hend
      obtain ⟨rfl, hdeeds⟩ := hafter.of_parting hdone
      exact ⟨hdeeds, hend⟩
  · intro before event time after ending htrace hevent
    rw [htrace] at hpath
    obtain ⟨stage₁, stage₂, -, step, hafter⟩ := hpath.exists_step
    have hdone : stage₂ = .done time ending := by
      cases step with
      | logged | received | stopAsked | goAhead | respond | part | closed => exact nomatch hevent
      | endOfInput | readFailed | sendFailed => exact congrArg _ (Option.some.inj hevent)
    rw [hdone] at hafter
    obtain ⟨rfl, hdeeds⟩ := hafter.of_done
    exact ⟨hdeeds, hend⟩

end Session

end HttpEcho
