import HttpEcho.Proofs.Body.Arrival
import HttpEcho.Proofs.Exchange

/-!
# Answers

An exchange reads its body by calls for the next chunk, whatever its head and its policy are. One
call at a time is `Session.respond_eq_answerAfter`, by induction on the moves of the peer; that the
exchange goes on to the end of the body, and stops there, is `Session.respond_drains`, by induction
on the calls. The head and the policy have a say only in what is answered (`Responds`) and in which
notices are given.
-/

namespace HttpEcho

/-- The response to a request with its body in chunks, under a policy: a greeting to GET; to other
methods the first chunk as it is, or the whole body, decoded if it is declared as gzip. -/
inductive Responds (head : Head) (limit : Nat) : EchoPolicy → List Bytes → Response → Prop
  | greets {echo : EchoPolicy} {chunks : List Bytes} : head.method = .get →
      Responds head limit echo chunks (.ok (greeting (head.fields.values "user-agent").head?))
  | echoesFirst {chunks : List Bytes} : head.method ≠ .get →
      Responds head limit .firstChunk chunks (.ok (chunks.head?.getD []))
  | echoes {chunks : List Bytes} : head.method ≠ .get → ¬ head.isGzip ∨ chunks.flatten = [] →
      Responds head limit .full chunks (.ok chunks.flatten)
  | decodes {chunks : List Bytes} {decoded : Bytes} : head.method ≠ .get → head.isGzip →
      chunks.flatten ≠ [] → Gzip.decode limit chunks.flatten = .ok decoded →
      Responds head limit .full chunks (.ok decoded)
  | refuses {chunks : List Bytes} {error : GzipError} : head.method ≠ .get → head.isGzip →
      chunks.flatten ≠ [] → Gzip.decode limit chunks.flatten = .error error →
      Responds head limit .full chunks (.error .badRequest ("Invalid gzip body: " ++ error.message))

/-- The notices with a message. -/
def Trace.noticesOf (message : String) (trace : Trace) : List Notice :=
  trace.events.filterMap fun
    | .logged notice => if notice.message = message then some notice else none
    | _ => none

/-- The message of the notice about a chunk. -/
def chunkMessage : String := "Received body chunk"

namespace Trace

variable {message : String} {time : Nat}

theorem noticesOf_append (trace trace' : Trace) :
    noticesOf message (trace ++ trace') = trace.noticesOf message ++ trace'.noticesOf message := by
  rw [noticesOf, events, List.map_append, List.filterMap_append]
  rfl

theorem noticesOf_stamp (notices : List Notice) :
    noticesOf message (.stamp time (notices.map .logged)) =
      notices.filter fun notice => notice.message = message := by
  induction notices with
  | nil => rfl
  | cons notice notices ih =>
    have hcons : stamp time ((notice :: notices).map .logged) =
        stamp time [.logged notice] ++ stamp time (notices.map .logged) := rfl
    rw [hcons, noticesOf_append, ih, List.filter_cons]
    by_cases hmessage : notice.message = message
    · simp [noticesOf, stamp, events, hmessage]
    · simp [noticesOf, stamp, events, hmessage]

end Trace

namespace Exchange

variable {head : Head} {echo : EchoPolicy} {limit : Nat} {chunks : List Bytes}

/-- What is answered is the response to the request, and no chunk is noticed then. -/
theorem responds_respond (head : Head) (echo : EchoPolicy) (limit : Nat) (chunks : List Bytes) :
    Responds head limit echo chunks (respond head echo limit chunks).2 ∧
      ∀ notice ∈ (respond head echo limit chunks).1, notice.message ≠ chunkMessage := by
  have hdiscarded : "Discarded GET request body" ≠ chunkMessage := by decide
  have hdecoded : "Decoded gzip body" ≠ chunkMessage := by decide
  have hfailed : "Failed to decode gzip body" ≠ chunkMessage := by decide
  unfold respond
  by_cases hget : head.method = .get
  · rw [if_pos hget, Head.userAgent?, Fields.value?_eq_head?]
    refine ⟨.greets hget, ?_⟩
    dsimp only
    split
    · exact List.forall_mem_nil _
    · exact List.forall_mem_singleton.2 hdiscarded
  rw [if_neg hget]
  cases echo with
  | firstChunk => exact ⟨.echoesFirst hget, List.forall_mem_nil _⟩
  | full =>
    by_cases hplain : ¬ head.isGzip ∨ chunks.flatten = []
    · dsimp only
      rw [echoFull_of_plain hplain]
      exact ⟨.echoes hget hplain, List.forall_mem_nil _⟩
    obtain ⟨hgzip, hne⟩ := not_or.1 hplain
    rw [Classical.not_not] at hgzip
    dsimp only
    rw [echoFull_of_gzip hgzip hne]
    cases hdecode : Gzip.decode limit chunks.flatten with
    | ok decoded =>
      exact ⟨.decodes hget hgzip hne hdecode, List.forall_mem_singleton.2 hdecoded⟩
    | error error =>
      exact ⟨.refuses hget hgzip hne hdecode, List.forall_mem_singleton.2 hfailed⟩

/-- A chunk is noticed with its size, unless the request is GET. -/
theorem noticeOfChunk_filter (head : Head) (octets : Bytes) :
    ((noticeOfChunk head octets).filter fun notice => notice.message = chunkMessage) =
      if head.method = .get then [] else [.bodyChunk octets.length] := by
  rw [noticeOfChunk]
  split
  · rfl
  · rfl

end Exchange

/-- A read gives no notices. -/
theorem Peer.noticesOf_read (p : Peer) (patience : Patience) (message : String) :
    (p.read patience).trace.noticesOf message = [] := by
  unfold read
  generalize p.script = script
  fun_induction readFrom patience script p with
  | case2 octets rest p _ _ ih | case12 rest p _ _ _ _ ih => exact ih
  | case7 ms rest p _ ih => exact ih
  | _ => rfl

namespace Session

variable {x y : Exchange} {buffer octets : Bytes} {peer : Peer}

/-! ### One step of an answer -/

theorem Answer.after_after (a : Answer) (trace trace' : Trace) :
    (a.after trace').after trace = a.after (trace ++ trace') := by
  rw [after, after, after, List.append_assoc]

/-- What an exchange answers when a call gives no more chunks of its body and does not complete
it. -/
def Chunk.answer? : Chunk → Option (Except BodyError Response)
  | .failed error => some (.error error)
  | _ => none

theorem respond_of_answered {response : Response}
    (h : (x.feed buffer).progress = .answered response) :
    respond x buffer peer = ⟨some (.ok response),
      .stamp peer.now ((x.feed buffer).notices.map .logged), (x.feed buffer).rest, peer⟩ := by
  unfold respond
  dsimp only
  split
  case h_1 h' =>
    cases h.symm.trans h'
    rfl
  case h_2 h' | h_3 h' => cases h.symm.trans h'

theorem respond_of_refused {error : BodyError} (h : (x.feed buffer).progress = .refused error) :
    respond x buffer peer = ⟨some (.error error),
      .stamp peer.now ((x.feed buffer).notices.map .logged), (x.feed buffer).rest, peer⟩ := by
  unfold respond
  dsimp only
  split
  case h_2 h' =>
    cases h.symm.trans h'
    rfl
  case h_1 h' | h_3 h' => cases h.symm.trans h'

theorem respond_of_octets (h : (x.feed buffer).progress = .waiting y)
    (hread : (peer.read ⟨none, false⟩).result = .ok (.octets octets)) :
    respond x buffer peer =
      (respond y ((x.feed buffer).rest ++ octets) (peer.read ⟨none, false⟩).peer).after
        (.stamp peer.now ((x.feed buffer).notices.map .logged) ++
          (peer.read ⟨none, false⟩).trace) := by
  rw [respond.eq_def]
  dsimp only
  split
  case h_1 h' | h_2 h' => cases h.symm.trans h'
  case h_3 h' =>
    cases h.symm.trans h'
    split
    case h_1 hread' =>
      cases hread.symm.trans hread'
      rfl
    case h_2 hread' | h_3 hread' | h_4 hread' => cases hread.symm.trans hread'

theorem respond_of_noOctets (h : (x.feed buffer).progress = .waiting y)
    (hread : ∀ octets, (peer.read ⟨none, false⟩).result ≠ .ok (.octets octets)) :
    respond x buffer peer = ⟨(Source.unread (peer.read ⟨none, false⟩).result).answer?,
      .stamp peer.now ((x.feed buffer).notices.map .logged) ++ (peer.read ⟨none, false⟩).trace,
      (x.feed buffer).rest, (peer.read ⟨none, false⟩).peer⟩ := by
  rw [respond.eq_def]
  dsimp only
  split
  case h_1 h' | h_2 h' => cases h.symm.trans h'
  case h_3 h' =>
    split
    case h_1 octets hread' => exact absurd hread' (hread octets)
    case h_2 hread' | h_3 hread' | h_4 hread' =>
      rw [hread']
      rfl

/-- What an exchange does after a call for the next chunk of its body. -/
def answerAfter (x : Exchange) (call : Call) : Answer :=
  match call.result with
  | .chunk octets =>
    (respond { x with body := call.source.body, received := octets :: x.received }
        call.source.buffer call.source.peer).after
      (call.trace ++ .stamp call.source.peer.now
        ((Exchange.noticeOfChunk x.head octets).map .logged))
  | .complete =>
    let answered := Exchange.respond x.head x.echo x.maxBodySize x.received.reverse
    ⟨some (.ok answered.2),
      call.trace ++ .stamp call.source.peer.now (answered.1.map .logged),
      call.source.buffer, call.source.peer⟩
  | result => ⟨result.answer?, call.trace, call.source.buffer, call.source.peer⟩

theorem answerAfter_of_chunk {call : Call} (h : call.result = .chunk octets) :
    answerAfter x call =
      (respond { x with body := call.source.body, received := octets :: x.received }
        call.source.buffer call.source.peer).after
          (call.trace ++
            .stamp call.source.peer.now ((Exchange.noticeOfChunk x.head octets).map .logged)) := by
  rw [answerAfter, h]

theorem answerAfter_after (x : Exchange) (call : Call) (trace : Trace) :
    answerAfter x (call.after trace) = (answerAfter x call).after trace := by
  obtain ⟨result, trace', source⟩ := call
  cases result with
  | chunk octets =>
    rw [answerAfter, answerAfter, Answer.after_after, ← List.append_assoc]
    rfl
  | complete =>
    rw [answerAfter, answerAfter, Answer.after, ← List.append_assoc]
    rfl
  | failed | never => rfl

/-- A chunk at hand is taken, and noticed. -/
theorem respond_of_chunk (h : (x.body.advance buffer).outcome = .chunk octets) :
    respond x buffer peer =
      (respond { x with body := (x.body.advance buffer).body, received := octets :: x.received }
        (x.body.advance buffer).rest peer).after
          (.stamp peer.now ((Exchange.noticeOfChunk x.head octets).map .logged)) := by
  have hfeed := Exchange.feed_chunk h
  generalize ({ x with body := _, received := octets :: x.received } : Exchange) = x' at hfeed ⊢
  generalize (x.body.advance buffer).rest = rest at hfeed ⊢
  have hprogress : (x.feed buffer).progress = (x'.feed rest).progress := by
    rw [hfeed, Exchange.Fed.after]
  have hlogs : Trace.stamp peer.now ((x.feed buffer).notices.map .logged) =
      .stamp peer.now ((Exchange.noticeOfChunk x.head octets).map .logged) ++
        .stamp peer.now ((x'.feed rest).notices.map .logged) := by
    rw [hfeed, Exchange.Fed.after, List.map_append, Trace.stamp, List.map_append]
    rfl
  have hrest : (x.feed buffer).rest = (x'.feed rest).rest := by rw [hfeed, Exchange.Fed.after]
  cases hfed : (x'.feed rest).progress with
  | answered response =>
    rw [respond_of_answered hfed, respond_of_answered (hprogress.trans hfed), hlogs, hrest]
    rfl
  | refused error =>
    rw [respond_of_refused hfed, respond_of_refused (hprogress.trans hfed), hlogs, hrest]
    rfl
  | waiting y =>
    by_cases hoctets : ∃ octets, (peer.read ⟨none, false⟩).result = .ok (.octets octets)
    · obtain ⟨octets, hread⟩ := hoctets
      rw [respond_of_octets hfed hread, respond_of_octets (hprogress.trans hfed) hread,
        hlogs, hrest, Answer.after_after, List.append_assoc]
    · have hread := not_exists.1 hoctets
      rw [respond_of_noOctets hfed hread, respond_of_noOctets (hprogress.trans hfed) hread, hlogs,
        hrest, List.append_assoc]
      rfl

/-- **An exchange asks for one chunk after the other.** -/
theorem respond_eq_answerAfter (x : Exchange) (buffer : Bytes) (peer : Peer) :
    respond x buffer peer = answerAfter x (Source.next ⟨x.body, buffer, peer⟩) := by
  induction hn : peer.script.length using Nat.strongRecOn generalizing x buffer peer with
  | ind n ih =>
    let source : Source := ⟨x.body, buffer, peer⟩
    cases houtcome : (x.body.advance buffer).outcome with
    | chunk octets =>
      have hnext := source.next_of_outcome (by rw [houtcome]; exact nofun)
      rw [hnext, houtcome, respond_of_chunk houtcome]
      rfl
    | complete =>
      have hnext := source.next_of_outcome (by rw [houtcome]; exact nofun)
      have hfeed := Exchange.feed_complete houtcome
      rw [hnext, houtcome, respond_of_answered (congrArg Exchange.Fed.progress hfeed), hfeed]
      rfl
    | refused error =>
      have hnext := source.next_of_outcome (by rw [houtcome]; exact nofun)
      have hfeed := Exchange.feed_refused houtcome
      rw [hnext, houtcome, respond_of_refused (congrArg Exchange.Fed.progress hfeed), hfeed]
      rfl
    | wait =>
      have hfeed := Exchange.feed_wait houtcome
      have hwaiting := congrArg Exchange.Fed.progress hfeed
      by_cases hoctets : ∃ octets, (peer.read ⟨none, false⟩).result = .ok (.octets octets)
      · obtain ⟨octets, hread⟩ := hoctets
        have hlt := Peer.length_read_script_lt hread
        rw [respond_of_octets hwaiting hread, @Source.next_of_octets source _ houtcome hread,
          ih _ (hn ▸ hlt) _ _ _ rfl, hfeed, answerAfter_after]
        rfl
      · have hread := not_exists.1 hoctets
        rw [respond_of_noOctets hwaiting hread, @Source.next_of_noOctets source houtcome hread,
          hfeed]
        cases hresult : (peer.read ⟨none, false⟩).result with
        | ok arrival =>
          cases arrival with
          | octets octets => exact absurd hresult (hread octets)
          | endOfInput | failure => rfl
        | error silence => rfl

/-! ### A whole body -/

/-- The call that comes to the end of a body. -/
def Source.last (source : Source) : Call := source.all.getLastD source.next

/-- What an exchange comes to if the calls for its body give chunks, and then something else. -/
inductive Ends (head : Head) (echo : EchoPolicy) (limit : Nat) (chunks : List Bytes) :
    Chunk → Option (Except BodyError Response) → Prop
  | answered {response : Response} : Responds head limit echo chunks response →
      Ends head echo limit chunks .complete (some (.ok response))
  | failed (error : BodyError) : Ends head echo limit chunks (.failed error) (some (.error error))
  | never : Ends head echo limit chunks .never none

section Source

variable {source : Source}

theorem Source.all_ne_nil (source : Source) : source.all ≠ [] := by
  rw [all]
  split
  · exact List.cons_ne_nil _ _
  · exact List.cons_ne_nil _ _

theorem Source.last_of_chunk (h : source.next.result = .chunk octets) :
    source.last = source.next.source.last := by
  rw [last, last, all_of_chunk h, List.getLastD_cons]
  obtain ⟨call, calls, hall⟩ := List.exists_cons_of_ne_nil source.next.source.all_ne_nil
  rw [hall, List.getLastD_cons, List.getLastD_cons]

/-- A call that gives no chunk is the last one. -/
theorem Source.last_of_not_chunk (h : ∀ octets, source.next.result ≠ .chunk octets) :
    source.last = source.next := by
  rw [last, all_of_not_chunk h]
  rfl

/-- What comes of draining is what the last call gives, or the number of octets. -/
theorem Source.drain_result (source : Source) : source.drain.1 = match source.last.result with
    | .failed error => .failed error
    | .never => .never
    | _ => .octets (source.all.flatMap Call.octets).length := rfl

/-- Reading a body gives no notices. -/
theorem Source.noticesOf_next (source : Source) (message : String) :
    source.next.trace.noticesOf message = [] := by
  fun_induction Source.next source with
  | case1 | case2 | case3 => rfl
  | case4 source a after houtcome r octets hread ih =>
    have hread := Peer.noticesOf_read source.peer ⟨none, false⟩ message
    rw [Call.after, Trace.noticesOf_append, ih, List.append_nil]
    exact hread
  | case5 source | case6 source | case7 source =>
    exact Peer.noticesOf_read source.peer ⟨none, false⟩ message

end Source

/-- After the last call an exchange comes to its end, with the source as the call left it. -/
theorem ends_answerAfter (x : Exchange) {call : Call} (h : ∀ octets, call.result ≠ .chunk octets)
    (htrace : call.trace.noticesOf chunkMessage = []) :
    (answerAfter x call).rest = call.source.buffer ∧ (answerAfter x call).peer = call.source.peer ∧
      Ends x.head x.echo x.maxBodySize x.received.reverse call.result (answerAfter x call).result ∧
      (answerAfter x call).trace.noticesOf chunkMessage = [] := by
  obtain ⟨result, trace, source⟩ := call
  cases result with
  | chunk octets => exact absurd rfl (h octets)
  | complete =>
    obtain ⟨hresponds, hnotices⟩ :=
      Exchange.responds_respond x.head x.echo x.maxBodySize x.received.reverse
    refine ⟨rfl, rfl, .answered hresponds, ?_⟩
    rw [answerAfter, Trace.noticesOf_append, htrace, Trace.noticesOf_stamp, List.nil_append]
    exact List.filter_eq_nil_iff.2 fun notice hmem => mt of_decide_eq_true (hnotices notice hmem)
  | failed error => exact ⟨rfl, rfl, .failed error, htrace⟩
  | never => exact ⟨rfl, rfl, .never, htrace⟩

/-- What an exchange comes to that has received some chunks before. -/
theorem respond_ends (x : Exchange) (buffer : Bytes) (peer : Peer) :
    let source : Source := ⟨x.body, buffer, peer⟩
    let answer := respond x buffer peer
    answer.rest = source.last.source.buffer ∧ answer.peer = source.last.source.peer ∧
      ∃ chunks, source.results = chunks.map .chunk ++ [source.last.result] ∧
        Ends x.head x.echo x.maxBodySize (x.received.reverse ++ chunks) source.last.result
          answer.result ∧
        answer.trace.noticesOf chunkMessage =
          if x.head.method = .get then [] else chunks.map fun octets =>
            .bodyChunk octets.length := by
  intro source answer
  induction hn : source.measure using Nat.strongRecOn generalizing x buffer peer with
  | ind n ih =>
    have hanswer : answer = answerAfter x source.next := respond_eq_answerAfter x buffer peer
    by_cases hchunk : ∃ octets, source.next.result = .chunk octets
    · obtain ⟨octets, hchunk⟩ := hchunk
      have hlt := Source.measure_next hchunk
      obtain ⟨hrest, hpeer, chunks, hresults, hends, hnotices⟩ := ih _ (hn ▸ hlt)
        { x with body := source.next.source.body, received := octets :: x.received }
        source.next.source.buffer source.next.source.peer rfl
      rw [hanswer, answerAfter_of_chunk hchunk, Source.last_of_chunk hchunk,
        Source.results_of_chunk hchunk]
      refine ⟨hrest, hpeer, octets :: chunks, ?_, ?_, ?_⟩
      · rw [hresults, List.map_cons, List.cons_append]
      · rwa [List.reverse_cons, List.append_assoc] at hends
      · rw [Answer.after, Trace.noticesOf_append, Trace.noticesOf_append, Trace.noticesOf_stamp,
          source.noticesOf_next, Exchange.noticeOfChunk_filter, hnotices]
        split
        · rfl
        · rfl
    · have hnot := not_exists.1 hchunk
      obtain ⟨hrest, hpeer, hends, hnotices⟩ :=
        ends_answerAfter x hnot (source.noticesOf_next chunkMessage)
      rw [hanswer, Source.last_of_not_chunk hnot, Source.results_of_not_chunk hnot, hnotices]
      refine ⟨hrest, hpeer, [], rfl, ?_, ?_⟩
      · rwa [List.append_nil]
      · rw [List.map_nil, ite_self]

section Drained

variable {source : Source} {head : Head} {echo : EchoPolicy} {limit : Nat} {chunks : List Bytes}
  {result : Option (Except BodyError Response)}

/-- An exchange is answered exactly if its body is drained to its end. -/
theorem Ends.answered_iff (h : Ends head echo limit chunks source.last.result result) :
    (∃ response, result = some (.ok response)) ↔ ∃ n, source.drain.1 = .octets n := by
  rw [source.drain_result]
  generalize source.last.result = last at h ⊢
  cases h with
  | answered => exact ⟨fun _ => ⟨_, rfl⟩, fun _ => ⟨_, rfl⟩⟩
  | failed | never => exact ⟨nofun, nofun⟩

/-- An exchange fails exactly if draining its body fails, and with the same error. -/
theorem Ends.failed_iff (h : Ends head echo limit chunks source.last.result result)
    (error : BodyError) : result = some (.error error) ↔ source.drain.1 = .failed error := by
  rw [source.drain_result]
  generalize source.last.result = last at h ⊢
  cases h with
  | answered | never => exact ⟨nofun, nofun⟩
  | failed error' => rw [Option.some.injEq, Except.error.injEq, Drained.failed.injEq]

end Drained

end Session

end HttpEcho
