import HttpEcho.Response
import HttpEcho.Proofs.Bytes
import HttpEcho.Proofs.Text.Utf8

/-!
# Responses on the wire

An encoded response is its lines, a blank line, and the body (`Response.encode_eq`). No line has a
CR LF in it, so that the lines can be told apart on the wire whatever the body holds: the go-ahead,
the responses that keep a connection open and those that close it are three disjoint sets of octet
strings.
-/

namespace HttpEcho

namespace Response

/-- The status line. -/
def statusLine (status : Status) : Bytes := Utf8.encode s!"HTTP/1.1 {status.code} {status.reason}"

/-- The line that names the server. -/
def serverLine : Bytes := Utf8.encode s!"Server: {serverName}"

/-- The line that gives the length of the body. -/
def lengthLine (length : Nat) : Bytes := Utf8.encode s!"Content-Length: {length}"

/-- The lines that announce the persistence. -/
def persistenceLines : Persistence → List Bytes
  | .keepAlive idle =>
    [Utf8.encode "Connection: keep-alive",
      Utf8.encode s!"Keep-Alive: timeout={idle.secondsRoundedUp}"]
  | .close => [Utf8.encode "Connection: close"]

private theorem encode_crlf : Utf8.encode "\r\n" = Bytes.crlf := by decide

private theorem encode_close_lines :
    Utf8.encode "Connection: close\r\n" = Utf8.encode "Connection: close" ++ Bytes.crlf := by
  decide

private theorem encode_keepAlive_lines :
    Utf8.encode "Connection: keep-alive\r\nKeep-Alive: timeout=" =
      Utf8.encode "Connection: keep-alive" ++
        (Bytes.crlf ++ Utf8.encode "Keep-Alive: timeout=") := by
  decide

private theorem encode_lines (p : Persistence) :
    Utf8.encode p.lines = (persistenceLines p).flatMap (· ++ Bytes.crlf) := by
  cases p with
  | close => exact encode_close_lines.trans (List.append_nil _).symm
  | keepAlive idle =>
    have hlines : (Persistence.keepAlive idle).lines =
        "Connection: keep-alive\r\nKeep-Alive: timeout=" ++ toString idle.secondsRoundedUp ++
          "\r\n" := rfl
    have hline : persistenceLines (.keepAlive idle) =
        [Utf8.encode "Connection: keep-alive",
          Utf8.encode ("Keep-Alive: timeout=" ++ toString idle.secondsRoundedUp)] := rfl
    rw [hlines, hline]
    generalize toString idle.secondsRoundedUp = seconds
    rw [Utf8.encode_append, Utf8.encode_append, encode_keepAlive_lines, encode_crlf,
      Utf8.encode_append]
    simp only [List.flatMap_cons, List.flatMap_nil, List.append_assoc, List.append_nil]

/-- **The wire form**: each line with its line end, a blank line, and the body. -/
theorem encode_eq (r : Response) (p : Persistence) (headOnly : Bool) :
    r.encode p headOnly =
      statusLine r.status ++ (Bytes.crlf ++ (serverLine ++ (Bytes.crlf ++
        (lengthLine r.body.length ++ (Bytes.crlf ++
          ((persistenceLines p).flatMap (· ++ Bytes.crlf) ++
            (Bytes.crlf ++ if headOnly then [] else r.body))))))) := by
  -- as unfolded, the head is a long literal, which simp is slow to take apart
  have htext : ∀ a b c d : String,
      Utf8.encode (a ++ "\r\n" ++ (b ++ "\r\n") ++ (c ++ "\r\n") ++ d ++ "\r\n") =
        Utf8.encode a ++ (Bytes.crlf ++ (Utf8.encode b ++ (Bytes.crlf ++
          (Utf8.encode c ++ (Bytes.crlf ++ (Utf8.encode d ++ Bytes.crlf)))))) := by
    intro a b c d
    simp only [Utf8.encode_append, encode_crlf, List.append_assoc]
  have hhead : Utf8.encode (r.head p) =
      statusLine r.status ++ (Bytes.crlf ++ (serverLine ++ (Bytes.crlf ++
        (lengthLine r.body.length ++ (Bytes.crlf ++ (Utf8.encode p.lines ++ Bytes.crlf)))))) :=
    htext _ _ _ _
  rw [encode, hhead, encode_lines]
  simp only [List.append_assoc]

/-! ### No line has a line end in it -/

private theorem noCrlf_encode {s : String} (h : '\r' ∉ s.toList) :
    ¬ Bytes.crlf <:+: Utf8.encode s := by
  intro hcrlf
  have hcr : Bytes.cr ∈ Utf8.encodeChars s.toList := hcrlf.subset List.mem_cons_self
  exact h ((Utf8.mem_encodeChars_iff (by decide)).1 hcr)

private theorem cr_notMem_toString (n : Nat) : '\r' ∉ (toString n).toList := by
  intro h
  rw [Nat.toString_eq_ofList_toDigits, String.toList_ofList] at h
  exact absurd (Nat.isDigit_of_mem_toDigits (by decide) (by decide) h) (by decide)

theorem noCrlf_statusLine (status : Status) : ¬ Bytes.crlf <:+: statusLine status := by
  refine noCrlf_encode ?_
  cases status <;> decide

theorem noCrlf_serverLine : ¬ Bytes.crlf <:+: serverLine :=
  noCrlf_encode (by decide)

theorem noCrlf_lengthLine (length : Nat) : ¬ Bytes.crlf <:+: lengthLine length := by
  refine noCrlf_encode ?_
  simp only [String.toList_append, List.mem_append, not_or]
  exact ⟨by decide, cr_notMem_toString length⟩

theorem noCrlf_persistenceLines {p : Persistence} {line : Bytes}
    (h : line ∈ persistenceLines p) : ¬ Bytes.crlf <:+: line := by
  cases p with
  | close =>
    rcases List.mem_singleton.1 h with rfl
    exact noCrlf_encode (by decide)
  | keepAlive idle =>
    rcases List.mem_cons.1 h with rfl | h
    · exact noCrlf_encode (by decide)
    rcases List.mem_singleton.1 h with rfl
    refine noCrlf_encode ?_
    simp only [String.toList_append, List.mem_append, not_or]
    exact ⟨by decide, cr_notMem_toString _⟩

/-! ### Kinds of responses -/

/-- A response on the wire that keeps the connection open: a success, or a report that the body is
not what it was declared to be. -/
def KeepsOpen (octets : Bytes) : Prop :=
  ∃ (r : Response) (idle : Span) (headOnly : Bool), (r.status = .ok ∨ r.status = .badRequest) ∧
    octets = r.encode (.keepAlive idle) headOnly

/-- A response on the wire that closes the connection. -/
def Closes (octets : Bytes) : Prop :=
  ∃ (r : Response) (headOnly : Bool), octets = r.encode .close headOnly

/-- The lines of a response can be read off the wire. -/
theorem lines_eq_of_encode_eq {r r' : Response} {p p' : Persistence} {headOnly headOnly' : Bool}
    (h : r.encode p headOnly = r'.encode p' headOnly') :
    statusLine r.status = statusLine r'.status ∧
      lengthLine r.body.length = lengthLine r'.body.length ∧
        (persistenceLines p).head? = (persistenceLines p').head? := by
  rw [encode_eq, encode_eq] at h
  obtain ⟨hstatus, h⟩ := Bytes.append_crlf_inj (noCrlf_statusLine _) (noCrlf_statusLine _) h
  obtain ⟨-, h⟩ := Bytes.append_crlf_inj noCrlf_serverLine noCrlf_serverLine h
  obtain ⟨hlength, h⟩ := Bytes.append_crlf_inj (noCrlf_lengthLine _) (noCrlf_lengthLine _) h
  refine ⟨hstatus, hlength, ?_⟩
  have hfirst : ∀ q, ∃ line lines, persistenceLines q = line :: lines := by
    intro q
    cases q <;> exact ⟨_, _, rfl⟩
  obtain ⟨line, lines, hline⟩ := hfirst p
  obtain ⟨line', lines', hline'⟩ := hfirst p'
  have hmem : line ∈ persistenceLines p := hline ▸ List.mem_cons_self
  have hmem' : line' ∈ persistenceLines p' := hline' ▸ List.mem_cons_self
  rw [hline, hline', List.flatMap_cons, List.flatMap_cons] at h
  simp only [List.append_assoc] at h
  rw [hline, hline', List.head?_cons, List.head?_cons]
  exact congrArg some (Bytes.append_crlf_inj (noCrlf_persistenceLines hmem)
    (noCrlf_persistenceLines hmem') h).1

/-- No response is the go-ahead. -/
theorem encode_ne_continueResponse (r : Response) (p : Persistence) (headOnly : Bool) :
    r.encode p headOnly ≠ continueResponse := by
  intro h
  have hsplit : continueResponse =
      Utf8.encode "HTTP/1.1 100 Continue" ++ (Bytes.crlf ++ Bytes.crlf) := by decide
  rw [encode_eq, hsplit] at h
  have hline : ¬ Bytes.crlf <:+: Utf8.encode "HTTP/1.1 100 Continue" :=
    noCrlf_encode (by decide)
  have hstatus := (Bytes.append_crlf_inj (noCrlf_statusLine _) hline h).1
  revert hstatus
  cases r.status <;> decide

/-- The go-ahead is not a response that keeps the connection open. -/
theorem KeepsOpen.ne_continueResponse {octets : Bytes} (h : KeepsOpen octets) :
    octets ≠ continueResponse := by
  obtain ⟨r, idle, headOnly, -, hoctets⟩ := h
  exact hoctets ▸ encode_ne_continueResponse r (.keepAlive idle) headOnly

/-- The go-ahead is not a response that closes the connection. -/
theorem Closes.ne_continueResponse {octets : Bytes} (h : Closes octets) :
    octets ≠ continueResponse := by
  obtain ⟨r, headOnly, hoctets⟩ := h
  exact hoctets ▸ encode_ne_continueResponse r .close headOnly

/-- No response both keeps the connection open and closes it. -/
theorem KeepsOpen.not_closes {octets : Bytes} (h : KeepsOpen octets) : ¬ Closes octets := by
  rintro ⟨r', headOnly', hclose⟩
  obtain ⟨r, idle, headOnly, -, hopen⟩ := h
  rw [hopen] at hclose
  have hfirst := (lines_eq_of_encode_eq hclose).2.2
  rw [persistenceLines, persistenceLines, List.head?_cons, List.head?_cons, Option.some.injEq,
    Utf8.encode_inj] at hfirst
  exact absurd hfirst (by decide)

end Response

end HttpEcho
