import HttpEcho.Proofs.Head.Grammar
import HttpEcho.Proofs.Response
import HttpEcho.Proofs.Text.Numeral

/-!
# The header lines of a response

The header lines of a response are those of names and values: the server, the length of the body,
and what is said about the connection (`Response.headers`). The names and the values have characters
only that can be seen, so that each line is one that a reader of header fields takes as that name
and that value (`Response.exists_fieldTexts`). With these lines a response is written as the head of
a request is: lines, the ending of the head, and what follows (`Response.encode_eq_headers`).
-/

namespace HttpEcho

namespace FieldText

/-- Whether a text can be the name of a field. -/
def isName (s : String) : Bool := s ≠ "" && (Utf8.encode s).all isTokenOctet

/-- Whether a text has only ASCII characters that can be seen. -/
def isVisible (s : String) : Bool := s.toList.all fun c => 0x20 < c.toNat && c.toNat < 0x7F

theorem isVisible_iff {s : String} :
    isVisible s ↔ ∀ c ∈ s.toList, 0x20 < c.toNat ∧ c.toNat < 0x7F := by
  simp only [isVisible, List.all_eq_true, Bool.and_eq_true, decide_eq_true_eq]

theorem isVisible_append {s t : String} (hs : isVisible s) (ht : isVisible t) :
    isVisible (s ++ t) := by
  rw [isVisible, String.toList_append, List.all_append, Bool.and_eq_true]
  exact ⟨hs, ht⟩

theorem isVisible_toString (n : Nat) : isVisible (toString n) := by
  refine isVisible_iff.2 fun c hc => ?_
  have hdigit := (Text.denotes_toString n).isDigit c hc
  rw [Char.isDigit, Bool.and_eq_true, decide_eq_true_eq, decide_eq_true_eq] at hdigit
  exact ⟨Nat.lt_of_lt_of_le (by decide) hdigit.1, Nat.lt_of_le_of_lt hdigit.2 (by decide)⟩

/-- The octets of a visible text are visible. -/
theorem of_mem_encode {s : String} (h : isVisible s) {b : UInt8} (hb : b ∈ Utf8.encode s) :
    0x20 < b.toNat ∧ b.toNat < 0x7F := by
  obtain ⟨c, hc, hb⟩ := List.mem_flatMap.1 hb
  obtain ⟨hlow, hhigh⟩ := isVisible_iff.1 h c hc
  have hmem := List.mem_map_of_mem (f := UInt8.toNat) hb
  rw [Utf8.toNat_utf8EncodeChar, if_pos (Nat.le_of_lt hhigh)] at hmem
  rw [List.mem_singleton.1 hmem]
  exact ⟨hlow, hhigh⟩

/-- A name and a value that can be seen make a header line, with one space between them. -/
theorem exists_of_visible {name value : String} (hname : isName name) (hvalue : isVisible value) :
    ∃ t : FieldText, t.wire = Utf8.encode (name ++ ": " ++ value) ∧
      t.field = { name, value := Utf8.encode value } := by
  rw [isName, Bool.and_eq_true, decide_eq_true_eq] at hname
  have hcolon : Utf8.encode ": " = [0x3A, 0x20] := by decide
  have value_allowed : ∀ b ∈ Utf8.encode value, ¬ isForbiddenInValue b := by
    intro b hb hforbidden
    obtain ⟨hlow, -⟩ := of_mem_encode hvalue hb
    obtain rfl | rfl | rfl := isForbiddenInValue_iff.1 hforbidden <;> exact absurd hlow (by decide)
  have hpadding : ∀ b ∈ Utf8.encode value, ¬ isPadding b := by
    intro b hb hpadding
    obtain ⟨hlow, -⟩ := of_mem_encode hvalue hb
    obtain rfl | rfl := isPadding_iff.1 hpadding <;> exact absurd hlow (by decide)
  let t : FieldText :=
    { name, value := Utf8.encode value
      before := [0x20]
      after := []
      name_ne_empty := hname.1
      name_token := List.all_eq_true.1 hname.2
      before_padding := List.forall_mem_singleton.2 rfl
      after_padding := List.forall_mem_nil _
      value_allowed
      value_head := fun b hb => hpadding b (List.mem_of_mem_head? hb)
      value_last := fun b hb => hpadding b (List.mem_of_mem_getLast? hb) }
  refine ⟨t, ?_, rfl⟩
  change Utf8.encode name ++ 0x3A :: ([0x20] ++ (Utf8.encode value ++ [])) = _
  rw [Utf8.encode_append, Utf8.encode_append, hcolon, List.append_assoc, List.append_nil]
  rfl

end FieldText

namespace Persistence

/-- The option of the connection line. -/
def option : Persistence → String
  | .keepAlive _ => "keep-alive"
  | .close => "close"

/-- The header lines behind the connection line. -/
def parameters : Persistence → List (String × String)
  | .keepAlive idle => [("Keep-Alive", "timeout=" ++ toString idle.secondsRoundedUp)]
  | .close => []

theorem isVisible_option (p : Persistence) : FieldText.isVisible p.option := by
  have hstay : FieldText.isVisible "keep-alive" := by decide +kernel
  have hclose : FieldText.isVisible "close" := by decide +kernel
  cases p with
  | keepAlive => exact hstay
  | close => exact hclose

theorem isVisible_of_mem_parameters {p : Persistence} {header : String × String}
    (h : header ∈ p.parameters) : FieldText.isName header.1 ∧ FieldText.isVisible header.2 := by
  cases p with
  | close => cases h
  | keepAlive idle =>
    obtain rfl := List.mem_singleton.1 h
    have hname : FieldText.isName "Keep-Alive" := by decide +kernel
    have htimeout : FieldText.isVisible "timeout=" := by decide +kernel
    exact ⟨hname, FieldText.isVisible_append htimeout (FieldText.isVisible_toString _)⟩

end Persistence

namespace Response

/-- The names and values of the header lines. -/
def headers (r : Response) (p : Persistence) : List (String × String) :=
  ("Server", serverName) :: ("Content-Length", toString r.body.length) ::
    ("Connection", p.option) :: p.parameters

/-- The header line of a name and a value. -/
def headerLine (header : String × String) : Bytes := Utf8.encode (header.1 ++ ": " ++ header.2)

/-- The field of a name and a value. -/
def headerField (header : String × String) : Field := ⟨header.1, Utf8.encode header.2⟩

/-- The header lines can be written. -/
theorem isVisible_of_mem_headers {r : Response} {p : Persistence} {header : String × String}
    (h : header ∈ r.headers p) : FieldText.isName header.1 ∧ FieldText.isVisible header.2 := by
  have hserver : FieldText.isName "Server" ∧ FieldText.isVisible serverName := by decide +kernel
  have hlength : FieldText.isName "Content-Length" := by decide +kernel
  have hconnection : FieldText.isName "Connection" := by decide +kernel
  obtain rfl | h := List.mem_cons.1 h
  · exact hserver
  obtain rfl | h := List.mem_cons.1 h
  · exact ⟨hlength, FieldText.isVisible_toString _⟩
  obtain rfl | h := List.mem_cons.1 h
  · exact ⟨hconnection, p.isVisible_option⟩
  · exact Persistence.isVisible_of_mem_parameters h

/-- The headers of a response are fields as they may be written. -/
theorem exists_fieldTexts (r : Response) (p : Persistence) :
    ∃ ts : List FieldText, (r.headers p).map headerLine = ts.map FieldText.wire ∧
      (r.headers p).map headerField = ts.map FieldText.field := by
  have hall := @isVisible_of_mem_headers r p
  generalize r.headers p = headers at hall
  induction headers with
  | nil => exact ⟨[], rfl, rfl⟩
  | cons header headers ih =>
    obtain ⟨hname, hvalue⟩ := hall List.mem_cons_self
    obtain ⟨t, hwire, hfield⟩ := FieldText.exists_of_visible hname hvalue
    obtain ⟨ts, hwires, hfields⟩ := ih fun hmem => hall (List.mem_cons_of_mem _ hmem)
    refine ⟨t :: ts, ?_, ?_⟩
    · rw [List.map_cons, List.map_cons, hwires, hwire, headerLine]
    · rw [List.map_cons, List.map_cons, hfields, hfield, headerField]

/-- The headers of a response are its lines behind the status line. -/
theorem map_headerLine (r : Response) (p : Persistence) :
    (r.headers p).map headerLine =
      serverLine :: lengthLine r.body.length :: persistenceLines p := by
  cases p with
  | close => rfl
  | keepAlive idle =>
    have htext : "Keep-Alive" ++ ": " ++ ("timeout=" ++ toString idle.secondsRoundedUp) =
        s!"Keep-Alive: timeout={idle.secondsRoundedUp}" := by
      rw [← String.append_assoc]
      rfl
    simp only [headers, Persistence.parameters, List.map_cons, List.map_nil, headerLine, htext]
    rfl

/-- A response on the wire is its lines, the ending of the head, and the body. -/
theorem encode_eq_headers (r : Response) (p : Persistence) (headOnly : Bool) :
    r.encode p headOnly =
      statusLine r.status ++ (((r.headers p).map headerLine).flatMap (Bytes.crlf ++ ·) ++
        (headEnd ++ if headOnly then [] else r.body)) := by
  -- the line ends stand behind the lines or in front of them
  have hshift : ∀ rest : Bytes, Bytes.crlf ++
      ((persistenceLines p).flatMap (· ++ Bytes.crlf) ++ rest) =
      (persistenceLines p).flatMap (Bytes.crlf ++ ·) ++ (Bytes.crlf ++ rest) := by
    intro rest
    cases p <;> simp only [persistenceLines, List.flatMap_cons, List.flatMap_nil, List.append_assoc,
      List.append_nil]
  rw [encode_eq, map_headerLine, hshift]
  simp only [List.flatMap_cons, List.append_assoc, headEnd]

theorem isLine_statusLine (status : Status) : IsLine (statusLine status) := by
  unfold IsLine
  cases status <;> decide +kernel

end Response

end HttpEcho
