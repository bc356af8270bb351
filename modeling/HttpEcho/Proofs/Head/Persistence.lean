import HttpEcho.Head.Basic

/-!
# What a client asks of its connection

A field lists a token if one of its values is UTF-8 and has the token among its items, which are
compared without the blanks around them and without regard to case (`Fields.Lists`). A head can list
both `close` and `keep-alive` for its connection. In version 1.1 the first one prevails; in version
1.0 only the second one is looked for (`Head.keepsAlive_iff_of_asksToClose`).
-/

namespace HttpEcho

namespace Fields

/-- One of the named fields has a value that is UTF-8 and has the token among its items. -/
def Lists (fields : Fields) (name token : String) : Prop :=
  ∃ value ∈ fields.values name, ∃ text, Utf8.decode? value = some text ∧
    ∃ item ∈ Text.items text, Text.sameIgnoringCase item token.toList

/-- A token is found exactly if the fields list it. -/
theorem hasToken_iff {fields : Fields} {name token : String} :
    fields.hasToken name token ↔ fields.Lists name token := by
  simp only [hasToken, itemsOf, Lists, List.any_eq_true, List.mem_flatMap, List.mem_filterMap]
  constructor
  · rintro ⟨item, ⟨text, ⟨value, hvalue, htext⟩, hitem⟩, hsame⟩
    exact ⟨value, hvalue, text, htext, item, hitem, hsame⟩
  · rintro ⟨value, hvalue, text, htext, item, hitem, hsame⟩
    exact ⟨item, ⟨text, ⟨value, hvalue, htext⟩, hitem⟩, hsame⟩

end Fields

namespace Head

variable {head : Head}

/-- The client asks to close the connection. -/
def AsksToClose (head : Head) : Prop := head.fields.Lists "connection" "close"

/-- The client asks to keep the connection open. -/
def AsksToStay (head : Head) : Prop := head.fields.Lists "connection" "keep-alive"

/-- A head lets the connection stay open exactly if it is of version 1.1 and does not ask to close,
or of version 1.0 and asks to stay. -/
theorem keepsAlive_iff : head.keepsAlive ↔
    head.version = .http11 ∧ ¬ head.AsksToClose ∨ head.version = .http10 ∧ head.AsksToStay := by
  rw [keepsAlive, AsksToClose, AsksToStay, ← Fields.hasToken_iff, ← Fields.hasToken_iff]
  cases head.version <;> simp

/-- **A client that asks to close** is kept only in version 1.0, and only if it asks to stay as
well. -/
theorem keepsAlive_iff_of_asksToClose (h : head.AsksToClose) :
    head.keepsAlive ↔ head.version = .http10 ∧ head.AsksToStay := by
  rw [keepsAlive_iff, or_iff_right fun hnot => hnot.2 h]

end Head

end HttpEcho
