import HttpEcho.Proofs.Head.Framing
import HttpEcho.Proofs.Head.Grammar

/-!
# List fields in several lines

A field whose value is a comma-separated list may come in several lines, and whoever passes a
message on may join the lines to one or divide a line at a comma. `Fields.Regrouped` relates the
fields before and after such a change: the lines of one name change in one of the two ways, and all
other fields stay as they are and in their order.

What a head asks for does not depend on it (`Head.asksAlike_of_regrouped`): the lines list the
same items afterwards, and all that is decided by a list is decided by its items. Only the texts of
errors differ, which quote a line.
-/

namespace HttpEcho

/-! ### Values and their items -/

/-- A value as it may be read from a longer text: without some or all of the padding around it. -/
def Unpads (whole value : Bytes) : Prop :=
  ∃ before after, whole = before ++ (value ++ after) ∧
    (∀ b ∈ before, isPadding b) ∧ ∀ b ∈ after, isPadding b

/-- All values in one line, with a comma and a space between them. -/
def joinedValues (values : List Bytes) : Bytes := List.intercalate [0x2C, 0x20] values

/-- The ways in which the lines of a list field change: several become one, or one is divided in
two at a comma. -/
inductive Regroups : List Bytes → List Bytes → Prop
  | join {values : List Bytes} {value : Bytes} (hvalues : values ≠ [])
      (hvalue : Unpads (joinedValues values) value) : Regroups values [value]
  | split {before after : List Bytes} {left right left' right' : Bytes} (hleft : Unpads left left')
      (hright : Unpads right right') :
      Regroups (before ++ (left ++ 0x2C :: right) :: after) (before ++ left' :: right' :: after)

theorem isPadding_lt {b : UInt8} (h : isPadding b) : b.toNat < 0x80 := by
  rcases isPadding_iff.1 h with rfl | rfl <;> decide

/-- Padding is blank. -/
theorem isBlank_of_isPadding {b : UInt8} (h : isPadding b) : Text.isBlank (Char.ofNat b.toNat) := by
  rcases isPadding_iff.1 h with rfl | rfl <;> decide

/-- A text without padding at its start has the same items. -/
theorem items_of_padding_append {before value : Bytes} (hbefore : ∀ b ∈ before, isPadding b)
    {text : List Char} (htext : before ++ value = Utf8.encodeChars text) :
    ∃ text', value = Utf8.encodeChars text' ∧ Text.items text' = Text.items text := by
  induction before generalizing text with
  | nil => exact ⟨text, htext, rfl⟩
  | cons b before ih =>
    obtain ⟨hb, hbefore⟩ := List.forall_mem_cons.1 hbefore
    have htext : Utf8.encodeChars text = [] ++ b :: (before ++ value) := htext.symm
    obtain ⟨front, back, rfl, hfront, hback⟩ :=
      (Utf8.encodeChars_eq_append_cons_iff (isPadding_lt hb)).1 htext
    obtain rfl := Utf8.encodeChars_eq_nil_iff.1 hfront.symm
    obtain ⟨text', hvalue, hitems⟩ := ih hbefore hback
    refine ⟨text', hvalue, hitems.trans ?_⟩
    exact (Text.items_cons_blank (isBlank_of_isPadding hb) back).symm

/-- A text without padding at its end has the same items. -/
theorem items_of_append_padding {value after : Bytes} (hafter : ∀ b ∈ after, isPadding b)
    {text : List Char} (htext : value ++ after = Utf8.encodeChars text) :
    ∃ text', value = Utf8.encodeChars text' ∧ Text.items text' = Text.items text := by
  induction after generalizing value text with
  | nil => exact ⟨text, (List.append_nil value).symm.trans htext, rfl⟩
  | cons b after ih =>
    obtain ⟨hb, hafter⟩ := List.forall_mem_cons.1 hafter
    have htext' : value ++ [b] ++ after = Utf8.encodeChars text := by
      rw [← htext, List.append_assoc]
      rfl
    obtain ⟨text', hvalue, hitems⟩ := ih hafter htext'
    obtain ⟨front, back, rfl, hfront, hback⟩ :=
      (Utf8.encodeChars_eq_append_cons_iff (isPadding_lt hb)).1 hvalue.symm
    obtain rfl := Utf8.encodeChars_eq_nil_iff.1 hback.symm
    refine ⟨front, hfront, Eq.trans ?_ hitems⟩
    exact (Text.items_append_blank (isBlank_of_isPadding hb) front).symm

/-- A value has the same items without the padding around it. -/
theorem Unpads.items {whole value : Bytes} (h : Unpads whole value) {text : List Char}
    (htext : whole = Utf8.encodeChars text) :
    ∃ text', value = Utf8.encodeChars text' ∧ Text.items text' = Text.items text := by
  obtain ⟨before, after, rfl, hbefore, hafter⟩ := h
  obtain ⟨middle, hmiddle, hitems⟩ := items_of_padding_append hbefore htext
  obtain ⟨text', hvalue, hitems'⟩ := items_of_append_padding hafter hmiddle
  exact ⟨text', hvalue, hitems'.trans hitems⟩

/-- Joined to one line, the values list the same items. -/
theorem items_joinedValues {texts : List (List Char)} (h : texts ≠ []) :
    ∃ text, joinedValues (texts.map Utf8.encodeChars) = Utf8.encodeChars text ∧
      Text.items text = listItems texts := by
  induction texts with
  | nil => exact absurd rfl h
  | cons first texts ih =>
    cases texts with
    | nil =>
      refine ⟨first, List.intercalate_singleton, ?_⟩
      rw [listItems_cons]
      exact (List.append_nil _).symm
    | cons second texts =>
      obtain ⟨text, htext, hitems⟩ := ih (List.cons_ne_nil second texts)
      refine ⟨first ++ ',' :: ' ' :: text, ?_, ?_⟩
      · rw [joinedValues, List.map_cons, List.map_cons, List.intercalate_cons_cons,
          ← List.map_cons, ← joinedValues, htext, Utf8.encodeChars_append, List.append_assoc]
        rfl
      · rw [Text.items_append_comma, Text.items_cons_blank (by decide), hitems,
          listItems_cons first]

theorem areTexts_append_iff {values values' : List Bytes} {texts : List (List Char)} :
    AreTexts (values ++ values') texts ↔
      ∃ front back, texts = front ++ back ∧ AreTexts values front ∧ AreTexts values' back := by
  simp only [AreTexts, List.append_eq_map_iff, eq_comm (a := values), eq_comm (a := values')]

theorem listItems_append (texts texts' : List (List Char)) :
    listItems (texts ++ texts') = listItems texts ++ listItems texts' :=
  List.flatMap_append

/-- **Regrouped lines list the same items**, in the same order. -/
theorem Regroups.listItems {values values' : List Bytes} (h : Regroups values values')
    {texts : List (List Char)} (htexts : AreTexts values texts) :
    ∃ texts', AreTexts values' texts' ∧ listItems texts' = listItems texts := by
  cases h with
  | join hvalues hvalue =>
    obtain rfl := htexts
    obtain ⟨whole, hwhole, hitems⟩ :=
      items_joinedValues (fun hnil => hvalues (hnil ▸ rfl) : texts ≠ [])
    obtain ⟨text, rfl, hitems'⟩ := hvalue.items hwhole
    refine ⟨[text], rfl, ?_⟩
    rw [listItems_cons, hitems', hitems]
    exact List.append_nil _
  | split hleft hright =>
    obtain ⟨front, back, rfl, hfront, hback⟩ := areTexts_append_iff.1 htexts
    obtain ⟨text, back, rfl, hdecode, hrest⟩ := areTexts_cons_iff.1 hback
    obtain ⟨leftText, rightText, rfl, hleftText, hrightText⟩ :=
      (Utf8.encodeChars_eq_append_cons_iff (by decide)).1 (Utf8.decode?_eq_some_iff.1 hdecode).symm
    obtain ⟨leftText', rfl, hleftItems⟩ := hleft.items hleftText
    obtain ⟨rightText', rfl, hrightItems⟩ := hright.items hrightText
    refine ⟨front ++ leftText' :: rightText' :: back, ?_, ?_⟩
    · rw [AreTexts, hfront, hrest, List.map_append]
      rfl
    · rw [listItems_append, listItems_append, listItems_cons, listItems_cons, listItems_cons,
        hleftItems, hrightItems, ← List.append_assoc (Text.items leftText)]
      exact congrArg (_ ++ ·) (congrArg (· ++ _) (Text.items_append_comma leftText rightText).symm)

/-- Values that are UTF-8 are the forms of texts. -/
theorem exists_areTexts {values : List Bytes} (h : ∀ value ∈ values, (Utf8.decode? value).isSome) :
    ∃ texts, AreTexts values texts := by
  induction values with
  | nil => exact ⟨[], rfl⟩
  | cons value values ih =>
    obtain ⟨hvalue, hvalues⟩ := List.forall_mem_cons.1 h
    obtain ⟨text, htext⟩ := Option.isSome_iff_exists.1 hvalue
    obtain ⟨texts, htexts⟩ := ih hvalues
    exact ⟨text :: texts, areTexts_cons_iff.2 ⟨text, texts, rfl, htext, htexts⟩⟩

/-! ### Fields -/

namespace Fields

/-- The lines of one name are regrouped. All other fields are the same and come in the same order;
where the lines of the name stand among them does not matter, nor how it is written. -/
structure Regrouped (name : String) (fields fields' : Fields) : Prop where
  others : (fields'.filter fun f => !f.isNamed name) = fields.filter fun f => !f.isNamed name
  values : Regroups (fields.values name) (fields'.values name)

/-- The values of a name are the same, or they are texts that list the same items. -/
def ListsSame (name : String) (fields fields' : Fields) : Prop :=
  fields'.values name = fields.values name ∨
    ∃ texts texts', AreTexts (fields.values name) texts ∧ AreTexts (fields'.values name) texts' ∧
      listItems texts' = listItems texts

/-- The fields of one name are among those without another name. -/
theorem values_eq_values_filter {name name' : String}
    (hne : ¬ Text.sameIgnoringCase name'.toList name.toList) (fields : Fields) :
    fields.values name' = Fields.values (fields.filter fun f => !f.isNamed name) name' := by
  rw [values, values, List.filter_filter]
  refine congrArg _ (List.filter_congr fun f _ => ?_)
  cases hnamed : f.isNamed name' with
  | false => rfl
  | true =>
    have hother : f.isNamed name = false := by
      simp only [Field.isNamed, Text.sameIgnoringCase, beq_iff_eq, beq_eq_false_iff_ne]
        at hnamed hne ⊢
      exact fun h => hne (hnamed ▸ h)
    rw [hother]
    rfl

theorem values_congr {name name' : String} (h : Text.sameIgnoringCase name'.toList name.toList)
    (fields : Fields) : fields.values name' = fields.values name := by
  have hnamed : Field.isNamed name' = Field.isNamed name := by
    funext f
    simp only [Text.sameIgnoringCase, beq_iff_eq] at h
    simp only [Field.isNamed, Text.sameIgnoringCase, h]
  rw [values, values, hnamed]

/-- Regrouping the lines of one name does not change what any name lists. -/
theorem Regrouped.listsSame {name : String} {fields fields' : Fields}
    (h : Regrouped name fields fields')
    (hutf8 : ∀ value ∈ fields.values name, (Utf8.decode? value).isSome) (name' : String) :
    ListsSame name' fields fields' := by
  by_cases hname : Text.sameIgnoringCase name'.toList name.toList
  · obtain ⟨texts, htexts⟩ := exists_areTexts hutf8
    obtain ⟨texts', htexts', hitems⟩ := h.values.listItems htexts
    rw [ListsSame, values_congr hname, values_congr hname]
    exact .inr ⟨texts, texts', htexts, htexts', hitems⟩
  · refine .inl ?_
    rw [values_eq_values_filter hname, values_eq_values_filter hname fields, h.others]

variable {name : String} {fields fields' : Fields}

/-- The items of a field are those of its texts. -/
theorem itemsOf_eq_listItems {texts : List (List Char)} (h : AreTexts (fields.values name) texts) :
    fields.itemsOf name = listItems texts := by
  have hdecode : (fields.values name).filterMap Utf8.decode? = texts := by
    rw [h, List.filterMap_map, show Utf8.decode? ∘ Utf8.encodeChars = some from
      funext Utf8.decode?_encodeChars, List.filterMap_some]
  rw [itemsOf, hdecode, listItems]
  refine List.flatMap_congr fun text _ => ?_
  rw [Text.items, Text.pieces_eq_splitOn]

theorem ListsSame.hasToken (h : ListsSame name fields fields') (token : String) :
    fields'.hasToken name token = fields.hasToken name token := by
  have hitems : fields'.itemsOf name = fields.itemsOf name := by
    obtain hvalues | ⟨texts, texts', htexts, htexts', hitems⟩ := h
    · rw [itemsOf, hvalues, ← itemsOf]
    · rw [itemsOf_eq_listItems htexts, itemsOf_eq_listItems htexts', hitems]
  rw [Fields.hasToken, hitems, ← Fields.hasToken]

end Fields

/-! ### Heads -/

/-- An error without the text that it quotes. -/
def ProtocolError.kind : ProtocolError → ProtocolError
  | incomplete => incomplete
  | invalidRequestLine _ => invalidRequestLine ""
  | unsupportedVersion _ => unsupportedVersion ""
  | invalidHeader _ => invalidHeader ""
  | headersTooLarge => headersTooLarge
  | tooManyHeaders => tooManyHeaders
  | invalidContentLength _ => invalidContentLength ""
  | unsupportedTransferEncoding _ => unsupportedTransferEncoding ""
  | invalidChunk _ => invalidChunk ""

namespace Head

/-- Two heads ask for the same treatment: the same of the connection, the same of each list of
tokens, and the same framing of the body. Where the framing fails for one it fails for the other,
with an error of the same kind. -/
structure AsksAlike (head head' : Head) : Prop where
  keepsAlive : head'.keepsAlive = head.keepsAlive
  isGzip : head'.isGzip = head.isGzip
  hasToken : ∀ name token, head'.fields.hasToken name token = head.fields.hasToken name token
  framing : head'.framing.mapError ProtocolError.kind = head.framing.mapError ProtocolError.kind

variable {head head' : Head}

/-- Heads that list the same codings have the same ones. -/
theorem codings_of_listsSame
    (h : Fields.ListsSame "transfer-encoding" head.fields head'.fields) :
    head'.codings = head.codings := by
  obtain hvalues | ⟨texts, texts', htexts, htexts', hitems⟩ := h
  · rw [codings, hvalues, ← codings]
  · have hhas : head.HasCodings ((listItems texts).filter (!·.isEmpty)) := ⟨texts, htexts, rfl⟩
    have hhas' : head'.HasCodings ((listItems texts').filter (!·.isEmpty)) := ⟨texts', htexts', rfl⟩
    rw [codings_eq_ok hhas, codings_eq_ok hhas', hitems]

/-- A content length is read as a number only by its items. -/
theorem contentLength?_eq_ok_iff {known : Option Nat} {texts : List (List Char)}
    (htexts : AreTexts (head.fields.values "content-length") texts) :
    head.contentLength? = .ok known ↔ Agrees none (listItems texts) known := by
  rw [contentLength?, foldlM_agreeValue_eq_ok_iff]
  refine ⟨?_, fun h => ⟨texts, htexts, h⟩⟩
  rintro ⟨texts', htexts', h⟩
  exact htexts.unique htexts' ▸ h

/-- Heads that list the same lengths declare the same one, or offend alike. -/
theorem contentLength?_of_listsSame
    (h : Fields.ListsSame "content-length" head.fields head'.fields) :
    head'.contentLength?.mapError ProtocolError.kind =
      head.contentLength?.mapError ProtocolError.kind := by
  obtain hvalues | ⟨texts, texts', htexts, htexts', hitems⟩ := h
  · rw [contentLength?, hvalues, ← contentLength?]
  have hok : ∀ known, head'.contentLength? = .ok known ↔ head.contentLength? = .ok known := by
    intro known
    rw [contentLength?_eq_ok_iff htexts, contentLength?_eq_ok_iff htexts', hitems]
  cases hlength : head.contentLength? with
  | ok known => rw [(hok known).2 hlength]
  | error e =>
    cases hlength' : head'.contentLength? with
    | ok known => cases hlength.symm.trans ((hok known).1 hlength')
    | error e' =>
      obtain ⟨text, rfl⟩ := contentLength?_eq_error hlength
      obtain ⟨text', rfl⟩ := contentLength?_eq_error hlength'
      rfl

private theorem mapError_map {ε ε' α β : Type} (f : α → β) (g : ε → ε') (x : Except ε α) :
    (x.map f).mapError g = (x.mapError g).map f := by
  cases x <;> rfl

/-- The framing is decided by the codings, and by the content length up to the text of its error. -/
theorem framing_congr (hversion : head'.version = head.version)
    (hcodings : head'.codings = head.codings)
    (hlength : head'.contentLength?.mapError ProtocolError.kind =
      head.contentLength?.mapError ProtocolError.kind) :
    head'.framing.mapError ProtocolError.kind = head.framing.mapError ProtocolError.kind := by
  rw [framing, framing, hcodings, hversion]
  cases head.codings with
  | error e => rfl
  | ok codings =>
    dsimp only
    cases codings.getLast? with
    | some last => rfl
    | none =>
      dsimp only
      rw [mapError_map, mapError_map, hlength]

/-- **The lines of a list field may be joined and divided.** If the values of a name are UTF-8 and
its lines are regrouped, the head asks for the same as before: to keep the connection or not, the
same coding of the body, the same tokens of every field, and the same framing or an error of the
same kind. -/
theorem asksAlike_of_regrouped {name : String} {fields' : Fields}
    (hutf8 : ∀ value ∈ head.fields.values name, (Utf8.decode? value).isSome)
    (h : Fields.Regrouped name head.fields fields') :
    head.AsksAlike { head with fields := fields' } := by
  have hlists := h.listsSame hutf8
  have htoken : ∀ name token,
      Fields.hasToken fields' name token = head.fields.hasToken name token :=
    fun name' => (hlists name').hasToken
  refine ⟨?_, htoken _ _, htoken, ?_⟩
  · rw [keepsAlive, keepsAlive, htoken, htoken]
  · exact framing_congr rfl (codings_of_listsSame (hlists _))
      (contentLength?_of_listsSame (hlists _))

/-- A request with two transfer codings, in a line each. -/
def twoCodings : Head where
  method := .post
  target := "/"
  version := .http11
  fields := [⟨"Transfer-Encoding", Utf8.encode "gzip"⟩, ⟨"Host", Utf8.encode "localhost"⟩,
    ⟨"transfer-encoding", Utf8.encode "Chunked"⟩]

/-- The two lines may be joined to one behind the other field. -/
theorem asksAlike_twoCodings : twoCodings.AsksAlike { twoCodings with
    fields := [⟨"Host", Utf8.encode "localhost"⟩,
      ⟨"Transfer-Encoding", Utf8.encode "gzip, Chunked"⟩] } := by
  have hregroups : Regroups [Utf8.encode "gzip", Utf8.encode "Chunked"]
      [Utf8.encode "gzip, Chunked"] :=
    .join (by decide) ⟨[], [], by decide, nofun, nofun⟩
  have hutf8 : ∀ value ∈ twoCodings.fields.values "transfer-encoding",
      (Utf8.decode? value).isSome := by decide
  exact asksAlike_of_regrouped hutf8 ⟨by decide, hregroups⟩

end Head

end HttpEcho
