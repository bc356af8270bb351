import HttpEcho.Head.Framing
import HttpEcho.Proofs.Text.Items
import HttpEcho.Proofs.Text.Numeral
import HttpEcho.Proofs.Text.Utf8
import Mathlib.Data.List.Basic

/-!
# The rule of body framing

What a head says about its body, stated without an order of reading: its transfer codings
(`Head.HasCodings`) and the parts of its content length (`Head.HasParts`) are lists that all fields
with the name contribute to. `Head.framing_iff` is the rule: a body is chunked if the codings end in
`chunked`; without codings it has the length on which all parts agree; everything else is an error,
and the codings decide which one.
-/

namespace HttpEcho

/-- The values are the UTF-8 forms of the texts. -/
def AreTexts (values : List Bytes) (texts : List (List Char)) : Prop :=
  values = texts.map Utf8.encodeChars

/-- The items of comma-separated lists, each without the blanks around it. -/
def listItems (texts : List (List Char)) : List (List Char) :=
  texts.flatMap fun text => (text.splitOn ',').map Text.trim

theorem listItems_cons (text : List Char) (texts : List (List Char)) :
    listItems (text :: texts) = Text.items text ++ listItems texts := by
  rw [listItems, List.flatMap_cons, Text.items, Text.pieces_eq_splitOn]
  rfl

/-- A list has at least one item, which may be empty. -/
theorem Text.items_ne_nil (text : List Char) : Text.items text ≠ [] := by
  rw [items, pieces_eq_splitOn, ne_eq, List.map_eq_nil_iff]
  exact List.splitOn_ne_nil ',' text

theorem AreTexts.unique {values : List Bytes} {texts texts' : List (List Char)}
    (h : AreTexts values texts) (h' : AreTexts values texts') : texts = texts' := by
  have hmap : texts.map Utf8.encodeChars = texts'.map Utf8.encodeChars := h.symm.trans h'
  exact List.map_injective_iff.2 (fun _ _ => Utf8.encodeChars_inj.1) hmap

theorem areTexts_cons_iff {value : Bytes} {values : List Bytes} {texts : List (List Char)} :
    AreTexts (value :: values) texts ↔
      ∃ text texts', texts = text :: texts' ∧ Utf8.decode? value = some text ∧
        AreTexts values texts' := by
  cases texts with
  | nil => simp [AreTexts]
  | cons text texts => simp [AreTexts, Utf8.decode?_eq_some_iff]

namespace Head

/-- The transfer codings of a head: the items of its transfer encodings that are not empty. There
are none if a value is not UTF-8. -/
def HasCodings (head : Head) (codings : List (List Char)) : Prop :=
  ∃ texts, AreTexts (head.fields.values "transfer-encoding") texts ∧
    codings = (listItems texts).filter (!·.isEmpty)

/-- The parts of the content length of a head. There are none if a value is not UTF-8. -/
def HasParts (head : Head) (parts : List (List Char)) : Prop :=
  ∃ texts, AreTexts (head.fields.values "content-length") texts ∧ parts = listItems texts

/-- The last transfer coding is the chunked one, in a version that knows it. -/
def IsChunked (head : Head) : Prop :=
  ∃ codings last, head.HasCodings codings ∧ codings.getLast? = some last ∧
    Text.sameIgnoringCase last "chunked".toList ∧ head.version = .http11

/-- There is a content length, and all its parts denote the number. -/
def DeclaresLength (head : Head) (n : Nat) : Prop :=
  ∃ parts, head.HasParts parts ∧ parts ≠ [] ∧ ∀ part ∈ parts, Text.Denotes part n

/-! ### Transfer codings -/

/-- Values that are UTF-8 give their codings, and others an error. -/
private theorem mapM_codingsOf (values : List Bytes) :
    (∃ texts, AreTexts values texts ∧ (values.mapM codingsOf).map List.flatten =
      .ok ((listItems texts).filter (!·.isEmpty))) ∨
    (¬ ∃ texts, AreTexts values texts) ∧ ∃ text, (values.mapM codingsOf).map List.flatten =
      .error (.unsupportedTransferEncoding text) := by
  induction values with
  | nil => exact .inl ⟨[], rfl, rfl⟩
  | cons value values ih =>
    rw [List.mapM_cons, codingsOf]
    cases hdecode : Utf8.decode? value with
    | none =>
      refine .inr ⟨?_, _, rfl⟩
      rintro ⟨texts, htexts⟩
      obtain ⟨text, texts', -, htext, -⟩ := areTexts_cons_iff.1 htexts
      exact nomatch hdecode.symm.trans htext
    | some text =>
      cases hrest : values.mapM codingsOf with
      | ok lists =>
        obtain ⟨texts, htexts, hitems⟩ | ⟨-, _, herror⟩ := hrest ▸ ih
        · refine .inl ⟨text :: texts, areTexts_cons_iff.2 ⟨text, texts, rfl, hdecode, htexts⟩, ?_⟩
          rw [listItems_cons, List.filter_append]
          exact congrArg Except.ok (congrArg (_ ++ ·) (Except.ok.inj hitems))
        · exact nomatch herror
      | error e =>
        obtain ⟨texts, -, hitems⟩ | ⟨hnone, text', herror⟩ := hrest ▸ ih
        · exact nomatch hitems
        · refine .inr ⟨?_, text', herror⟩
          rintro ⟨texts, htexts⟩
          obtain ⟨_, texts', -, -, htexts'⟩ := areTexts_cons_iff.1 htexts
          exact hnone ⟨texts', htexts'⟩

/-- The codings are read, if there are any to read. -/
theorem codings_cases (head : Head) :
    (∃ codings, head.HasCodings codings ∧ head.codings = .ok codings) ∨
    (¬ ∃ codings, head.HasCodings codings) ∧
      ∃ text, head.codings = .error (.unsupportedTransferEncoding text) := by
  obtain ⟨texts, htexts, hcodings⟩ | ⟨hnone, herror⟩ :=
    mapM_codingsOf (head.fields.values "transfer-encoding")
  · exact .inl ⟨_, ⟨texts, htexts, rfl⟩, hcodings⟩
  · refine .inr ⟨?_, herror⟩
    rintro ⟨codings, texts, htexts, -⟩
    exact hnone ⟨texts, htexts⟩

theorem HasCodings.unique {head : Head} {codings codings' : List (List Char)}
    (h : head.HasCodings codings) (h' : head.HasCodings codings') : codings = codings' := by
  obtain ⟨texts, htexts, rfl⟩ := h
  obtain ⟨texts', htexts', rfl⟩ := h'
  rw [htexts.unique htexts']

/-- The codings that a head has are found. -/
theorem codings_eq_ok {head : Head} {codings : List (List Char)} (h : head.HasCodings codings) :
    head.codings = .ok codings := by
  obtain ⟨codings', h', hread⟩ | ⟨hnone, -⟩ := head.codings_cases
  · rw [hread, h.unique h']
  · exact absurd ⟨codings, h⟩ hnone

/-! ### Content lengths -/

/-- What is known after items were read that all denote one number of 64 bits, on top of what was
known before. -/
structure Agrees (seen : Option Nat) (items : List (List Char)) (known : Option Nat) : Prop where
  denotes : ∀ item ∈ items, ∃ n, known = some n ∧ n < Text.wordSize ∧ Text.Denotes item n
  keeps : ∀ n, seen = some n → known = some n
  known_eq : items = [] → known = seen

theorem agrees_nil_iff {seen known : Option Nat} : Agrees seen [] known ↔ known = seen := by
  refine ⟨fun h => h.known_eq rfl, ?_⟩
  rintro rfl
  exact ⟨List.forall_mem_nil _, fun _ => id, fun _ => rfl⟩

theorem agrees_cons_iff {seen known : Option Nat} {item : List Char} {items : List (List Char)} :
    Agrees seen (item :: items) known ↔
      ∃ n, Text.Denotes item n ∧ n < Text.wordSize ∧ (∀ m, seen = some m → m = n) ∧
        Agrees (some n) items known := by
  constructor
  · intro h
    obtain ⟨⟨n, rfl, hlt, hn⟩, hitems⟩ := List.forall_mem_cons.1 h.denotes
    refine ⟨n, hn, hlt, fun m hm => ?_, hitems, fun _ => id, fun _ => rfl⟩
    exact (Option.some.inj (h.keeps m hm)).symm
  · rintro ⟨n, hn, hlt, hseen, h⟩
    obtain rfl := h.keeps n rfl
    refine ⟨List.forall_mem_cons.2 ⟨⟨n, rfl, hlt, hn⟩, h.denotes⟩, ?_, nofun⟩
    exact fun m hm => hseen m hm ▸ rfl

/-- Items agree if those of the front do, and those behind agree with them. -/
theorem agrees_append_iff {seen known : Option Nat} {items items' : List (List Char)} :
    Agrees seen (items ++ items') known ↔
      ∃ middle, Agrees seen items middle ∧ Agrees middle items' known := by
  induction items generalizing seen with
  | nil => simp only [List.nil_append, agrees_nil_iff, exists_eq_left]
  | cons item items ih =>
    simp only [List.cons_append, agrees_cons_iff, ih]
    constructor
    · rintro ⟨n, hn, hlt, hseen, middle, h, h'⟩
      exact ⟨middle, ⟨n, hn, hlt, hseen, h⟩, h'⟩
    · rintro ⟨middle, ⟨n, hn, hlt, hseen, h⟩, h'⟩
      exact ⟨n, hn, hlt, hseen, middle, h, h'⟩

/-- An item agrees with the length that is known if it denotes it. -/
theorem agreeLength_eq_ok_iff {e : ProtocolError} {seen known : Option Nat} {item : List Char} :
    agreeLength e seen item = .ok known ↔
      ∃ n, Text.Denotes item n ∧ n < Text.wordSize ∧ (∀ m, seen = some m → m = n) ∧
        known = some n := by
  rw [agreeLength]
  cases hn : (Text.decimal? item).filter (· < Text.wordSize) with
  | none =>
    refine iff_of_false nofun ?_
    rintro ⟨n, hdenotes, hlt, -⟩
    rw [Text.decimal?_eq_some_iff.2 hdenotes, Option.filter_some,
      if_pos (decide_eq_true hlt)] at hn
    exact nomatch hn
  | some n =>
    obtain ⟨hdecimal, hlt⟩ := Option.filter_eq_some_iff.1 hn
    have hdenotes := Text.decimal?_eq_some_iff.1 hdecimal
    have hseen : seen.any (· ≠ n) = true ↔ ¬ ∀ m, seen = some m → m = n := by
      cases seen <;> simp
    dsimp only
    split
    case isTrue hany =>
      refine iff_of_false nofun ?_
      rintro ⟨n', hdenotes', -, hall, -⟩
      exact hseen.1 hany (hdenotes.unique hdenotes' ▸ hall)
    case isFalse hany =>
      have hall := not_not.1 (mt hseen.2 hany)
      constructor
      · intro h
        exact ⟨n, hdenotes, of_decide_eq_true hlt, hall, (Except.ok.inj h).symm⟩
      · rintro ⟨n', hdenotes', -, -, rfl⟩
        rw [hdenotes.unique hdenotes']

/-- A fold goes through if its first step and the rest of it do. -/
private theorem foldlM_cons_eq_ok_iff {ε α β : Type} {f : β → α → Except ε β} {init result : β}
    {a : α} {as : List α} :
    (a :: as).foldlM f init = .ok result ↔
      ∃ middle, f init a = .ok middle ∧ as.foldlM f middle = .ok result := by
  rw [List.foldlM_cons]
  cases hfirst : f init a with
  | error e => exact iff_of_false nofun nofun
  | ok middle =>
    refine ⟨fun h => ⟨middle, rfl, h⟩, ?_⟩
    rintro ⟨_, hmiddle, h⟩
    cases hmiddle
    exact h

/-- What is true of the errors of all steps is true of the error of a fold. -/
private theorem of_foldlM_eq_error {ε α β : Type} {f : β → α → Except ε β} {p : ε → Prop}
    (hstep : ∀ b a e, f b a = .error e → p e) {init : β} {as : List α} {e : ε}
    (h : as.foldlM f init = .error e) : p e := by
  induction as generalizing init with
  | nil => cases h
  | cons a as ih =>
    rw [List.foldlM_cons] at h
    cases hfirst : f init a with
    | error e' =>
      rw [hfirst] at h
      cases h
      exact hstep init a e hfirst
    | ok middle =>
      rw [hfirst] at h
      exact ih h

/-- The items of a value are accepted exactly if they agree. -/
theorem foldlM_agreeLength_eq_ok_iff {e : ProtocolError} {seen known : Option Nat}
    {items : List (List Char)} :
    items.foldlM (agreeLength e) seen = .ok known ↔ Agrees seen items known := by
  induction items generalizing seen with
  | nil =>
    rw [agrees_nil_iff]
    exact ⟨fun h => (Except.ok.inj h).symm, fun h => h ▸ rfl⟩
  | cons item items ih =>
    rw [foldlM_cons_eq_ok_iff, agrees_cons_iff]
    constructor
    · rintro ⟨middle, hitem, hrest⟩
      obtain ⟨n, hn, hlt, hseen, rfl⟩ := agreeLength_eq_ok_iff.1 hitem
      exact ⟨n, hn, hlt, hseen, ih.1 hrest⟩
    · rintro ⟨n, hn, hlt, hseen, hrest⟩
      exact ⟨some n, agreeLength_eq_ok_iff.2 ⟨n, hn, hlt, hseen, rfl⟩, ih.2 hrest⟩

/-- A value is accepted exactly if it is a text whose items agree. -/
theorem agreeValue_eq_ok_iff {value : Bytes} {seen known : Option Nat} :
    agreeValue seen value = .ok known ↔
      ∃ text, Utf8.decode? value = some text ∧ Agrees seen (Text.items text) known := by
  rw [agreeValue]
  cases hdecode : Utf8.decode? value with
  | none => exact iff_of_false nofun nofun
  | some text =>
    refine foldlM_agreeLength_eq_ok_iff.trans ⟨fun h => ⟨text, rfl, h⟩, ?_⟩
    rintro ⟨_, htext, h⟩
    cases htext
    exact h

/-- All values together are read as their items are. -/
theorem foldlM_agreeValue_eq_ok_iff {values : List Bytes} {seen known : Option Nat} :
    values.foldlM agreeValue seen = .ok known ↔
      ∃ texts, AreTexts values texts ∧ Agrees seen (listItems texts) known := by
  induction values generalizing seen with
  | nil =>
    have hnil : ∀ texts, AreTexts [] texts ↔ texts = [] := by simp [AreTexts, eq_comm]
    simp only [hnil, exists_eq_left]
    exact (agrees_nil_iff.trans ⟨fun h => h ▸ rfl, fun h => (Except.ok.inj h).symm⟩).symm
  | cons value values ih =>
    rw [foldlM_cons_eq_ok_iff]
    constructor
    · rintro ⟨middle, hvalue, hrest⟩
      obtain ⟨text, htext, h⟩ := agreeValue_eq_ok_iff.1 hvalue
      obtain ⟨texts, htexts, h'⟩ := ih.1 hrest
      refine ⟨text :: texts, areTexts_cons_iff.2 ⟨text, texts, rfl, htext, htexts⟩, ?_⟩
      exact listItems_cons text texts ▸ agrees_append_iff.2 ⟨middle, h, h'⟩
    · rintro ⟨texts, htexts, hagrees⟩
      obtain ⟨text, texts', rfl, htext, htexts'⟩ := areTexts_cons_iff.1 htexts
      obtain ⟨middle, h, h'⟩ := agrees_append_iff.1 (listItems_cons text texts' ▸ hagrees)
      exact ⟨middle, agreeValue_eq_ok_iff.2 ⟨text, htext, h⟩, ih.2 ⟨texts', htexts', h'⟩⟩

/-- A content length that is not read is an invalid one. -/
theorem contentLength?_eq_error {head : Head} {e : ProtocolError}
    (h : head.contentLength? = .error e) : ∃ text, e = .invalidContentLength text := by
  refine of_foldlM_eq_error (p := fun e => ∃ text, e = .invalidContentLength text) ?_ h
  intro seen value e hvalue
  unfold agreeValue at hvalue
  split at hvalue
  · cases hvalue
    exact ⟨_, rfl⟩
  · refine of_foldlM_eq_error (p := fun e => ∃ text, e = .invalidContentLength text) ?_ hvalue
    intro seen item e hitem
    unfold agreeLength at hitem
    split at hitem
    · cases hitem
      exact ⟨_, rfl⟩
    split at hitem
    · cases hitem
      exact ⟨_, rfl⟩
    · cases hitem

/-- No length is declared exactly if there is no field for it. -/
theorem contentLength?_eq_none_iff {head : Head} :
    head.contentLength? = .ok none ↔ head.fields.values "content-length" = [] := by
  rw [contentLength?, foldlM_agreeValue_eq_ok_iff]
  constructor
  · rintro ⟨texts, htexts, hagrees⟩
    cases texts with
    | nil => exact htexts
    | cons text texts =>
      -- even an empty value has an item, which denotes nothing
      obtain ⟨item, hitem⟩ := List.exists_mem_of_ne_nil _ (Text.items_ne_nil text)
      have hmem : item ∈ listItems (text :: texts) :=
        listItems_cons text texts ▸ List.mem_append_left _ hitem
      obtain ⟨n, hn, -⟩ := hagrees.denotes item hmem
      cases hn
  · intro hnil
    exact ⟨[], hnil, agrees_nil_iff.2 rfl⟩

/-- A length is found exactly if it is declared and a word of 64 bits. -/
theorem contentLength?_eq_some_iff {head : Head} {n : Nat} :
    head.contentLength? = .ok (some n) ↔ head.DeclaresLength n ∧ n < Text.wordSize := by
  rw [contentLength?, foldlM_agreeValue_eq_ok_iff]
  constructor
  · rintro ⟨texts, htexts, hagrees⟩
    have hne : listItems texts ≠ [] := by
      intro hnil
      cases hagrees.known_eq hnil
    have hall : ∀ part ∈ listItems texts, n < Text.wordSize ∧ Text.Denotes part n := by
      intro part hpart
      obtain ⟨_, hn, h⟩ := hagrees.denotes part hpart
      cases hn
      exact h
    obtain ⟨part, hpart⟩ := List.exists_mem_of_ne_nil _ hne
    exact ⟨⟨_, ⟨texts, htexts, rfl⟩, hne, fun part h => (hall part h).2⟩, (hall part hpart).1⟩
  · rintro ⟨⟨_, ⟨texts, htexts, rfl⟩, hne, hall⟩, hlt⟩
    refine ⟨texts, htexts, fun part hpart => ⟨n, rfl, hlt, hall part hpart⟩, nofun, ?_⟩
    exact fun hnil => absurd hnil hne

/-! ### The rule -/

/-- A head whose last coding is `chunked` announces a chunked body. -/
theorem framing_of_isChunked {head : Head} (h : head.IsChunked) : head.framing = .ok .chunked := by
  obtain ⟨codings, last, hcodings, hlast, hchunked, hversion⟩ := h
  rw [framing, codings_eq_ok hcodings]
  dsimp only
  rw [hlast]
  dsimp only
  rw [hversion, framingOfCoding]
  exact if_pos hchunked

/-- Other codings, or none that can be read, are an error. -/
theorem framing_of_not_isChunked {head : Head} (h : ¬ head.IsChunked)
    (hcodings : ¬ head.HasCodings []) :
    ∃ text, head.framing = .error (.unsupportedTransferEncoding text) := by
  rw [framing]
  obtain ⟨codings, hhas, hread⟩ | ⟨-, text, hread⟩ := head.codings_cases
  · rw [hread]
    dsimp only
    cases hlast : codings.getLast? with
    | none => exact absurd (List.getLast?_eq_none_iff.1 hlast ▸ hhas) hcodings
    | some last =>
      dsimp only
      cases hversion : head.version with
      | http10 => exact ⟨_, rfl⟩
      | http11 =>
        have hother : ¬ Text.sameIgnoringCase last "chunked".toList :=
          fun hsame => h ⟨codings, last, hhas, hlast, hsame, hversion⟩
        exact ⟨_, if_neg hother⟩
  · rw [hread]
    exact ⟨text, rfl⟩

/-- Without transfer codings the content length decides. -/
theorem framing_of_hasCodings_nil {head : Head} (h : head.HasCodings []) :
    head.framing = head.contentLength?.map fun
      | none | some 0 => .empty
      | some n => .length n := by
  rw [framing, codings_eq_ok h]
  rfl

theorem not_hasCodings_nil_of_isChunked {head : Head} (h : head.IsChunked) :
    ¬ head.HasCodings [] := by
  obtain ⟨codings, last, hcodings, hlast, -⟩ := h
  intro hnil
  rw [hcodings.unique hnil] at hlast
  cases hlast

theorem DeclaresLength.unique {head : Head} {m n : Nat} (h : head.DeclaresLength m)
    (h' : head.DeclaresLength n) : m = n := by
  obtain ⟨_, ⟨texts, htexts, rfl⟩, hne, hall⟩ := h
  obtain ⟨_, ⟨texts', htexts', rfl⟩, -, hall'⟩ := h'
  obtain rfl := htexts.unique htexts'
  obtain ⟨part, hpart⟩ := List.exists_mem_of_ne_nil _ hne
  exact (hall part hpart).unique (hall' part hpart)

theorem DeclaresLength.values_ne_nil {head : Head} {n : Nat} (h : head.DeclaresLength n) :
    head.fields.values "content-length" ≠ [] := by
  obtain ⟨_, ⟨texts, htexts, rfl⟩, hne, -⟩ := h
  intro hnil
  rw [AreTexts, hnil, eq_comm, List.map_eq_nil_iff] at htexts
  subst htexts
  exact hne rfl

/-- Without transfer codings a body has no length, the length that is declared, or an invalid
one. -/
theorem framing_cases_of_hasCodings_nil {head : Head} (h : head.HasCodings []) :
    (head.fields.values "content-length" = [] ∧ head.framing = .ok .empty) ∨
    (∃ n, head.DeclaresLength n ∧ n < Text.wordSize ∧
      head.framing = .ok (if n = 0 then .empty else .length n)) ∨
    (head.fields.values "content-length" ≠ [] ∧
      (¬ ∃ n, head.DeclaresLength n ∧ n < Text.wordSize) ∧
        ∃ text, head.framing = .error (.invalidContentLength text)) := by
  rw [framing_of_hasCodings_nil h]
  cases hlength : head.contentLength? with
  | error e =>
    obtain ⟨text, rfl⟩ := contentLength?_eq_error hlength
    refine .inr (.inr ⟨?_, ?_, text, rfl⟩)
    · intro hnil
      cases hlength.symm.trans (contentLength?_eq_none_iff.2 hnil)
    · rintro ⟨n, hn⟩
      cases hlength.symm.trans (contentLength?_eq_some_iff.2 hn)
  | ok length? =>
    cases length? with
    | none => exact .inl ⟨contentLength?_eq_none_iff.1 hlength, rfl⟩
    | some n =>
      obtain ⟨hn, hlt⟩ := contentLength?_eq_some_iff.1 hlength
      refine .inr (.inl ⟨n, hn, hlt, ?_⟩)
      cases n <;> rfl

/-- **The rule of body framing.** The body is chunked if the transfer codings end in `chunked`,
whatever the content length. Without codings it has the length that all parts of the content length
denote, and is empty if that is zero or there is no content length. Everything else is an error:
of the transfer encoding if there are codings or a value of it is not UTF-8, and of the content
length otherwise. -/
theorem framing_iff (head : Head) :
    (head.framing = .ok .chunked ↔ head.IsChunked) ∧
    (∀ n, head.framing = .ok (.length n) ↔
      head.HasCodings [] ∧ head.DeclaresLength n ∧ 0 < n ∧ n < Text.wordSize) ∧
    (head.framing = .ok .empty ↔
      head.HasCodings [] ∧
        (head.fields.values "content-length" = [] ∨ head.DeclaresLength 0)) ∧
    ((∃ text, head.framing = .error (.unsupportedTransferEncoding text)) ↔
      ¬ head.HasCodings [] ∧ ¬ head.IsChunked) ∧
    ((∃ text, head.framing = .error (.invalidContentLength text)) ↔
      head.HasCodings [] ∧ head.fields.values "content-length" ≠ [] ∧
        ¬ ∃ n, head.DeclaresLength n ∧ n < Text.wordSize) := by
  by_cases hchunked : head.IsChunked
  · have hcodings := not_hasCodings_nil_of_isChunked hchunked
    simp [framing_of_isChunked hchunked, hchunked, hcodings]
  by_cases hcodings : head.HasCodings []
  · obtain ⟨hnil, hframing⟩ | ⟨n, hn, hlt, hframing⟩ | ⟨hne, hnone, text, hframing⟩ :=
      framing_cases_of_hasCodings_nil hcodings
    · have hlength : ∀ n, ¬ head.DeclaresLength n := fun n hn => hn.values_ne_nil hnil
      simp [hframing, hchunked, hcodings, hnil, hlength]
    · have hlength : ∀ m, head.DeclaresLength m ↔ m = n :=
        fun m => ⟨fun hm => hm.unique hn, fun hm => hm ▸ hn⟩
      have hne := hn.values_ne_nil
      rcases Nat.eq_zero_or_pos n with rfl | hpos
      · have hnot : ∀ m, ¬ (m = 0 ∧ 0 < m ∧ m < Text.wordSize) := by omega
        simp [hframing, hchunked, hcodings, hlength, hne, hlt, hnot]
      · rw [if_neg (Nat.ne_of_gt hpos)] at hframing
        have hiff : ∀ m, n = m ↔ m = n ∧ 0 < m ∧ m < Text.wordSize :=
          fun m => ⟨fun h => h ▸ ⟨rfl, hpos, hlt⟩, fun h => h.1.symm⟩
        simpa [hframing, hchunked, hcodings, hlength, hne, hlt, Nat.ne_of_lt hpos] using hiff
    · have hlength : ∀ n, head.DeclaresLength n → ¬ n < Text.wordSize :=
        fun n hn hlt => hnone ⟨n, hn, hlt⟩
      have hzero : ¬ head.DeclaresLength 0 := fun hzero => hlength 0 hzero (by decide)
      simpa [hframing, hchunked, hcodings, hne, hzero] using
        ⟨fun n hn _ => Nat.le_of_not_lt (hlength n hn),
          fun n hn => Nat.le_of_not_lt (hlength n hn)⟩
  · obtain ⟨text, hframing⟩ := framing_of_not_isChunked hchunked hcodings
    simp [hframing, hchunked, hcodings]

end Head

end HttpEcho
