import HttpEcho.Proofs.Body.Chunked

/-!
# Delivering bodies

`Framing.Frames` says which text carries which body. `Body.Pending` is what is left of both in the
middle of reading. Reading on delivers the body from its front, waits only as long as a part of the
text is missing, and never takes an octet that follows it (`Body.delivers_advance`).
-/

namespace HttpEcho

/-- The text that carries a body, and the octets of the body. -/
inductive Framing.Frames : Framing → Bytes → Bytes → Prop
  | empty : Frames .empty [] []
  | length {octets : Bytes} : Frames (.length octets.length) octets octets
  | chunked {text : Bytes} {chunks : List Bytes} :
      Chunked text chunks → Frames .chunked text chunks.flatten

theorem Framing.Frames.length_eq {n : Nat} {text body : Bytes}
    (h : (Framing.length n).Frames text body) : body.length = n := by
  cases h with
  | length => rfl

/-- No head announces a body of length zero. -/
theorem Head.framing_ne_length_zero (head : Head) : head.framing ≠ .ok (.length 0) := by
  intro h
  unfold framing at h
  split at h
  · cases h
  split at h
  · unfold framingOfCoding at h
    dsimp only at h
    split at h
    · cases h
    split at h <;> cases h
  · cases hlength : head.contentLength? with
    | error e =>
      rw [hlength] at h
      cases h
    | ok n =>
      rw [hlength] at h
      rcases n with _ | _ | n <;> cases h

namespace Body

/-- What is left of the text and of the octets of a body, which has room for them. -/
structure Pending (body : Body) (text octets : Bytes) : Prop where
  room : body.received + octets.length ≤ body.limit
  remains : (∃ chunks, body.phase.Remains text chunks ∧ octets = chunks.flatten) ∨
    body.phase = .length octets.length ∧ octets ≠ [] ∧ text = octets

/-- What a look at the buffer may give. -/
def Step.Delivers (text octets buffer stream after : Bytes) : Step → Prop
  | .chunk piece next rest => ∃ text' octets', octets = piece ++ octets' ∧
      next.Pending text' octets' ∧ rest ++ stream = text' ++ after
  | .skip next rest => ∃ text', next.Pending text' octets ∧ rest ++ stream = text' ++ after
  | .wait => buffer.length < text.length
  | .done => text = [] ∧ octets = []
  | .refuse _ => False

/-- What reading on may give. -/
def Advance.Delivers (octets stream after : Bytes) (a : Advance) : Prop :=
  match a.outcome with
  | .chunk piece => ∃ text' octets', octets = piece ++ octets' ∧ a.body.Pending text' octets' ∧
      a.rest ++ stream = text' ++ after
  | .complete => octets = [] ∧ a.rest ++ stream = after
  | .wait => ∃ text', a.body.Pending text' octets ∧ a.rest ++ stream = text' ++ after ∧
      a.rest.length < text'.length
  | .refused _ => False

variable {body : Body} {text octets buffer stream after : Bytes}

/-- Before anything is read, all of the body is left. -/
theorem pending_ofFraming {head : Head} {framing : Framing} {limit : Nat}
    (hframing : head.framing = .ok framing) (hframes : framing.Frames text octets)
    (hlimit : octets.length ≤ limit) : (ofFraming framing limit).Pending text octets := by
  refine ⟨Nat.le_trans (Nat.le_of_eq (Nat.zero_add _)) hlimit, ?_⟩
  cases hframes with
  | empty => exact .inl ⟨[], ⟨rfl, rfl⟩, rfl⟩
  | length =>
    refine .inr ⟨rfl, ?_, rfl⟩
    rintro rfl
    exact head.framing_ne_length_zero hframing
  | chunked hchunked => exact .inl ⟨_, hchunked, rfl⟩

/-- A body of known length is delivered as it comes. -/
theorem delivers_length (hphase : body.phase = .length octets.length) (hne : octets ≠ [])
    (hroom : body.received + octets.length ≤ body.limit)
    (heq : buffer ++ stream = octets ++ after) :
    (body.step buffer).Delivers octets octets buffer stream after := by
  rw [step, hphase]
  dsimp only
  rw [if_neg (Nat.not_lt.2 hroom)]
  split
  case isTrue hempty =>
    obtain rfl := List.isEmpty_iff.1 hempty
    exact List.length_pos_iff.2 hne
  case isFalse hempty =>
    rcases Nat.lt_or_ge buffer.length octets.length with hlt | hle
    · -- all that is there belongs to the body, and more is to come
      obtain ⟨htake, hdrop⟩ := Bytes.split_of_append_eq heq.symm (Nat.le_of_lt hlt)
      have hsplit : octets = buffer ++ octets.drop buffer.length := by
        rw [← htake, List.length_take_of_le (Nat.le_of_lt hlt), List.take_append_drop]
      rw [Nat.min_eq_right (Nat.le_of_lt hlt), if_neg (Nat.ne_of_gt hlt), List.take_length,
        List.drop_length]
      refine ⟨octets.drop buffer.length, octets.drop buffer.length, hsplit, ⟨?_, .inr ?_⟩,
        hdrop.symm⟩
      · rw [List.length_drop]
        dsimp only
        omega
      · refine ⟨by rw [List.length_drop], ?_, rfl⟩
        rw [ne_eq, ← List.length_eq_zero_iff, List.length_drop]
        omega
    · -- the rest of the body is there, and what follows it stays in the buffer
      obtain ⟨htake, hdrop⟩ := Bytes.split_of_append_eq heq hle
      rw [Nat.min_eq_left hle, if_pos rfl, htake]
      exact ⟨[], [], (List.append_nil _).symm, ⟨hroom, .inl ⟨[], ⟨rfl, rfl⟩, rfl⟩⟩, hdrop⟩

/-- **A look at the buffer delivers the body from its front.** -/
theorem delivers_step (h : body.Pending text octets) (heq : buffer ++ stream = text ++ after) :
    (body.step buffer).Delivers text octets buffer stream after := by
  obtain ⟨hroom, ⟨chunks, hremains, rfl⟩ | ⟨hphase, hne, rfl⟩⟩ := h
  · have hcontinues := continues_of_remains hremains hroom heq
    cases hstep : body.step buffer with
    | chunk piece next rest =>
      rw [hstep] at hcontinues
      obtain ⟨text', chunks', rfl, hremains', hrest, hlimit, hreceived⟩ := hcontinues
      refine ⟨text', chunks'.flatten, List.flatten_cons,
        ⟨?_, .inl ⟨chunks', hremains', rfl⟩⟩, hrest⟩
      rw [List.flatten_cons, List.length_append] at hroom
      omega
    | skip next rest =>
      rw [hstep] at hcontinues
      obtain ⟨text', hremains', hrest, hlimit, hreceived⟩ := hcontinues
      refine ⟨text', ⟨?_, .inl ⟨chunks, hremains', rfl⟩⟩, hrest⟩
      omega
    | wait =>
      rw [hstep] at hcontinues
      exact hcontinues
    | done =>
      rw [hstep] at hcontinues
      obtain ⟨rfl, rfl⟩ := hcontinues
      exact ⟨rfl, rfl⟩
    | refuse error =>
      rw [hstep] at hcontinues
      exact hcontinues.elim
  · exact delivers_length hphase hne hroom heq

/-- **Reading on delivers the body from its front**, until more of the text is needed or the body
is complete. -/
theorem delivers_advance (h : body.Pending text octets) (heq : buffer ++ stream = text ++ after) :
    (body.advance buffer).Delivers octets stream after := by
  fun_induction advance body buffer generalizing text with
  | case1 body buffer piece next rest hstep =>
    have hdelivers := delivers_step h heq
    rw [hstep] at hdelivers
    exact hdelivers
  | case2 body buffer next rest hstep ih =>
    have hdelivers := delivers_step h heq
    rw [hstep] at hdelivers
    obtain ⟨text', hpending, hrest⟩ := hdelivers
    exact ih hpending hrest
  | case3 body buffer hstep =>
    have hdelivers := delivers_step h heq
    rw [hstep] at hdelivers
    exact ⟨text, h, heq, hdelivers⟩
  | case4 body buffer hstep =>
    have hdelivers := delivers_step h heq
    rw [hstep] at hdelivers
    obtain ⟨rfl, rfl⟩ := hdelivers
    exact ⟨rfl, heq⟩
  | case5 body buffer error hstep =>
    have hdelivers := delivers_step h heq
    rw [hstep] at hdelivers
    exact hdelivers.elim

end Body

end HttpEcho
