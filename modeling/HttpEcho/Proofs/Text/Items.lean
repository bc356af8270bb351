import HttpEcho.Text.Items

/-!
# Laws of splitting and trimming

The pieces of a text are those of `List.splitOn`, and trimming is characterised by what it leaves:
`trimBy_eq_iff` says that the rest neither begins nor ends with an element that is trimmed, and
that nothing else was taken. The items of a comma-separated list are found on either side of each
comma by itself (`items_append_comma`).
-/

namespace HttpEcho.Text

/-! ### Pieces -/

variable {α : Type} [DecidableEq α]

/-- The pieces of a text are those between its separators. -/
theorem pieces_eq_splitOn (sep : α) (s : List α) : pieces sep s = s.splitOn sep := by
  induction s with
  | nil => rfl
  | cons a s ih =>
    obtain ⟨piece, others, hs⟩ := List.exists_cons_of_ne_nil (List.splitOn_ne_nil sep s)
    change consPiece sep a (pieces sep s) = _
    rw [ih, List.splitOn_cons_eq_if_modifyHead, hs]
    by_cases h : a = sep
    · simp [consPiece, h]
    · simp [consPiece, h]

/-- No piece has the separator in it. -/
theorem notMem_of_mem_pieces {sep : α} {s piece : List α} (h : piece ∈ pieces sep s) :
    sep ∉ piece := by
  induction s generalizing piece with
  | nil =>
    obtain rfl : piece = [] := by simpa [pieces] using h
    exact List.not_mem_nil
  | cons a s ih =>
    change piece ∈ consPiece sep a (pieces sep s) at h
    unfold consPiece at h
    split at h
    case h_1 hs =>
      rw [pieces_eq_splitOn] at hs
      exact absurd hs (List.splitOn_ne_nil sep s)
    case h_2 first others hs =>
      split at h
      · rcases List.mem_cons.1 h with rfl | h
        · exact List.not_mem_nil
        · exact ih (hs ▸ h)
      · rename_i hne
        rcases List.mem_cons.1 h with rfl | h
        · have hfirst : sep ∉ first := ih (hs ▸ List.mem_cons_self)
          simp only [List.mem_cons, not_or]
          exact ⟨fun h => hne h.symm, hfirst⟩
        · exact ih (hs ▸ List.mem_cons_of_mem _ h)

/-- A text has three pieces if it is the three with a separator between them. -/
theorem pieces_eq_three_iff {sep : α} {s a b c : List α} :
    pieces sep s = [a, b, c] ↔
      s = a ++ sep :: (b ++ sep :: c) ∧ sep ∉ a ∧ sep ∉ b ∧ sep ∉ c := by
  constructor
  · intro h
    refine ⟨?_, ?_, ?_, ?_⟩
    · have hjoin : [sep].intercalate (s.splitOn sep) = s := List.intercalate_splitOn sep
      rw [← pieces_eq_splitOn, h] at hjoin
      rw [← hjoin]
      simp
    all_goals
      refine notMem_of_mem_pieces (s := s) ?_
      rw [h]
      simp
  · rintro ⟨rfl, ha, hb, hc⟩
    rw [pieces_eq_splitOn, List.splitOn_append_cons_self_of_not_mem ha,
      List.splitOn_append_cons_self_of_not_mem hb, List.splitOn_eq_singleton hc]

/-! ### Trimming -/

omit [DecidableEq α]

private theorem not_of_head?_dropWhile {p : α → Bool} {s : List α} {a : α}
    (h : (s.dropWhile p).head? = some a) : ¬ p a := by
  have := List.head?_dropWhile_not p s
  rw [h] at this
  simpa using this

private theorem dropWhile_of_head? {p : α → Bool} {s : List α} (h : ∀ a ∈ s.head?, ¬ p a) :
    s.dropWhile p = s := by
  cases s with
  | nil => rfl
  | cons a s => exact List.dropWhile_cons_of_neg (h a rfl)

/-- **What trimming leaves**: what stands between elements that are trimmed, and neither begins
nor ends with one. -/
theorem trimBy_eq_iff {p : α → Bool} {s t : List α} :
    trimBy p s = t ↔
      ∃ before after, s = before ++ (t ++ after) ∧ (∀ a ∈ before, p a) ∧ (∀ a ∈ after, p a) ∧
        (∀ a ∈ t.head?, ¬ p a) ∧ (∀ a ∈ t.getLast?, ¬ p a) := by
  constructor
  · rintro rfl
    have hsplit : s.dropWhile p =
        trimBy p s ++ ((s.dropWhile p).reverse.takeWhile p).reverse := by
      rw [trimBy, ← List.reverse_append, List.takeWhile_append_dropWhile, List.reverse_reverse]
    refine ⟨s.takeWhile p, ((s.dropWhile p).reverse.takeWhile p).reverse, ?_, ?_, ?_, ?_, ?_⟩
    · rw [← hsplit, List.takeWhile_append_dropWhile]
    · exact List.all_eq_true.1 List.all_takeWhile
    · intro a ha
      exact List.all_eq_true.1 List.all_takeWhile a (List.mem_reverse.1 ha)
    -- the last element that is not trimmed is the first one from behind
    · intro a ha
      refine not_of_head?_dropWhile (s := s) ?_
      rw [hsplit, List.head?_append, ha]
      rfl
    · intro a ha
      rw [trimBy, List.getLast?_reverse] at ha
      exact not_of_head?_dropWhile ha
  · rintro ⟨before, after, rfl, hbefore, hafter, hhead, hlast⟩
    have hafter' : ∀ a ∈ after.reverse, p a := fun a ha => hafter a (List.mem_reverse.1 ha)
    rw [trimBy, List.dropWhile_append_of_pos hbefore]
    cases t with
    | nil => rw [List.nil_append, ← List.append_nil after, List.dropWhile_append_of_pos hafter]; rfl
    | cons a t =>
      rw [List.cons_append, List.dropWhile_cons_of_neg (hhead a rfl), ← List.cons_append,
        List.reverse_append, List.dropWhile_append_of_pos hafter', dropWhile_of_head?,
        List.reverse_reverse]
      rwa [List.head?_reverse]

/-- Nothing changes if an element that is trimmed is put in front. -/
theorem trimBy_cons {p : α → Bool} {a : α} (ha : p a) (s : List α) :
    trimBy p (a :: s) = trimBy p s := by
  rw [trimBy, List.dropWhile_cons_of_pos ha]
  rfl

/-- Nothing changes if an element that is trimmed is put behind. -/
theorem trimBy_append_singleton {p : α → Bool} {a : α} (ha : p a) (s : List α) :
    trimBy p (s ++ [a]) = trimBy p s := by
  obtain ⟨before, after, hs, hbefore, hafter, hhead, hlast⟩ :=
    trimBy_eq_iff.1 (rfl : trimBy p s = _)
  refine trimBy_eq_iff.2 ⟨before, after ++ [a], ?_, hbefore, ?_, hhead, hlast⟩
  · rw [← List.append_assoc, ← List.append_assoc, List.append_assoc before, ← hs]
  · intro b hb
    rcases List.mem_append.1 hb with hb | hb
    · exact hafter b hb
    · exact List.mem_singleton.1 hb ▸ ha

/-! ### Items -/

/-- The items of two lists with a comma between them are those of the first and of the second. -/
theorem items_append_comma (s t : List Char) : items (s ++ ',' :: t) = items s ++ items t := by
  simp only [items, pieces_eq_splitOn, List.splitOn_append_cons_self, List.map_append]

/-- A text without a comma is a list of one item. -/
theorem items_of_not_mem {s : List Char} (h : ',' ∉ s) : items s = [trim s] := by
  rw [items, pieces_eq_splitOn, List.splitOn_eq_singleton h]
  rfl

/-- Blanks around a list are not part of its items. -/
theorem items_cons_blank {c : Char} (hc : isBlank c) (s : List Char) :
    items (c :: s) = items s := by
  have hcomma : ',' ≠ c := by
    rintro rfl
    exact absurd hc (by decide)
  by_cases hmem : ',' ∈ s
  · obtain ⟨first, rest, rfl, hfirst⟩ := List.eq_append_cons_of_mem hmem
    rw [← List.cons_append, items_append_comma, items_append_comma, items_of_not_mem hfirst,
      items_of_not_mem (List.not_mem_cons_of_ne_of_not_mem hcomma hfirst), trim, trimBy_cons hc]
    rfl
  · rw [items_of_not_mem hmem,
      items_of_not_mem (List.not_mem_cons_of_ne_of_not_mem hcomma hmem), trim, trimBy_cons hc]
    rfl

@[inherit_doc items_cons_blank]
theorem items_append_blank {c : Char} (hc : isBlank c) (s : List Char) :
    items (s ++ [c]) = items s := by
  have hcomma : ',' ≠ c := by
    rintro rfl
    exact absurd hc (by decide)
  induction hn : s.length using Nat.strongRecOn generalizing s with
  | _ n ih =>
    by_cases hmem : ',' ∈ s
    · obtain ⟨first, rest, rfl⟩ := List.append_of_mem hmem
      have hlt : rest.length < n := by
        rw [← hn, List.length_append, List.length_cons]
        omega
      rw [List.append_assoc, List.cons_append, items_append_comma, items_append_comma,
        ih rest.length hlt rest rfl]
    · have hmem' : ',' ∉ s ++ [c] := by simp [hmem, hcomma]
      rw [items_of_not_mem hmem, items_of_not_mem hmem', trim, trimBy_append_singleton hc]
      rfl

end HttpEcho.Text
