import Mathlib.Data.List.TakeWhile
import Playbook.Text.Lines

/-!
# Cutting and joining texts

`splitOn` undoes `joinWith` when no piece holds the separator, and it cuts a text that ends each of
its lines with a break into these lines and an empty rest.  A piece between line breaks and the line
that it is printed as differ in a carriage return at most, which trimming takes away.
-/

namespace Playbook.Text

theorem splitOn_of_not_mem {sep : Char} {text : List Char} (h : sep ∉ text) :
    splitOn sep text = [text] := by
  induction text with
  | nil => rfl
  | cons c rest ih =>
    rw [List.mem_cons, not_or] at h
    rw [splitOn, if_neg (Ne.symm h.1), ih h.2]
    rfl

/-- A separator cuts a text in two, which are cut on their own. -/
theorem splitOn_append_sep (sep : Char) (text rest : List Char) :
    splitOn sep (text ++ sep :: rest) = splitOn sep text ++ splitOn sep rest := by
  induction text with
  | nil => simp [splitOn]
  | cons c text ih =>
    rw [List.cons_append, splitOn, splitOn, ih]
    by_cases hc : c = sep
    · simp [hc]
    · rw [if_neg hc, if_neg hc]
      cases hs : splitOn sep text with
      | nil => exact absurd hs (splitOn_ne_nil sep text)
      | cons first more => rfl

/-- The first piece ends at the first separator. -/
theorem splitOn_append_cons {sep : Char} {piece : List Char} (h : sep ∉ piece)
    (rest : List Char) : splitOn sep (piece ++ sep :: rest) = piece :: splitOn sep rest := by
  rw [splitOn_append_sep, splitOn_of_not_mem h, List.singleton_append]

/-- Cutting a joined text gives the pieces back. -/
theorem splitOn_joinWith {sep : Char} {pieces : List (List Char)} (hne : pieces ≠ [])
    (h : ∀ piece ∈ pieces, sep ∉ piece) : splitOn sep (joinWith [sep] pieces) = pieces := by
  induction pieces with
  | nil => exact absurd rfl hne
  | cons piece rest ih =>
    have hpiece : sep ∉ piece := h piece (List.mem_cons_self ..)
    cases rest with
    | nil => exact splitOn_of_not_mem hpiece
    | cons next more =>
      rw [joinWith_cons _ _ (List.cons_ne_nil _ _), List.append_assoc, List.singleton_append,
        splitOn_append_cons hpiece, ih (List.cons_ne_nil _ _)]
      intro p hp
      exact h p (List.mem_cons_of_mem _ hp)

/-- There is one piece more than there are separators. -/
theorem length_splitOn (sep : Char) (text : List Char) :
    (splitOn sep text).length = text.count sep + 1 := by
  induction text with
  | nil => rfl
  | cons c rest ih =>
    rw [splitOn, List.count_cons]
    by_cases hc : c = sep <;> simp [hc, ih]

theorem joinWith_append {sep : List Char} {texts more : List (List Char)} (ht : texts ≠ [])
    (hm : more ≠ []) :
    joinWith sep (texts ++ more) = joinWith sep texts ++ sep ++ joinWith sep more := by
  induction texts with
  | nil => exact absurd rfl ht
  | cons text rest ih =>
    cases rest with
    | nil => exact joinWith_cons sep text hm
    | cons next rest =>
      have hne : next :: rest ++ more ≠ [] := List.cons_ne_nil _ _
      rw [List.cons_append, joinWith_cons sep text hne, ih (List.cons_ne_nil next rest),
        joinWith_cons sep text (List.cons_ne_nil next rest)]
      simp only [List.append_assoc]

/-- What follows a joined text follows its last piece. -/
theorem joinWith_concat_append (sep : List Char) (texts : List (List Char))
    (last text : List Char) :
    joinWith sep (texts ++ [last ++ text]) = joinWith sep (texts ++ [last]) ++ text := by
  cases texts with
  | nil => rfl
  | cons first rest =>
    rw [joinWith_append (List.cons_ne_nil first rest) (List.cons_ne_nil _ _),
      joinWith_append (List.cons_ne_nil first rest) (List.cons_ne_nil _ _)]
    simp

theorem splitOn_append_of_not_mem {sep : Char} {text last more : List Char}
    {pieces : List (List Char)} (h : splitOn sep text = pieces ++ [last]) (hm : sep ∉ more) :
    splitOn sep (text ++ more) = pieces ++ [last ++ more] := by
  have hnot : ∀ piece ∈ pieces ++ [last], sep ∉ piece := by
    rw [← h]
    exact fun piece => not_mem_of_mem_splitOn
  rw [List.forall_mem_append, List.forall_mem_singleton] at hnot
  rw [← joinWith_splitOn sep text, h, ← joinWith_concat_append]
  refine splitOn_joinWith (by simp) (List.forall_mem_append.2 ⟨hnot.1, ?_⟩)
  exact List.forall_mem_singleton.2 (List.not_mem_append hnot.2 hm)

/-- A text within a piece has a text in front of it that is cut as it is, and then one behind it
that starts with the separator, if there is any. -/
theorem exists_append_of_splitOn {sep : Char} {text last middle : List Char}
    {pieces more : List (List Char)} (h : splitOn sep text = pieces ++ (last ++ middle) :: more) :
    ∃ front rest, text = front ++ (middle ++ rest) ∧ splitOn sep front = pieces ++ [last] ∧
      ∀ c ∈ rest.head?, c = sep := by
  have hnot : ∀ piece ∈ pieces ++ (last ++ middle) :: more, sep ∉ piece := by
    rw [← h]
    exact fun piece => not_mem_of_mem_splitOn
  rw [List.forall_mem_append, List.forall_mem_cons, List.mem_append, not_or] at hnot
  have hfront : splitOn sep (joinWith [sep] (pieces ++ [last])) = pieces ++ [last] := by
    refine splitOn_joinWith (by simp) (List.forall_mem_append.2 ⟨hnot.1, ?_⟩)
    exact List.forall_mem_singleton.2 hnot.2.1.1
  have htext := joinWith_splitOn sep text
  rw [h] at htext
  cases more with
  | nil =>
    refine ⟨joinWith [sep] (pieces ++ [last]), [], ?_, hfront, by simp⟩
    rw [← htext, joinWith_concat_append, List.append_nil]
  | cons next more =>
    refine ⟨joinWith [sep] (pieces ++ [last]), sep :: joinWith [sep] (next :: more), ?_, hfront,
      by simp⟩
    rw [← htext, List.append_cons, joinWith_append (by simp) (List.cons_ne_nil next more),
      joinWith_concat_append]
    simp

theorem exists_splitOn_append {sep : Char} {front last middle rest : List Char}
    {pieces : List (List Char)} (h : splitOn sep front = pieces ++ [last]) (hm : sep ∉ middle)
    (hrest : ∀ c ∈ rest.head?, c = sep) :
    ∃ more, splitOn sep (front ++ (middle ++ rest)) = pieces ++ (last ++ middle) :: more := by
  have hmiddle := splitOn_append_of_not_mem h hm
  rw [← List.append_assoc]
  cases rest with
  | nil => exact ⟨[], by rw [List.append_nil, hmiddle]⟩
  | cons c rest =>
    obtain rfl : c = sep := hrest c rfl
    refine ⟨splitOn c rest, ?_⟩
    rw [splitOn_append_sep, hmiddle, List.append_assoc]
    rfl

theorem infix_joinWith {sep piece : List Char} {pieces : List (List Char)} (h : piece ∈ pieces) :
    piece <:+: joinWith sep pieces := by
  induction pieces with
  | nil => cases h
  | cons first rest ih =>
    cases rest with
    | nil =>
      obtain rfl := List.mem_singleton.1 h
      exact List.infix_rfl
    | cons next more =>
      rw [joinWith_cons _ _ (List.cons_ne_nil _ _)]
      rcases List.mem_cons.1 h with rfl | h
      · rw [List.append_assoc]
        exact (List.prefix_append ..).isInfix
      · exact (ih h).trans (List.suffix_append ..).isInfix

/-- What holds of the pieces and the separator, and stays when texts are put together, holds of the
joined text. -/
theorem joinWith_induct {P : List Char → Prop} (nil : P [])
    (append : ∀ {text more}, P text → P more → P (text ++ more)) {sep : List Char} (hsep : P sep)
    {pieces : List (List Char)} (h : ∀ piece ∈ pieces, P piece) : P (joinWith sep pieces) := by
  induction pieces with
  | nil => exact nil
  | cons piece rest ih =>
    rw [List.forall_mem_cons] at h
    cases rest with
    | nil => exact h.1
    | cons next more =>
      rw [joinWith_cons _ _ (List.cons_ne_nil _ _)]
      exact append (append h.1 hsep) (ih h.2)

theorem not_mem_joinWith {c : Char} {sep : List Char} (hsep : c ∉ sep) {pieces : List (List Char)}
    (h : ∀ piece ∈ pieces, c ∉ piece) : c ∉ joinWith sep pieces :=
  joinWith_induct List.not_mem_nil List.not_mem_append hsep h

/-- A piece is part of the text that it is cut from. -/
theorem infix_of_mem_splitOn {sep : Char} {text piece : List Char}
    (h : piece ∈ splitOn sep text) : piece <:+: text := by
  rw [← joinWith_splitOn sep text]
  exact infix_joinWith h

/-- A text in which a break ends every line. -/
def ofLines (lines : List (List Char)) : List Char := lines.flatMap (· ++ ['\n'])

theorem splitOn_ofLines {lines : List (List Char)} (h : ∀ line ∈ lines, '\n' ∉ line) :
    splitOn '\n' (ofLines lines) = lines ++ [[]] := by
  induction lines with
  | nil => rfl
  | cons line rest ih =>
    have hline : '\n' ∉ line := h line (List.mem_cons_self ..)
    show splitOn '\n' (line ++ ['\n'] ++ ofLines rest) = _
    rw [List.append_assoc, List.singleton_append, splitOn_append_cons hline, ih]
    · rfl
    · intro l hl
      exact h l (List.mem_cons_of_mem _ hl)

/-! ### Trimming -/

/-- A text that starts and ends with characters which are not blank. -/
structure IsFirm (text : List Char) : Prop where
  starts : ∃ c rest, text = c :: rest ∧ isBlank c = false
  ends : ∃ c init, text = init ++ [c] ∧ isBlank c = false

theorem isFirm_of_forall {text : List Char} (hne : text ≠ [])
    (h : ∀ c ∈ text, isBlank c = false) : IsFirm text where
  starts := by
    obtain ⟨c, rest, rfl⟩ := List.exists_cons_of_ne_nil hne
    exact ⟨c, rest, rfl, h c (List.mem_cons_self ..)⟩
  ends := by
    obtain ⟨init, c, rfl⟩ := (List.eq_nil_or_concat text).resolve_left hne
    exact ⟨c, init, List.concat_eq_append .., h c (by simp)⟩

theorem isFirm_singleton {c : Char} (h : isBlank c = false) : IsFirm [c] :=
  isFirm_of_forall (List.cons_ne_nil c []) (List.forall_mem_singleton.2 h)

namespace IsFirm

variable {text more : List Char}

theorem ne_nil (h : IsFirm text) : text ≠ [] := by
  obtain ⟨c, rest, rfl, -⟩ := h.starts
  exact List.cons_ne_nil c rest

/-- Whatever stands between two firm texts, the whole is firm. -/
theorem append (ht : IsFirm text) (middle : List Char) (hm : IsFirm more) :
    IsFirm (text ++ middle ++ more) where
  starts := by
    obtain ⟨c, rest, rfl, hc⟩ := ht.starts
    exact ⟨c, rest ++ middle ++ more, by simp, hc⟩
  ends := by
    obtain ⟨c, init, rfl, hc⟩ := hm.ends
    exact ⟨c, text ++ middle ++ init, by simp, hc⟩

theorem trim_eq (h : IsFirm text) : trim text = text := by
  have hstart : trimStart text = text := by
    obtain ⟨c, rest, rfl, hc⟩ := h.starts
    exact List.dropWhile_cons_of_neg (by simp [hc])
  have hend : trimEnd text = text := by
    obtain ⟨c, init, rfl, hc⟩ := h.ends
    have hreverse : (init ++ [c]).reverse = c :: init.reverse := by simp
    rw [trimEnd, hreverse, List.dropWhile_cons_of_neg (by simp [hc]), ← hreverse,
      List.reverse_reverse]
  rw [trim, hstart, hend]

end IsFirm

/-- Nothing is left of a text exactly if it is blank. -/
theorem trim_eq_nil_iff {text : List Char} :
    trim text = [] ↔ ∀ c ∈ text, isBlank c = true := by
  have hend : ∀ other : List Char, trimEnd other = [] ↔ ∀ c ∈ other, isBlank c = true := by
    intro other
    rw [trimEnd, List.reverse_eq_nil_iff, List.dropWhile_eq_nil_iff]
    simp
  rw [trim, hend, trimStart]
  constructor
  · intro h c hc
    rw [← List.takeWhile_append_dropWhile (p := isBlank) (l := text), List.mem_append] at hc
    rcases hc with hc | hc
    · exact List.mem_takeWhile_imp hc
    · exact h c hc
  · intro h c hc
    exact h c ((List.dropWhile_sublist isBlank).mem hc)

theorem trim_append_blank {c : Char} (h : isBlank c = true) (text : List Char) :
    trim (text ++ [c]) = trim text := by
  have hend : ∀ other : List Char, trimEnd (other ++ [c]) = trimEnd other := by
    intro other
    rw [trimEnd, List.reverse_append, List.reverse_singleton, List.singleton_append,
      List.dropWhile_cons_of_pos h, trimEnd]
  rw [trim, trim, trimStart, trimStart, List.dropWhile_append]
  split
  · rename_i hblank
    rw [List.isEmpty_iff.1 hblank, List.dropWhile_cons_of_pos h]
    rfl
  · exact hend _

theorem trim_isInfix (text : List Char) : trim text <:+: text := by
  have hend : trimEnd (trimStart text) <+: trimStart text := by
    rw [← List.reverse_suffix, trimEnd, List.reverse_reverse]
    exact List.dropWhile_suffix isBlank
  exact hend.isInfix.trans (List.dropWhile_suffix isBlank).isInfix

/-! ### Lines -/

theorem trim_dropReturn (line : List Char) : trim (dropReturn line) = trim line := by
  unfold dropReturn
  split
  · rename_i h
    obtain ⟨init, rfl⟩ := List.getLast?_eq_some_iff.1 h
    rw [List.dropLast_concat, trim_append_blank (by decide)]
  · rfl

/-- Losing a carriage return at its end leaves what a line holds before. -/
theorem prefix_dropReturn {text line : List Char} (h : text <+: line)
    (hlast : text.getLast? ≠ some '\r') : text <+: dropReturn line := by
  unfold dropReturn
  split
  · rename_i hreturn
    obtain ⟨init, rfl⟩ := List.getLast?_eq_some_iff.1 hreturn
    rw [List.dropLast_concat]
    rcases List.prefix_concat_iff.1 h with rfl | h
    · exact absurd hreturn hlast
    · exact h
  · exact h

theorem dropReturn_isPrefix (line : List Char) : dropReturn line <+: line := by
  unfold dropReturn
  split
  · exact List.dropLast_prefix line
  · exact List.prefix_rfl

theorem exists_prefix_of_mem_endLines {pieces : List (List Char)} {line : List Char}
    (h : line ∈ endLines pieces) : ∃ piece ∈ pieces, line <+: piece := by
  fun_induction endLines pieces with
  | case1 => cases h
  | case2 last hempty => cases h
  | case3 last hempty => exact ⟨line, h, List.prefix_rfl⟩
  | case4 first rest hrest ih =>
    rcases List.mem_cons.1 h with rfl | h
    · exact ⟨first, List.mem_cons_self, dropReturn_isPrefix first⟩
    · obtain ⟨piece, hpiece, hfront⟩ := ih h
      exact ⟨piece, List.mem_cons_of_mem first hpiece, hfront⟩

/-- No line holds a line break. -/
theorem not_mem_of_mem_lines {text line : List Char} (h : line ∈ lines text) : '\n' ∉ line := by
  obtain ⟨piece, hpiece, hfront⟩ := exists_prefix_of_mem_endLines h
  exact fun hmem => not_mem_of_mem_splitOn hpiece (hfront.subset hmem)

/-- A piece between line breaks that is not empty is a line, but for a carriage return. -/
theorem getElem?_endLines {pieces : List (List Char)} {i : Nat} {piece : List Char}
    (h : pieces[i]? = some piece) (hne : piece ≠ []) :
    ∃ line, (endLines pieces)[i]? = some line ∧ (line = piece ∨ line = dropReturn piece) := by
  fun_induction endLines pieces generalizing i with
  | case1 => simp at h
  | case2 last hempty =>
    cases i with
    | zero => simp_all
    | succ i => simp at h
  | case3 last hempty => exact ⟨piece, h, .inl rfl⟩
  | case4 first rest hrest ih =>
    cases i with
    | zero =>
      obtain rfl : first = piece := by simpa using h
      exact ⟨dropReturn first, rfl, .inr rfl⟩
    | succ i => exact ih h

end Playbook.Text
