import Playbook.Proofs.Token.Gaps

/-!
# Strings that are not closed

Scanning a source fails only at a string that is not closed on its line.  The mark that opens the
string is the first character of a token, so what stands in front of it scans and does not end in a
comment, and every further mark of its kind on the line is escaped, that is, an odd number of
backslashes stands directly before it (`Unclosed`).

That nothing else makes scanning fail, and that it does fail there, rests on this: what a lexeme is
read as depends on the text behind it only through the next character, and a quotation mark ends any
lexeme in front of it just as the end of the text does (`readLexeme_replace`).
-/

namespace Playbook

/-! ### Escapes -/

/-- The number of backslashes at the end of a text. -/
def backslashes (text : List Char) : Nat := (text.reverse.takeWhile (· == '\\')).length

/-- Every mark of the given kind in a text is escaped by an odd number of backslashes before it. -/
def NeverCloses (mark : Char) (text : List Char) : Prop :=
  ∀ content after, text = content ++ mark :: after → backslashes content % 2 = 1

theorem backslashes_append (front text : List Char) :
    backslashes (front ++ text) =
      if backslashes text = text.length then backslashes front + backslashes text
      else backslashes text := by
  unfold backslashes
  rw [List.reverse_append, List.takeWhile_append, List.length_reverse]
  split
  · rename_i hall
    rw [List.length_append, List.length_reverse, hall, Nat.add_comm]
  · rfl

theorem backslashes_cons {c : Char} (hc : c ≠ '\\') (text : List Char) :
    backslashes (c :: text) = backslashes text := by
  have hzero : backslashes [c] = 0 := by simp [backslashes, hc]
  have happend := backslashes_append [c] text
  rw [hzero, Nat.zero_add, ite_self] at happend
  exact happend

/-- A backslash and the character that it escapes do not count for what follows. -/
theorem backslashes_escape (c : Char) (text : List Char) :
    backslashes ('\\' :: c :: text) % 2 = backslashes text % 2 := by
  have heven : backslashes ['\\', c] % 2 = 0 := by
    by_cases hc : c = '\\' <;> simp [backslashes, hc]
  have happend := backslashes_append ['\\', c] text
  rw [List.cons_append, List.cons_append, List.nil_append] at happend
  rw [happend]
  split
  · omega
  · rfl

variable {mark : Char} {text : List Char}

theorem neverCloses_cons {c : Char} (hc : c ≠ '\\') :
    NeverCloses mark (c :: text) ↔ c ≠ mark ∧ NeverCloses mark text := by
  constructor
  · intro h
    refine ⟨?_, fun content after htext => ?_⟩
    · rintro rfl
      have hodd := h [] text rfl
      cases hodd
    · rw [← backslashes_cons hc]
      exact h (c :: content) after (congrArg (c :: ·) htext)
  · rintro ⟨hmark, h⟩ content after htext
    cases content with
    | nil =>
      cases htext
      exact absurd rfl hmark
    | cons d content =>
      cases htext
      rw [backslashes_cons hc]
      exact h content after rfl

theorem neverCloses_escape (hm : mark ≠ '\\') (c : Char) :
    NeverCloses mark ('\\' :: c :: text) ↔ NeverCloses mark text := by
  constructor
  · intro h content after htext
    rw [← backslashes_escape c]
    exact h ('\\' :: c :: content) after (congrArg ('\\' :: c :: ·) htext)
  · intro h content after htext
    match content with
    | [] =>
      cases htext
      exact absurd rfl hm
    | [_] =>
      cases htext
      rfl
    | _ :: _ :: content =>
      cases htext
      rw [backslashes_escape]
      exact h content after rfl

theorem neverCloses_of_not_mem (h : mark ∉ text) : NeverCloses mark text := by
  rintro content after rfl
  simp at h

/-- A string is not closed exactly if all further marks are escaped. -/
theorem readQuoted_eq_none_iff (hm : mark ≠ '\\') :
    readQuoted mark text = none ↔ NeverCloses mark text := by
  fun_induction readQuoted mark text with
  | case1 => exact iff_of_true rfl (neverCloses_of_not_mem List.not_mem_nil)
  | case2 c rest ih => rw [Option.map_eq_none_iff, ih, neverCloses_escape hm]
  | case3 rest =>
    refine iff_of_false (Option.some_ne_none _) fun h => ?_
    exact absurd rfl ((neverCloses_cons hm).1 h).1
  | case4 c rest hescape hmark ih =>
    rw [Option.map_eq_none_iff, ih]
    by_cases hc : c = '\\'
    · -- such a backslash is the last character
      subst hc
      cases rest with
      | nil =>
        have hlast : mark ∉ ['\\'] := by simpa using hm
        exact iff_of_true (neverCloses_of_not_mem (by simp)) (neverCloses_of_not_mem hlast)
      | cons d rest => exact absurd rfl (hescape d rest rfl)
    · rw [neverCloses_cons hc]
      exact (and_iff_right hmark).symm

/-! ### Lines with such a string -/

theorem ne_backslash_of_isQuote {c : Char} (h : isQuote c = true) : c ≠ '\\' := by
  rintro rfl
  exact absurd h (by decide)

/-- Nothing but a string that is not closed keeps a lexeme from being read. -/
theorem readLexeme_eq_none_iff {c : Char} {rest : List Char} :
    readLexeme c rest = none ↔ isQuote c = true ∧ NeverCloses c rest := by
  unfold readLexeme
  split
  · rename_i s hs
    refine iff_of_false nofun fun ⟨hquote, _⟩ => ?_
    rcases Bool.or_eq_true_iff.1 hquote with h | h <;> rw [beq_iff_eq.1 h] at hs <;> cases hs
  · split
    · rename_i hquote
      rw [Option.map_eq_none_iff, readQuoted_eq_none_iff (ne_backslash_of_isQuote hquote)]
      exact (and_iff_right hquote).symm
    · rename_i hquote
      refine iff_of_false ?_ fun h => hquote h.1
      split <;> nofun

/-- A line scans and does not end in a comment, so a token may stand behind it. -/
def GoesOn (line : List Char) : Prop :=
  ∃ pieces trailing, scanLine line = some (pieces, trailing) ∧
    ∀ c ∈ trailing, Text.isBlank c = true

variable {front line rest : List Char}

theorem goesOn_nil : GoesOn [] := ⟨[], [], scanLine_nil, List.forall_mem_nil _⟩

theorem GoesOn.blank {c : Char} (hb : Text.isBlank c = true) (h : GoesOn line) :
    GoesOn (c :: line) := by
  obtain ⟨pieces, trailing, hline, hblank⟩ := h
  refine ⟨(carryGap [c] (pieces, trailing)).1, (carryGap [c] (pieces, trailing)).2, ?_, ?_⟩
  · rw [scanLine_of_isBlank hb, hline]
    rfl
  · cases pieces with
    | nil => exact List.forall_mem_cons.2 ⟨hb, hblank⟩
    | cons p pieces => exact hblank

/-- A line that does not scan has a string that is not closed. -/
theorem exists_of_scanLine_eq_none (h : scanLine line = none) :
    ∃ front mark rest, line = front ++ mark :: rest ∧ GoesOn front ∧ isQuote mark = true ∧
      NeverCloses mark rest := by
  induction hn : line.length using Nat.strongRecOn generalizing line with
  | _ n ih =>
    subst hn
    cases line with
    | nil =>
      rw [scanLine_nil] at h
      cases h
    | cons c text =>
      cases hb : Text.isBlank c with
      | true =>
        rw [scanLine_of_isBlank hb, Option.map_eq_none_iff] at h
        obtain ⟨front, mark, rest, rfl, hfront, hmark⟩ := ih text.length (by simp) h rfl
        exact ⟨c :: front, mark, rest, rfl, hfront.blank hb, hmark⟩
      | false =>
        cases hc : startsComment c text with
        | true =>
          rw [scanLine_of_startsComment hc] at h
          cases h
        | false =>
          cases hl : readLexeme c text with
          | none => exact ⟨[], c, text, rfl, goesOn_nil, readLexeme_eq_none_iff.1 hl⟩
          | some result =>
            obtain ⟨lexeme, after⟩ := result
            have hlength := length_readLexeme_le hl
            rw [scanLine_of_not_isBlank hb hc, hl, Option.bind_some, Option.map_eq_none_iff] at h
            obtain ⟨front, mark, rest, rfl, ⟨pieces, trailing, hfront, hblank⟩, hmark⟩ :=
              ih after.length (by simp; omega) h rfl
            refine ⟨lexeme.text ++ front, mark, rest, ?_,
              ⟨⟨[], lexeme⟩ :: pieces, trailing, ?_, hblank⟩, hmark⟩
            · rw [List.append_assoc, text_of_readLexeme hl]
            · rw [scanLine_text_append hb hc hl (replaces_of_append front _), hfront]
              rfl

/-- Where a token may stand, a string that is not closed makes the line fail. -/
theorem GoesOn.scanLine_append_eq_none {mark : Char} (h : GoesOn front)
    (hmark : isQuote mark = true) (hclose : NeverCloses mark rest) :
    scanLine (front ++ mark :: rest) = none := by
  have hparted : ∀ c ∈ (mark :: rest).head?, isParted c = true := by
    simp [isParted, hmark]
  obtain ⟨pieces, trailing, hfront, hblank⟩ := h
  revert hblank
  refine scanLine_induct (motive := fun front _ trailing =>
    (∀ c ∈ trailing, Text.isBlank c = true) → scanLine (front ++ mark :: rest) = none)
    ?_ ?_ ?_ ?_ hfront
  · intro _
    have hcomment : startsComment mark rest = false := by
      have hne : mark ≠ '/' := ne_of_isParted (hparted mark rfl) (by decide)
      simp [startsComment, hne]
    rw [List.nil_append, scanLine_of_not_isBlank (not_isBlank_of_isQuote hmark) hcomment,
      readLexeme_eq_none_iff.2 ⟨hmark, hclose⟩]
    rfl
  · intro c line pieces trailing hb ih hblank
    rw [List.cons_append, scanLine_of_isBlank hb, Option.map_eq_none_iff]
    refine ih ?_
    cases pieces with
    | nil => exact (List.forall_mem_cons.1 hblank).2
    | cons p pieces => exact hblank
  · intro c text hc hblank
    rw [List.forall_mem_cons] at hblank
    obtain rfl : c = '/' := by
      rw [startsComment, Bool.and_eq_true, beq_iff_eq] at hc
      exact hc.1
    exact absurd hblank.1 (by decide)
  · intro c text lexeme after pieces trailing hb hc hl ih hblank
    rw [← text_of_readLexeme hl, List.append_assoc,
      scanLine_text_append hb hc hl (replaces_append after hparted), ih hblank]
    rfl

/-! ### Sources with such a string -/

/-- Whether a token may stand behind the layout at the end of lines is a matter of the last line. -/
theorem isGap_trailing_iff {number : Nat} {lines : List (List Char)} {s : Scan}
    (hlines : ∀ other ∈ lines ++ [line], '\n' ∉ other)
    (h : scanLines number (lines ++ [line]) = .ok s) : IsGap false s.trailing ↔ GoesOn line := by
  induction lines generalizing number s with
  | nil =>
    rw [List.nil_append] at h hlines
    cases hl : scanLine line with
    | none =>
      rw [scanLines, hl] at h
      cases h
    | some scanned =>
      obtain ⟨pieces, trailing⟩ := scanned
      have hline := List.forall_mem_singleton.1 hlines
      rw [← written_of_scanLine hl, List.mem_append, not_or] at hline
      rw [scanLines_cons hl] at h
      obtain ⟨_, -, rfl⟩ := Outcome.map_eq_ok_iff.1 h
      show IsGap false trailing ↔ _
      constructor
      · exact fun hgap => ⟨pieces, trailing, hl, hgap.isBlank_of_mem hline.2⟩
      · rintro ⟨pieces', trailing', hl', hblank⟩
        rw [hl] at hl'
        cases hl'
        exact .of_blanks hblank
  | cons other lines ih =>
    rw [List.cons_append, List.forall_mem_cons] at hlines
    cases hl : scanLine other with
    | none =>
      rw [List.cons_append, scanLines, hl] at h
      cases h
    | some scanned =>
      obtain ⟨pieces, trailing⟩ := scanned
      have hempty : (lines ++ [line]).isEmpty = false := by simp
      rw [List.cons_append, scanLines_cons hl, hempty] at h
      obtain ⟨below, hbelow, rfl⟩ := Outcome.map_eq_ok_iff.1 h
      rw [← ih hlines.2 hbelow]
      by_cases hblank : pieces = [] ∧ 1 < number
      · -- layout is carried over only if there are no tokens below to take it
        obtain ⟨rfl, hnumber⟩ := hblank
        have htrailing : trailing = other := written_of_scanLine hl
        rw [Scan.under_blank hnumber, htrailing]
        obtain ⟨_ | ⟨t, tokens⟩, last⟩ := below
        · show IsGap false (other ++ ['\n'] ++ last) ↔ _
          rw [List.append_assoc]
          exact ⟨.of_line_append hlines.1, .line_append hlines.1 (isLayout_of_scanLine hl)⟩
        · rfl
      · rw [Scan.trailing_under hblank]

/-- A token may stand behind a text exactly if all its lines scan and the last one goes on. -/
theorem scan_reaches_iff {before : List Char} {lines : List (List Char)}
    (h : Text.splitOn '\n' before = lines ++ [line]) :
    (∃ s, scan before = .ok s ∧ IsGap false s.trailing) ↔
      (∀ other ∈ lines, scanLine other ≠ none) ∧ GoesOn line := by
  have hnot : ∀ other ∈ lines ++ [line], '\n' ∉ other := by
    rw [← h]
    exact fun other => Text.not_mem_of_mem_splitOn
  rw [scan, h]
  constructor
  · rintro ⟨s, hs, hgap⟩
    have hlines := scanLines_succeeds_iff.1 ⟨s, hs⟩
    exact ⟨(List.forall_mem_append.1 hlines).1, (isGap_trailing_iff hnot hs).1 hgap⟩
  · rintro ⟨hlines, hline⟩
    obtain ⟨s, hs⟩ : ∃ s, scanLines 1 (lines ++ [line]) = .ok s := by
      rw [scanLines_succeeds_iff, List.forall_mem_append]
      obtain ⟨pieces, trailing, hscan, -⟩ := hline
      exact ⟨hlines, List.forall_mem_singleton.2 (by simp [hscan])⟩
    exact ⟨s, hs, (isGap_trailing_iff hnot hs).2 hline⟩

/-- Behind a text of the source, a mark opens a string that is not closed on its line: the text
scans and does not end in a comment, and in the rest of the line every such mark is escaped. -/
structure Unclosed (source before : List Char) (mark : Char) (rest after : List Char) : Prop where
  source_eq : source = before ++ mark :: (rest ++ after)
  isQuote : isQuote mark = true
  reached : ∃ s, scan before = .ok s ∧ IsGap false s.trailing
  oneLine : '\n' ∉ rest
  after : ∀ c ∈ after.head?, c = '\n'
  neverCloses : NeverCloses mark rest

/-- Scanning fails exactly at a string that is not closed, and its line is reported. -/
theorem scan_eq_error_iff {source : List Char} {n : Nat} :
    scan source = .error n ↔ ∃ before mark rest after, Unclosed source before mark rest after ∧
      n = 1 + before.count '\n' := by
  have hcount {before last : List Char} {lines : List (List Char)}
      (h : Text.splitOn '\n' before = lines ++ [last]) : before.count '\n' = lines.length := by
    have hlength := Text.length_splitOn '\n' before
    rw [h, List.length_append, List.length_singleton] at hlength
    omega
  rw [scan, scanLines_eq_error_iff]
  constructor
  · rintro ⟨lines, line, more, hsource, hlines, hline, rfl⟩
    obtain ⟨front, mark, rest, rfl, hfront, hmark, hclose⟩ := exists_of_scanLine_eq_none hline
    have hrest : '\n' ∉ front ++ mark :: rest :=
      Text.not_mem_of_mem_splitOn (hsource ▸ List.mem_append_right _ (List.mem_cons_self ..))
    obtain ⟨before, after, htext, hbefore, hafter⟩ := Text.exists_append_of_splitOn hsource
    refine ⟨before, mark, rest, after, ⟨htext, hmark, ?_, ?_, hafter, hclose⟩, ?_⟩
    · exact (scan_reaches_iff hbefore).2 ⟨hlines, hfront⟩
    · intro hmem
      exact hrest (by simp [hmem])
    · rw [hcount hbefore]
  · rintro ⟨before, mark, rest, after, h, rfl⟩
    obtain ⟨lines, front, hbefore⟩ :
        ∃ lines front, Text.splitOn '\n' before = lines ++ [front] := by
      rcases List.eq_nil_or_concat (Text.splitOn '\n' before) with h | ⟨lines, front, h⟩
      · exact absurd h (Text.splitOn_ne_nil '\n' before)
      · exact ⟨lines, front, h.trans (List.concat_eq_append ..)⟩
    obtain ⟨hlines, hfront⟩ := (scan_reaches_iff hbefore).1 h.reached
    have hline : '\n' ∉ mark :: rest := by
      have hmark : '\n' ≠ mark := by
        rintro rfl
        exact absurd h.isQuote (by decide)
      simp [hmark, h.oneLine]
    obtain ⟨more, hsource⟩ := Text.exists_splitOn_append hbefore hline h.after
    refine ⟨lines, front ++ mark :: rest, more, ?_, hlines, ?_, ?_⟩
    · rw [h.source_eq]
      exact hsource
    · exact hfront.scanLine_append_eq_none h.isQuote h.neverCloses
    · rw [hcount hbefore]

/-- The tokens of a source that scans tile it, and a source that does not scan has a string that is
not closed. -/
theorem scan_tiles (source : String) :
    (∀ s, scan source.toList = .ok s → Token.Tiles source (locate 0 s.tokens)) ∧
    ∀ n, scan source.toList = .error n ↔
      ∃ before mark rest after, Unclosed source.toList before mark rest after ∧
        n = 1 + before.count '\n' :=
  ⟨fun _ => Token.tiles_of_scan, fun _ => scan_eq_error_iff⟩

/-- Characters of several bytes, comments and blank lines, and quotation marks that are escaped or
stand in a comment or a string of the other kind. -/
def quotedNotes : String := "\n// \"é\n\n≤ x = 'a\\'\"é' // '\n  \n\ty && \"'\""

/-- Behind a comment with a mark, a string with nothing but escaped marks. -/
def unclosedNote : String := "x = 'a' // '\ny = \"b\\\" \\\\\\\" // é\nz"

theorem scan_tiles_notes :
    (∃ s, scan quotedNotes.toList = .ok s ∧ Token.Tiles quotedNotes (locate 0 s.tokens)) ∧
    ∃ before mark rest after, Unclosed unclosedNote.toList before mark rest after ∧
      2 = 1 + before.count '\n' := by
  obtain ⟨s, hs⟩ : ∃ s, scan quotedNotes.toList = .ok s := ⟨_, by with_unfolding_all rfl⟩
  have herror : scan unclosedNote.toList = .error 2 := by with_unfolding_all rfl
  exact ⟨⟨s, hs, (scan_tiles quotedNotes).1 s hs⟩, ((scan_tiles unclosedNote).2 2).1 herror⟩

end Playbook
