import Mathlib.Data.List.Chain
import Playbook.Proofs.Token.Offsets

/-!
# What stands between tokens

Between two tokens, before the first one and behind the last one there is nothing but blanks and
comments, and a comment goes on to the end of its line (`IsGap`).  A gap holds a line break only if
the token before it is one: the first break after other tokens, or in the file, is itself a token,
and those of the lines without tokens that follow it are not (`Laid`).

With the places of the tokens in the source, this makes them a tiling of it: every token is the part
of the source from its start to its stop, and every part between two tokens is a gap
(`Token.tiles_of_scan`).
-/

namespace Playbook

/-! ### Gaps -/

/-- Blanks, and comments up to the ends of their lines.  The last comment needs no line break behind
it if the line ends there anyway. -/
inductive IsGap (ends : Bool) : List Char → Prop
  | nil : IsGap ends []
  | blank {c : Char} {rest : List Char} (h : Text.isBlank c = true) (hrest : IsGap ends rest) :
      IsGap ends (c :: rest)
  | comment {text rest : List Char} (h : '\n' ∉ text) (hrest : IsGap ends rest) :
      IsGap ends ('/' :: '/' :: (text ++ '\n' :: rest))
  | lastComment {text : List Char} (h : '\n' ∉ text) (hends : ends = true) :
      IsGap ends ('/' :: '/' :: text)

namespace IsGap

variable {ends : Bool} {line margin gap : List Char}

theorem blanks_append (h : ∀ c ∈ margin, Text.isBlank c = true) (hgap : IsGap ends gap) :
    IsGap ends (margin ++ gap) := by
  induction margin with
  | nil => exact hgap
  | cons c margin ih =>
    rw [List.forall_mem_cons] at h
    exact .blank h.1 (ih h.2)

theorem of_blanks (h : ∀ c ∈ margin, Text.isBlank c = true) : IsGap ends margin := by
  rw [← List.append_nil margin]
  exact blanks_append h .nil

theorem of_isLayout (hline : '\n' ∉ line) (h : Text.IsLayout line) : IsGap true line := by
  cases h with
  | blanks h => exact of_blanks h
  | comment h text =>
    refine blanks_append h (.lastComment ?_ rfl)
    intro hmem
    exact hline (by simp [hmem])

/-- A line of layout in front of a gap. -/
theorem line_append (hline : '\n' ∉ line) (h : Text.IsLayout line) (hgap : IsGap ends gap) :
    IsGap ends (line ++ '\n' :: gap) := by
  cases h with
  | blanks h => exact blanks_append h (.blank (by decide) hgap)
  | @comment margin h text =>
    rw [List.append_assoc]
    refine blanks_append h (.comment ?_ hgap)
    intro hmem
    exact hline (by simp [hmem])

/-- Behind its first line a gap is a gap as well. -/
theorem of_line_append (hline : '\n' ∉ line) (h : IsGap ends (line ++ '\n' :: gap)) :
    IsGap ends gap := by
  generalize htext : line ++ '\n' :: gap = text at h
  induction h generalizing line with
  | nil => simp at htext
  | blank _ hrest ih =>
    cases line with
    | nil =>
      cases htext
      exact hrest
    | cons d line =>
      cases htext
      exact ih (fun hmem => hline (List.mem_cons_of_mem _ hmem)) rfl
  | @comment text rest htext' hrest _ =>
    have hcomment : '\n' ∉ '/' :: '/' :: text := by simpa using htext'
    have hsplit := congrArg (Text.splitOn '\n') htext
    rw [← List.cons_append, ← List.cons_append, Text.splitOn_append_cons hline,
      Text.splitOn_append_cons hcomment, List.cons.injEq] at hsplit
    rw [← Text.joinWith_splitOn '\n' gap, hsplit.2, Text.joinWith_splitOn]
    exact hrest
  | lastComment h' _ =>
    have hmem : '\n' ∈ line ++ '\n' :: gap := by simp
    rw [htext] at hmem
    exact absurd hmem (by simpa using h')

/-- On a single line that goes on, a gap is blank. -/
theorem isBlank_of_mem (hline : '\n' ∉ line) (h : IsGap false line) :
    ∀ c ∈ line, Text.isBlank c = true := by
  induction h with
  | nil => exact List.forall_mem_nil _
  | blank hc _ ih =>
    rw [List.mem_cons, not_or] at hline
    exact List.forall_mem_cons.2 ⟨hc, ih hline.2⟩
  | comment => simp at hline
  | lastComment _ hends => cases hends

end IsGap

namespace Token

/-! ### Gaps between tokens -/

/-- The layout in front of tokens and behind the last one consists of gaps, of which only those
behind a line break hold line breaks, and no line break follows another one.  The flag tells whether
there is a line break in front of the first token. -/
def Laid (broken : Bool) : List Token → List Char → Prop
  | [], trailing => IsGap true trailing ∧ ('\n' ∈ trailing → broken = true)
  | t :: rest, trailing =>
    IsGap t.isBreak t.gap ∧ ('\n' ∈ t.gap → broken = true) ∧
      (broken = true → t.isBreak = false) ∧ Laid t.isBreak rest trailing

variable {broken : Bool} {number : Nat} {tokens rest : List Token} {trailing line : List Char}

/-- Further lines of layout in front of the first token, behind a line break. -/
theorem Laid.carry (hline : '\n' ∉ line) (hlayout : Text.IsLayout line) {s : Scan}
    (h : Laid true s.tokens s.trailing) :
    Laid true (s.carry (line ++ ['\n'])).tokens (s.carry (line ++ ['\n'])).trailing := by
  have hcarry {ends : Bool} {gap : List Char} (hgap : IsGap ends gap) :
      IsGap ends (line ++ ['\n'] ++ gap) := by
    rw [List.append_assoc]
    exact hgap.line_append hline hlayout
  obtain ⟨_ | ⟨t, tokens⟩, trailing⟩ := s
  · exact ⟨hcarry h.1, fun _ => rfl⟩
  · exact ⟨hcarry h.1, fun _ => rfl, h.2.2⟩

/-- The pieces of a line in front of other tokens. -/
theorem Laid.onLine_append {pieces : List Piece}
    (hblank : ∀ p ∈ pieces, ∀ c ∈ p.gap, Text.isBlank c = true)
    (hline : '\n' ∉ pieces.flatMap Piece.written)
    (hread : ∀ p ∈ pieces, p.lexeme ≠ .lineBreak)
    (h : Laid (broken && pieces.isEmpty) rest trailing) :
    Laid broken (onLine number pieces ++ rest) trailing := by
  induction pieces generalizing broken with
  | nil => simpa using h
  | cons p pieces ih =>
    rw [List.forall_mem_cons] at hblank hread
    rw [List.flatMap_cons, List.mem_append, not_or] at hline
    have hbreak : ({ p with line := number } : Token).isBreak = false := by
      simpa [isBreak] using hread.1
    have hgap : '\n' ∉ p.gap := by
      intro hmem
      exact hline.1 (List.mem_append_left _ hmem)
    rw [onLine_cons, List.cons_append, Laid, hbreak]
    refine ⟨IsGap.of_blanks hblank.1, fun hmem => absurd hmem hgap, fun _ => rfl, ?_⟩
    refine ih hblank.2 hline.2 hread.2 ?_
    simpa using h

end Token

theorem isBlank_of_mem_gap {line trailing : List Char} {pieces : List Piece}
    (h : scanLine line = some (pieces, trailing)) :
    ∀ p ∈ pieces, ∀ c ∈ p.gap, Text.isBlank c = true := by
  refine scanLine_induct
    (motive := fun _ pieces _ => ∀ p ∈ pieces, ∀ c ∈ p.gap, Text.isBlank c = true) ?_ ?_ ?_ ?_ h
  · exact List.forall_mem_nil _
  · intro c line pieces trailing hc ih
    cases pieces with
    | nil => exact List.forall_mem_nil _
    | cons p pieces =>
      rw [List.forall_mem_cons] at ih
      exact List.forall_mem_cons.2 ⟨List.forall_mem_cons.2 ⟨hc, ih.1⟩, ih.2⟩
  · intro c rest _
    exact List.forall_mem_nil _
  · intro c rest lexeme after pieces trailing _ _ _ ih
    exact List.forall_mem_cons.2 ⟨List.forall_mem_nil _, ih⟩

theorem isLayout_cons {c : Char} {text : List Char} (hc : Text.isBlank c = true)
    (h : Text.IsLayout text) : Text.IsLayout (c :: text) := by
  cases h with
  | blanks h => exact .blanks (List.forall_mem_cons.2 ⟨hc, h⟩)
  | comment h text => exact .comment (List.forall_mem_cons.2 ⟨hc, h⟩) text

theorem isLayout_trailing_of_scanLine {line trailing : List Char} {pieces : List Piece}
    (h : scanLine line = some (pieces, trailing)) : Text.IsLayout trailing := by
  refine scanLine_induct (motive := fun _ _ trailing => Text.IsLayout trailing) ?_ ?_ ?_ ?_ h
  · exact .blanks (List.forall_mem_nil _)
  · intro c line pieces trailing hc ih
    cases pieces with
    | nil => exact isLayout_cons hc ih
    | cons p pieces => exact ih
  · intro c rest hc
    obtain ⟨rfl, hslash⟩ : c = '/' ∧ rest.head? = some '/' := by simpa [startsComment] using hc
    obtain ⟨text, rfl⟩ := List.head?_eq_some_iff.1 hslash
    exact .comment (List.forall_mem_nil _) text
  · intro c rest lexeme after pieces trailing _ _ _ ih
    exact ih

/-- Scanned tokens have gaps between them. -/
theorem laid_of_scanLines {number : Nat} {lines : List (List Char)} {s : Scan} (hn : 0 < number)
    (hlines : ∀ line ∈ lines, '\n' ∉ line) (h : scanLines number lines = .ok s) :
    Token.Laid (decide (1 < number)) s.tokens s.trailing := by
  induction lines generalizing number s with
  | nil =>
    cases h
    exact ⟨.nil, fun hmem => absurd hmem List.not_mem_nil⟩
  | cons line more ih =>
    rw [List.forall_mem_cons] at hlines
    cases hl : scanLine line with
    | none =>
      rw [scanLines, hl] at h
      cases h
    | some scanned =>
      obtain ⟨pieces, trailing⟩ := scanned
      have hwritten := written_of_scanLine hl
      have hline := hlines.1
      rw [← hwritten, List.mem_append, not_or] at hline
      have htrailing := isLayout_trailing_of_scanLine hl
      -- what follows the pieces of the line decides on what stands behind them
      have hpieces {rest : List Token} {last : List Char} :
          Token.Laid (decide (1 < number) && pieces.isEmpty) rest last →
            Token.Laid (decide (1 < number)) (onLine number pieces ++ rest) last :=
        Token.Laid.onLine_append (isBlank_of_mem_gap hl) hline.1
          fun p hp => (isRead_of_scanLine hl p hp).ne_lineBreak
      rw [scanLines_cons hl] at h
      obtain ⟨below, hbelow, rfl⟩ := Outcome.map_eq_ok_iff.1 h
      cases more with
      | nil =>
        have hend : Token.Laid (decide (1 < number) && pieces.isEmpty) [] trailing :=
          ⟨.of_isLayout hline.2 htrailing, fun hmem => absurd hmem hline.2⟩
        have hlaid := hpieces hend
        rwa [List.append_nil] at hlaid
      | cons next more =>
        rw [List.isEmpty_cons]
        have hmore := ih (Nat.succ_pos number) hlines.2 hbelow
        rw [decide_eq_true (by omega)] at hmore
        by_cases hblank : pieces = [] ∧ 1 < number
        · obtain ⟨rfl, hnumber⟩ := hblank
          rw [Scan.under_blank hnumber, decide_eq_true hnumber]
          exact hmore.carry hline.2 htrailing
        · rw [Scan.tokens_under hblank, Scan.trailing_under hblank]
          have hgap := IsGap.of_isLayout hline.2 htrailing
          refine hpieces ⟨hgap, fun hmem => absurd hmem hline.2, ?_, hmore⟩
          intro hbroken
          rw [Bool.and_eq_true, decide_eq_true_eq, List.isEmpty_iff] at hbroken
          exact absurd hbroken.symm hblank

theorem laid_of_scan {source : List Char} {s : Scan} (h : scan source = .ok s) :
    Token.Laid false s.tokens s.trailing :=
  laid_of_scanLines Nat.one_pos (fun _ => Text.not_mem_of_mem_splitOn) h

/-! ### Lexemes of a line -/

theorem isQuote_of_readLexeme {c mark : Char} {rest content after : List Char}
    (h : readLexeme c rest = some (.quoted mark content, after)) : isQuote mark = true := by
  unfold readLexeme at h
  split at h
  · cases h
  · split at h
    · rename_i hquote
      obtain ⟨_, -, he⟩ := Option.map_eq_some_iff.1 h
      cases he
      exact hquote
    · split at h
      · cases h
      · obtain h := Option.some.inj h
        unfold readSign at h
        split at h
        · split at h
          · cases h
          · split at h <;> cases h
        · split at h <;> cases h

theorem isQuote_of_scanLine {line trailing : List Char} {pieces : List Piece}
    (h : scanLine line = some (pieces, trailing)) :
    ∀ p ∈ pieces, ∀ mark content, p.lexeme = .quoted mark content → isQuote mark = true := by
  have hread {c : Char} {rest after : List Char} {l : Lexeme} (_ : Text.isBlank c = false)
      (hl : readLexeme c rest = some (l, after)) (mark : Char) (content : List Char)
      (he : l = .quoted mark content) : isQuote mark = true :=
    isQuote_of_readLexeme (he ▸ hl)
  exact forall_lexeme_of_scanLine hread h

/-- The content of a string stands between two marks of one kind, on one line. -/
theorem quoted_of_scan {source : List Char} {s : Scan} (h : scan source = .ok s) {t : Token}
    (ht : t ∈ s.tokens) {mark : Char} {content : List Char}
    (hquoted : t.lexeme = .quoted mark content) : isQuote mark = true ∧ '\n' ∉ content := by
  have hb : t.isBreak = false := by simp [Token.isBreak, hquoted]
  obtain ⟨i, line, pieces, trailing, hline, hscan, hfrom⟩ := standsOn_of_scan h ht hb
  obtain ⟨p, hp, hlexeme⟩ := hfrom.lexeme_mem t (List.mem_singleton_self t)
  refine ⟨isQuote_of_scanLine hscan p hp mark content (hlexeme.trans hquoted), fun hmem => ?_⟩
  have hspan : '\n' ∈ Token.span [t] := by simp [hquoted, Lexeme.text, hmem]
  have hbreak : '\n' ∈ line := by
    rw [← written_of_scanLine hscan]
    exact List.mem_append_left _ (hfrom.span_infix.subset hspan)
  exact Text.not_mem_of_mem_splitOn (List.mem_of_getElem? hline) hbreak

namespace Token

variable {broken : Bool} {tokens more : List Token} {trailing : List Char} {offset : Nat}

theorem Laid.gap_of_append (h : Laid broken (tokens ++ more) trailing) :
    IsGap (more.head?.all isBreak) (more.head?.elim trailing fun t => t.gap) ∧
      ('\n' ∈ more.head?.elim trailing (fun t => t.gap) →
        tokens.getLast?.elim broken isBreak = true) := by
  induction tokens generalizing broken with
  | nil =>
    cases more with
    | nil => exact h
    | cons u more => exact ⟨h.1, h.2.1⟩
  | cons t tokens ih =>
    obtain ⟨hgap, hbreak⟩ := ih h.2.2.2
    refine ⟨hgap, fun hmem => ?_⟩
    rw [List.getLast?_cons]
    cases hlast : tokens.getLast? <;> simpa [hlast] using hbreak hmem

theorem Laid.isChain (h : Laid broken tokens trailing) :
    tokens.IsChain fun t u => ¬(t.isBreak = true ∧ u.isBreak = true) := by
  induction tokens generalizing broken with
  | nil => exact .nil
  | cons t tokens ih =>
    obtain ⟨-, -, -, h⟩ := h
    refine List.isChain_cons.2 ⟨fun u hu => ?_, ih h⟩
    obtain ⟨rest, rfl⟩ := List.head?_eq_some_iff.1 hu
    rintro ⟨ht, hu⟩
    rw [h.2.2.1 ht] at hu
    cases hu

/-! ### Places of tokens -/

theorem locate_eq_append {front back : List Located} (h : locate offset tokens = front ++ back) :
    ∃ ts us, tokens = ts ++ us ∧ front = locate offset ts ∧
      back = locate (offset + Text.size (written ts)) us := by
  refine ⟨tokens.take front.length, tokens.drop front.length,
    (List.take_append_drop front.length tokens).symm, ?_⟩
  have hlength : front.length ≤ tokens.length := by
    rw [← length_locate offset tokens, h, List.length_append]
    exact Nat.le_add_right ..
  rw [← List.take_append_drop front.length tokens, locate_append] at h
  obtain ⟨hfront, hback⟩ := List.append_inj h (by simp [hlength])
  exact ⟨hfront.symm, hback.symm⟩

theorem exists_of_mem_locate {t : Located} (h : t ∈ locate offset tokens) :
    ∃ before u after, tokens = before ++ u :: after ∧
      t = u.locatedAt (offset + Text.size (written before)) := by
  obtain ⟨front, back, h⟩ := List.append_of_mem h
  obtain ⟨before, _ | ⟨u, after⟩, htokens, -, hback⟩ := locate_eq_append h
  · cases hback
  · exact ⟨before, u, after, htokens, (List.cons.inj hback).1⟩

theorem pairwise_locate (h : ∀ t ∈ tokens, t.lexeme.width = Text.size t.lexeme.text)
    (offset : Nat) : (locate offset tokens).Pairwise fun t u => t.stop ≤ u.start := by
  induction tokens generalizing offset with
  | nil => exact .nil
  | cons t tokens ih =>
    rw [List.forall_mem_cons] at h
    refine .cons (fun u hu => ?_) (ih h.2 _)
    obtain ⟨before, v, after, -, rfl⟩ := exists_of_mem_locate hu
    simp only [locatedAt, h.1, Piece.written, Text.size_append]
    omega

/-- Where the last of some tokens stops, and without any the start of the source. -/
def lastStop (tokens : List Located) : Nat := tokens.getLast?.elim 0 Located.stop

/-- Where the first of some tokens starts, and without any the end of the source. -/
def firstStart (source : String) (tokens : List Located) : Nat :=
  tokens.head?.elim source.utf8ByteSize Located.start

/-- Tokens with their places tile a source. -/
structure Tiles (source : String) (tokens : List Located) : Prop where
  /-- A token is the part of the source from its start to its stop. -/
  span : ∀ t ∈ tokens, t.start < t.stop ∧
    Text.slice? source t.start t.stop = some (String.ofList t.lexeme.text)
  ordered : tokens.Pairwise fun t u => t.stop ≤ u.start
  /-- Wherever the tokens are divided, a gap stands between the two sides. -/
  gap : ∀ front back, tokens = front ++ back → ∃ gap,
    Text.slice? source (lastStop front) (firstStart source back) = some (String.ofList gap) ∧
      IsGap (back.head?.all fun t => t.isBreak) gap ∧
      ('\n' ∈ gap → ∃ t, front.getLast? = some t ∧ t.isBreak = true)
  line : ∀ t ∈ tokens, ∃ front, Text.slice? source 0 t.start = some (String.ofList front) ∧
    t.line = 1 + front.count '\n'
  /-- A string is its content between two marks. -/
  quoted : ∀ t ∈ tokens, ∀ mark content, t.lexeme = .quoted mark content →
    isQuote mark = true ∧ '\n' ∉ content ∧
      Text.slice? source (t.start + 1) (t.stop - 1) = some (String.ofList content)
  apart : tokens.IsChain fun t u => ¬(t.isBreak = true ∧ u.isBreak = true)

/-- A token starts behind the text in front of it and stops behind its own. -/
theorem LieIn.exists_of_mem_locate {source : String} (h : LieIn tokens source) {t : Located}
    (ht : t ∈ locate 0 tokens) :
    ∃ before after, tokens = before ++ t.toToken :: after ∧
      (∃ rest, source.toList = written before ++ t.gap ++ t.lexeme.text ++ rest) ∧
      t.start = Text.size (written before ++ t.gap) ∧
      t.stop = Text.size (written before ++ t.gap) + Text.size t.lexeme.text := by
  obtain ⟨trailing, htext⟩ := h.text
  obtain ⟨before, u, after, rfl, rfl⟩ := Token.exists_of_mem_locate ht
  have hwidth := h.width u (by simp)
  refine ⟨before, after, rfl, ⟨written after ++ trailing, ?_⟩, ?_, ?_⟩
  · rw [← htext]
    simp [locatedAt]
  · simp [locatedAt]
  · simp [locatedAt, hwidth]

theorem LieIn.lastStop_locate {source : String} (h : LieIn tokens source) {front more : List Token}
    (htokens : tokens = front ++ more) :
    lastStop (locate 0 front) = Text.size (written front) := by
  rcases List.eq_nil_or_concat front with rfl | ⟨init, last, rfl⟩
  · rfl
  · rw [List.concat_eq_append] at htokens ⊢
    have hwidth := h.width last (by simp [htokens])
    rw [locate_append, lastStop, locate, locate, List.getLast?_concat, Nat.zero_add,
      Option.elim_some, stop_locatedAt hwidth]

theorem LieIn.size_text_pos {source : String} (h : LieIn tokens source) {t : Token}
    (ht : t ∈ tokens) : 0 < Text.size t.lexeme.text := by
  have hne : t.lexeme.text ≠ [] := by
    cases hb : t.isBreak with
    | true =>
      rw [beq_iff_eq.1 hb]
      exact List.cons_ne_nil _ _
    | false => exact (h.isRead t ht hb).isFirm.ne_nil
  obtain ⟨c, text, he⟩ := List.exists_cons_of_ne_nil hne
  have hc := c.utf8Size_pos
  rw [he, Text.size_cons]
  omega

/-- Wherever the tokens of a source are divided, a gap stands between the two sides. -/
theorem exists_gap_of_scan {source : String} {s : Scan} (h : scan source.toList = .ok s)
    {front back : List Located} (hsplit : locate 0 s.tokens = front ++ back) :
    ∃ gap, Text.slice? source (lastStop front) (firstStart source back) = some (String.ofList gap) ∧
      IsGap (back.head?.all fun t => t.isBreak) gap ∧
      ('\n' ∈ gap → ∃ t, front.getLast? = some t ∧ t.isBreak = true) := by
  have hlaid := laid_of_scan h
  have hwritten := written_of_scan h
  obtain ⟨front, back, htokens, rfl, rfl⟩ := locate_eq_append hsplit
  rw [(lieIn_of_scan h).lastStop_locate htokens]
  rw [htokens] at hlaid hwritten
  obtain ⟨hgap, hbreak⟩ := hlaid.gap_of_append
  have hlast (hmem : '\n' ∈ back.head?.elim s.trailing fun t => t.gap) :
      ∃ t, (locate 0 front).getLast? = some t ∧ t.isBreak = true := by
    have hfront := hbreak hmem
    rw [← map_toToken_locate 0 front, List.getLast?_map] at hfront
    cases ht : (locate 0 front).getLast? with
    | none => simp [ht] at hfront
    | some t => exact ⟨t, rfl, by simpa [ht] using hfront⟩
  cases back with
  | nil =>
    refine ⟨s.trailing, ?_, hgap, hlast⟩
    have hend : firstStart source (locate (0 + Text.size (written front)) []) =
        Text.size (written front) + Text.size s.trailing := by
      rw [locate, firstStart, List.head?_nil, Option.elim_none, ← Text.size_toList, ← hwritten]
      simp
    have hsource : source.toList = written front ++ s.trailing ++ [] := by
      simp [← hwritten]
    rw [hend]
    exact Text.slice?_of_toList_eq hsource
  | cons u back =>
    refine ⟨u.gap, ?_, hgap, hlast⟩
    have hsource : source.toList =
        written front ++ u.gap ++ (u.lexeme.text ++ written back ++ s.trailing) := by
      simp [← hwritten]
    have hslice := Text.slice?_of_toList_eq hsource
    simpa [firstStart, locate, locatedAt] using hslice

/-- The content of a string is what its two marks leave of its part of the source. -/
theorem content_of_scan {source : String} {s : Scan} (h : scan source.toList = .ok s) {t : Located}
    (ht : t ∈ locate 0 s.tokens) {mark : Char} {content : List Char}
    (hquoted : t.lexeme = .quoted mark content) :
    isQuote mark = true ∧ '\n' ∉ content ∧
      Text.slice? source (t.start + 1) (t.stop - 1) = some (String.ofList content) := by
  obtain ⟨before, after, htokens, ⟨rest, hsource⟩, hstart, hstop⟩ :=
    (lieIn_of_scan h).exists_of_mem_locate ht
  have hmem : t.toToken ∈ s.tokens := by simp [htokens]
  obtain ⟨hmark, hline⟩ := quoted_of_scan h hmem hquoted
  have hsize := utf8Size_of_isQuote hmark
  have hslice : source.toList =
      (written before ++ t.gap ++ [mark]) ++ content ++ (mark :: rest) := by
    simp [hsource, hquoted, Lexeme.text]
  have hstart' : t.start + 1 = Text.size (written before ++ t.gap ++ [mark]) := by
    simp [hstart, hsize, Nat.add_assoc]
  have hstop' : t.stop - 1 = Text.size (written before ++ t.gap ++ [mark]) + Text.size content := by
    simp [hstop, hquoted, Lexeme.text, hsize]
    omega
  rw [hstart', hstop']
  exact ⟨hmark, hline, Text.slice?_of_toList_eq hslice⟩

/-- The tokens of a source tile it. -/
theorem tiles_of_scan {source : String} {s : Scan} (h : scan source.toList = .ok s) :
    Tiles source (locate 0 s.tokens) where
  span := by
    intro t ht
    have hlie := lieIn_of_scan h
    obtain ⟨before, after, htokens, ⟨rest, hsource⟩, hstart, hstop⟩ := hlie.exists_of_mem_locate ht
    have hpos := hlie.size_text_pos (show t.toToken ∈ s.tokens by simp [htokens])
    rw [hstart, hstop]
    exact ⟨by omega, Text.slice?_of_toList_eq hsource⟩
  ordered := pairwise_locate (lieIn_of_scan h).width 0
  gap := fun _ _ => exists_gap_of_scan h
  line := by
    intro t ht
    obtain ⟨before, after, htokens, ⟨rest, hsource⟩, hstart, -⟩ :=
      (lieIn_of_scan h).exists_of_mem_locate ht
    have hslice : source.toList = [] ++ (written before ++ t.gap) ++ (t.lexeme.text ++ rest) := by
      simp [hsource]
    refine ⟨written before ++ t.gap, ?_, line_of_scan h htokens⟩
    rw [hstart]
    simpa using Text.slice?_of_toList_eq hslice
  quoted := fun _ ht _ _ => content_of_scan h ht
  apart := by
    have hchain := (laid_of_scan h).isChain
    rw [← map_toToken_locate 0 s.tokens, List.isChain_map] at hchain
    exact hchain

end Token

end Playbook
