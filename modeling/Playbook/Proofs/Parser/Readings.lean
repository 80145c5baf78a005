import Playbook.Proofs.Parser.Forms
import Playbook.Proofs.Parser.Runs

/-!
# Lines that are read as statements

`IsReading lines s` collects what the induction over a tree needs of the lines of a statement: they
are read as that statement whatever follows, their braces are paired among themselves, and they are
not taken for the `else` of a conditional before them.  `IsBlock` is the same for the statements of
a block.
-/

namespace Playbook

/-- Whether a lexeme opens or closes a block. -/
def Lexeme.isBrace (l : Lexeme) : Bool := l == .symbol .openBrace || l == .symbol .closeBrace

theorem not_isBrace_of_nests {pending : List Symbol} {lexemes : List Lexeme}
    (h : nests pending lexemes = true) : ∀ l ∈ lexemes, l.isBrace = false := by
  refine forall_mem_of_nests ?_ h
  intro pending l pending' hl
  rw [Lexeme.isBrace, Bool.or_eq_false_iff, beq_eq_false_iff_ne, beq_eq_false_iff_ne]
  constructor <;> rintro rfl <;> cases hl

namespace Parser

/-! ### Braces -/

theorem pairBraces_of_openBrace {t : Token} (h : t.is .openBrace = true) (opened : List Nat)
    (rest : List Token) :
    pairBraces opened (t :: rest) = pairBraces (t.line :: opened) rest := by
  cases opened <;> simp [pairBraces, h]

theorem pairBraces_of_closeBrace {t : Token} (h : t.is .closeBrace = true) (line : Nat)
    (opened : List Nat) (rest : List Token) :
    pairBraces (line :: opened) (t :: rest) = pairBraces opened rest := by
  have hopen : t.is .openBrace = false := by
    rw [Token.is, beq_eq_false_iff_ne, beq_iff_eq.1 h]
    decide
  simp [pairBraces, hopen, h]

theorem pairBraces_of_not_isBrace {t : Token} (h : t.lexeme.isBrace = false) (opened : List Nat)
    (rest : List Token) : pairBraces opened (t :: rest) = pairBraces opened rest := by
  obtain ⟨hopen, hclose⟩ := Bool.or_eq_false_iff.1 h
  cases opened <;> simp [pairBraces, Token.is, hopen, hclose]

/-- The braces of some tokens are paired among themselves. -/
def BracesPaired (tokens : List Token) : Prop :=
  ∀ opened rest, pairBraces opened (tokens ++ rest) = pairBraces opened rest

namespace BracesPaired

variable {tokens others : List Token}

theorem append (h : BracesPaired tokens) (ho : BracesPaired others) :
    BracesPaired (tokens ++ others) := by
  intro opened rest
  rw [List.append_assoc, h, ho]

theorem of_not_isBrace (h : ∀ t ∈ tokens, t.lexeme.isBrace = false) : BracesPaired tokens := by
  intro opened rest
  induction tokens with
  | nil => rfl
  | cons t tokens ih =>
    rw [List.forall_mem_cons] at h
    rw [List.cons_append, pairBraces_of_not_isBrace h.1, ih h.2]

theorem block {first last : Token} (hfirst : first.is .openBrace = true)
    (hlast : last.is .closeBrace = true) (h : BracesPaired tokens) :
    BracesPaired (first :: (tokens ++ [last])) := by
  intro opened rest
  rw [List.cons_append, pairBraces_of_openBrace hfirst, List.append_assoc, h, List.singleton_append,
    pairBraces_of_closeBrace hlast]

end BracesPaired

/-! ### Breaks -/

@[simp] theorem isBreak_lineEnd (number : Nat) : (lineEnd number).isBreak = true := rfl

theorem block_lineEnd (bound opened number : Nat) (tokens : List Token) :
    block bound opened (lineEnd number :: tokens) = block bound opened tokens := by
  cases bound with
  | zero => rfl
  | succ bound => rfl

theorem elseBlock?_of_ne {first : Token} (hb : first.isBreak = false) {tokens : List Token}
    (h : first.lexeme ≠ .word "else".toList ∨ Token.after? .openBrace tokens = none) :
    elseBlock? (first :: tokens) = none := by
  have hskip : Token.skipBreaks (first :: tokens) = first :: tokens :=
    List.dropWhile_cons_of_neg (by simp [hb])
  rw [elseBlock?, hskip]
  dsimp only
  split
  · rename_i hword
    rcases h with h | h
    · exact absurd hword h
    · rw [h]
      rfl
  · rfl

/-! ### Statements and blocks -/

/-- Lines of pieces that are read as a statement, whatever follows them. -/
structure IsReading (lines : List (List Piece)) (s : Statement) : Prop where
  ne_nil : ∀ line ∈ lines, line ≠ []
  paired : ∀ number, BracesPaired (tokensOfLines number lines)
  elseless : ∀ number rest, elseBlock? (tokensOfLines number lines ++ rest) = none
  reads : ∀ number bound rest, (tokensOfLines number lines).length ≤ bound →
    elseBlock? rest = none → ∃ first more,
      tokensOfLines number lines ++ rest = first :: more ∧
        statement (block bound) first more = .ok (s, rest)

/-- Lines of pieces that are read as the statements of a block, up to the brace that closes it. -/
structure IsBlock (lines : List (List Piece)) (body : List Statement) : Prop where
  ne_nil : ∀ line ∈ lines, line ≠ []
  paired : ∀ number, BracesPaired (tokensOfLines number lines)
  elseless : ∀ number close rest, close.is .closeBrace = true →
    elseBlock? (tokensOfLines number lines ++ close :: rest) = none
  reads : ∀ number bound opened close rest, (tokensOfLines number lines).length < bound →
    close.is .closeBrace = true →
    block bound opened (tokensOfLines number lines ++ close :: rest) = .ok (body, rest)

/-- A statement is read wherever a word starts it. -/
theorem block_succ_of_word {bound opened : Nat} {first : Token} {tokens rest after : List Token}
    {s : Statement} {body : List Statement}
    (hs : statement (block bound) first tokens = .ok (s, rest))
    (hbody : block bound opened rest = .ok (body, after)) :
    block (bound + 1) opened (first :: tokens) = .ok (s :: body, after) := by
  obtain ⟨letters, _, hword, -, -⟩ := statement_eq_ok_iff.1 hs
  have hskip : Token.skipBreaks (first :: tokens) = first :: tokens :=
    List.dropWhile_cons_of_neg (by simp [Token.isBreak, hword])
  have hclose : first.is .closeBrace = false := by simp [Token.is, hword]
  rw [block, hskip]
  simp [hclose, hs, hbody, bind, Except.bind]

theorem block_of_closeBrace {bound opened : Nat} (hbound : 0 < bound) {close : Token}
    (h : close.is .closeBrace = true) (rest : List Token) :
    block bound opened (close :: rest) = .ok ([], rest) := by
  obtain ⟨bound, rfl⟩ := Nat.exists_eq_add_one_of_ne_zero (Nat.ne_zero_of_lt hbound)
  have hskip : Token.skipBreaks (close :: rest) = close :: rest :=
    List.dropWhile_cons_of_neg (by simp [Token.isBreak, beq_iff_eq.1 h])
  rw [block, hskip]
  simp [h]

theorem elseBlock?_of_closeBrace {close : Token} (h : close.is .closeBrace = true)
    (rest : List Token) : elseBlock? (close :: rest) = none := by
  have hlexeme : close.lexeme = .symbol .closeBrace := beq_iff_eq.1 h
  exact elseBlock?_of_ne (by simp [Token.isBreak, hlexeme]) (.inl (by simp [hlexeme]))

theorem IsReading.length_pos {lines : List (List Piece)} {s : Statement} (h : IsReading lines s)
    (number : Nat) : 0 < (tokensOfLines number lines).length := by
  obtain ⟨first, more, htokens, -⟩ := h.reads number _ [] (Nat.le_refl _) rfl
  rw [List.append_nil] at htokens
  simp [htokens]

theorem IsBlock.nil : IsBlock [] [] where
  ne_nil := by simp
  paired := fun _ _ _ => rfl
  elseless := fun _ _ _ h => elseBlock?_of_closeBrace h _
  reads := fun _ _ _ _ _ hbound h => block_of_closeBrace (Nat.zero_lt_of_lt hbound) h _

theorem IsBlock.cons {lines more : List (List Piece)} {s : Statement} {body : List Statement}
    (hs : IsReading lines s) (hbody : IsBlock more body) :
    IsBlock (lines ++ more) (s :: body) where
  ne_nil := List.forall_mem_append.2 ⟨hs.ne_nil, hbody.ne_nil⟩
  paired := by
    intro number
    rw [tokensOfLines_append]
    exact (hs.paired number).append (hbody.paired _)
  elseless := by
    intro number close rest _
    rw [tokensOfLines_append, List.append_assoc]
    exact hs.elseless number _
  reads := by
    intro number bound opened close rest hbound hclose
    rw [tokensOfLines_append, List.length_append] at hbound
    rw [tokensOfLines_append, List.append_assoc]
    obtain ⟨bound, rfl⟩ := Nat.exists_eq_add_one_of_ne_zero (Nat.ne_zero_of_lt hbound)
    obtain ⟨first, tokens, htokens, hread⟩ := hs.reads number bound _ (by omega)
      (hbody.elseless (number + lines.length) close rest hclose)
    rw [htokens]
    -- the statement has taken a token at least, so the bound suffices for the others
    refine block_succ_of_word hread (hbody.reads _ bound opened close rest ?_ hclose)
    have hpos := hs.length_pos number
    omega

/-! ### Lines -/

theorem not_isBrace_onLine {line : List Piece} (h : ∀ p ∈ line, p.lexeme.isBrace = false)
    (number : Nat) : ∀ t ∈ onLine number line, t.lexeme.isBrace = false :=
  List.forall_mem_map.2 h

theorem after?_openBrace_onLine {line : List Piece} (h : ∀ p ∈ line, p.lexeme.isBrace = false)
    (number : Nat) (rest : List Token) :
    Token.after? .openBrace (onLine number line ++ lineEnd number :: rest) = none := by
  cases line with
  | nil => rfl
  | cons p line =>
    rw [List.forall_mem_cons] at h
    obtain ⟨hopen, -⟩ := Bool.or_eq_false_iff.1 h.1
    simp [Token.after?, Token.is, beq_eq_false_iff_ne.1 hopen]

/-- A statement on a line of its own. -/
theorem IsReading.of_line {margin word : List Char} {line : List Piece} {s : Statement}
    (hbraces : ∀ p ∈ line, p.lexeme.isBrace = false)
    (hreads : ∀ block number rest, Reads block number word
      (onLine number line ++ lineEnd number :: rest) s (lineEnd number :: rest)) :
    IsReading [⟨margin, .word word⟩ :: line] s where
  ne_nil := by simp
  paired := by
    intro number
    refine BracesPaired.of_not_isBrace ?_
    simp only [tokensOfLines, onLine_cons, List.cons_append]
    refine List.forall_mem_cons.2 ⟨rfl, List.forall_mem_append.2 ⟨?_, ?_⟩⟩
    · exact not_isBrace_onLine hbraces number
    · simp [lineEnd, Lexeme.isBrace]
  elseless := by
    intro number rest
    simp only [tokensOfLines, onLine_cons, List.cons_append, List.append_assoc, List.nil_append]
    exact elseBlock?_of_ne rfl (.inr (after?_openBrace_onLine hbraces number rest))
  reads := by
    intro number bound rest _ _
    simp only [tokensOfLines, onLine_cons, List.cons_append, List.append_assoc, List.nil_append]
    refine ⟨_, _, rfl, statement_eq_ok_iff.2 ⟨word, _, rfl, hreads (block bound) number rest, ?_⟩⟩
    rfl

/-- The brace that closes a block on the line with the given number. -/
def closing (margin : List Char) (number : Nat) : Token :=
  { gap := margin, lexeme := .symbol .closeBrace, line := number }

/-- The brace that opens a block on the line with the given number. -/
def opening (number : Nat) : Token :=
  { gap := [' '], lexeme := .symbol .openBrace, line := number }

theorem braced_opening (reader : BlockReader) (form : Form) (line number : Nat)
    (inner : List Token) : braced reader form line (opening number :: inner) = reader line inner :=
  rfl

theorem tokensOfLines_block (number : Nat) (head : List Piece) (lines : List (List Piece))
    (margin : List Char) :
    tokensOfLines number (head :: (lines ++ [[⟨margin, .symbol .closeBrace⟩]])) =
      onLine number head ++ lineEnd number :: (tokensOfLines (number + 1) lines ++
        [closing margin (number + 1 + lines.length), lineEnd (number + 1 + lines.length)]) := by
  rw [tokensOfLines, tokensOfLines_append]
  rfl

theorem bracesPaired_lineEnd (number : Nat) : BracesPaired [lineEnd number] :=
  .of_not_isBrace (by simp [lineEnd, Lexeme.isBrace])

theorem bracesPaired_word {line : List Piece} (h : ∀ p ∈ line, p.lexeme.isBrace = false)
    (margin word : List Char) (number : Nat) :
    BracesPaired (onLine number (⟨margin, .word word⟩ :: line)) :=
  .of_not_isBrace (not_isBrace_onLine (List.forall_mem_cons.2 ⟨rfl, h⟩) number)

/-- The tokens of a block, from the brace that opens it to the one that closes it. -/
theorem bracesPaired_braced {lines : List (List Piece)}
    (h : ∀ number, BracesPaired (tokensOfLines number lines)) (opened number closed : Nat)
    (margin : List Char) :
    BracesPaired (opening opened :: (lineEnd opened :: tokensOfLines number lines ++
      [closing margin closed])) :=
  .block rfl rfl ((bracesPaired_lineEnd opened).append (h number))

theorem bracesPaired_block {line : List Piece} (hbraces : ∀ p ∈ line, p.lexeme.isBrace = false)
    {lines : List (List Piece)} (h : ∀ number, BracesPaired (tokensOfLines number lines))
    (margin word : List Char) (number : Nat) :
    BracesPaired (tokensOfLines number
      ((⟨margin, .word word⟩ :: (line ++ [⟨[' '], .symbol .openBrace⟩])) ::
        (lines ++ [[⟨margin, .symbol .closeBrace⟩]]))) := by
  have hbraced := bracesPaired_braced h number (number + 1) (number + 1 + lines.length) margin
  have hall := ((bracesPaired_word hbraces margin word number).append hbraced).append
    (bracesPaired_lineEnd (number + 1 + lines.length))
  rw [tokensOfLines_block]
  simpa [opening] using hall

/-- A statement with one block, whose keyword and what follows it stand before the brace. -/
theorem IsReading.of_block {margin word : List Char} (hword : word ≠ "else".toList)
    {line : List Piece} (hbraces : ∀ p ∈ line, p.lexeme.isBrace = false)
    {lines : List (List Piece)} {body : List Statement} (hbody : IsBlock lines body)
    {s : Statement}
    (hreads : ∀ {block number inner rest}, block number inner = .ok (body, rest) →
      elseBlock? rest = none →
      Reads block number word
        (onLine number (line ++ [⟨[' '], .symbol .openBrace⟩]) ++ inner) s rest) :
    IsReading ((⟨margin, .word word⟩ :: (line ++ [⟨[' '], .symbol .openBrace⟩])) ::
      (lines ++ [[⟨margin, .symbol .closeBrace⟩]])) s where
  ne_nil := by
    refine List.forall_mem_cons.2 ⟨by simp, List.forall_mem_append.2 ⟨hbody.ne_nil, by simp⟩⟩
  paired := bracesPaired_block hbraces hbody.paired margin word
  elseless := by
    intro number rest
    simp only [tokensOfLines, onLine_cons, List.cons_append]
    exact elseBlock?_of_ne rfl (.inl (by simpa using hword))
  reads := by
    intro number bound rest hbound helse
    rw [tokensOfLines_block] at hbound ⊢
    have hlength : (tokensOfLines (number + 1) lines).length < bound := by
      simp only [List.length_append, List.length_cons] at hbound
      omega
    have hinner : block bound number (lineEnd number :: (tokensOfLines (number + 1) lines ++
        closing margin (number + 1 + lines.length) ::
          (lineEnd (number + 1 + lines.length) :: rest))) =
        .ok (body, lineEnd (number + 1 + lines.length) :: rest) := by
      rw [block_lineEnd]
      exact hbody.reads _ bound number _ _ hlength rfl
    refine ⟨{ gap := margin, lexeme := .word word, line := number }, _, ?_,
      statement_eq_ok_iff.2 ⟨word, _, rfl, hreads hinner helse, rfl⟩⟩
    simp

/-- Lines between two blocks: they close the first one, and open the second one as the `else` block
of a conditional. -/
structure IsElse (margin : List Char) (between : List (List Piece)) : Prop where
  ne_nil : ∀ line ∈ between, line ≠ []
  splits : ∀ number, ∃ skipped line,
    tokensOfLines number between =
        closing margin number :: (skipped ++ [opening line, lineEnd line]) ∧
      (∀ t ∈ skipped, t.lexeme.isBrace = false) ∧
      ∀ rest, elseBlock? (skipped ++ opening line :: rest) = some (line, rest)

theorem isElse_below (margin : List Char) :
    IsElse margin [[⟨margin, .symbol .closeBrace⟩],
      [⟨margin, .word "else".toList⟩, ⟨[' '], .symbol .openBrace⟩]] where
  ne_nil := by simp
  splits := by
    intro number
    refine ⟨[lineEnd number, ⟨⟨margin, .word "else".toList⟩, number + 1⟩], number + 1, rfl, ?_,
      fun rest => rfl⟩
    simp [lineEnd, Lexeme.isBrace]

theorem isElse_beside (margin : List Char) :
    IsElse margin [[⟨margin, .symbol .closeBrace⟩, ⟨[' '], .word "else".toList⟩,
      ⟨[' '], .symbol .openBrace⟩]] where
  ne_nil := by simp
  splits := by
    intro number
    refine ⟨[⟨⟨[' '], .word "else".toList⟩, number⟩], number, rfl, ?_, fun rest => rfl⟩
    simp [Lexeme.isBrace]

/-- A conditional with both blocks. -/
theorem IsReading.of_ifElse {margin : List Char} {line : List Piece}
    (hbraces : ∀ p ∈ line, p.lexeme.isBrace = false)
    {lines between others : List (List Piece)} {condition : String}
    {body otherwise : List Statement}
    (hbody : IsBlock lines body) (hotherwise : IsBlock others otherwise)
    (hcondition : ∀ number rest, condition? (onLine number line ++ rest) = some (condition, rest))
    (hbetween : IsElse margin between) :
    IsReading ((⟨margin, .word Keyword.conditional.spelling.toList⟩ ::
        (line ++ [⟨[' '], .symbol .openBrace⟩])) ::
      (lines ++ between ++ others ++ [[⟨margin, .symbol .closeBrace⟩]]))
      (.ifElse condition body otherwise) where
  ne_nil := by
    refine List.forall_mem_cons.2 ⟨by simp, ?_⟩
    simp only [List.forall_mem_append]
    exact ⟨⟨⟨hbody.ne_nil, hbetween.ne_nil⟩, hotherwise.ne_nil⟩, by simp⟩
  paired := by
    intro number
    obtain ⟨skipped, elseLine, hsplit, hskipped, -⟩ :=
      hbetween.splits (number + 1 + lines.length)
    -- each block pairs its own braces: the one that closes the first stands before the `else`
    have hfirst := (bracesPaired_word hbraces margin Keyword.conditional.spelling.toList
      number).append (bracesPaired_braced hbody.paired number (number + 1)
        (number + 1 + lines.length) margin)
    have hsecond := (BracesPaired.of_not_isBrace hskipped).append
      (bracesPaired_braced hotherwise.paired elseLine (number + 1 + (lines ++ between).length)
        (number + 1 + (lines ++ between ++ others).length) margin)
    have hall := (hfirst.append hsecond).append
      (bracesPaired_lineEnd (number + 1 + (lines ++ between ++ others).length))
    rw [tokensOfLines_block, tokensOfLines_append, tokensOfLines_append, hsplit]
    simpa [opening] using hall
  elseless := by
    intro number rest
    simp only [tokensOfLines, onLine_cons, List.cons_append]
    exact elseBlock?_of_ne rfl (.inl (by simp [Keyword.spelling]))
  reads := by
    intro number bound rest hbound helse
    rw [tokensOfLines_block] at hbound ⊢
    obtain ⟨skipped, elseLine, hsplit, -, helseBlock⟩ :=
      hbetween.splits (number + 1 + lines.length)
    rw [tokensOfLines_append, tokensOfLines_append, hsplit] at hbound ⊢
    have hlength : (tokensOfLines (number + 1) lines).length < bound ∧
        (tokensOfLines (number + 1 + (lines ++ between).length) others).length < bound := by
      simp only [List.length_append, List.length_cons] at hbound ⊢
      omega
    -- from here on the numbers of the lines no longer matter
    generalize number + 1 + (lines ++ between).length = next at hlength ⊢
    generalize number + 1 + (lines ++ between ++ others).length = last
    have hsecond : block bound elseLine (lineEnd elseLine :: (tokensOfLines next others ++
        closing margin last :: lineEnd last :: rest)) = .ok (otherwise, lineEnd last :: rest) := by
      rw [block_lineEnd]
      exact hotherwise.reads _ bound elseLine _ _ hlength.2 rfl
    have hfirst : ∀ after, braced (block bound) .conditional number (opening number ::
        lineEnd number :: (tokensOfLines (number + 1) lines ++
          closing margin (number + 1 + lines.length) :: after)) = .ok (body, after) := by
      intro after
      rw [braced_opening, block_lineEnd]
      exact hbody.reads _ bound number _ _ hlength.1 rfl
    refine ⟨⟨⟨margin, .word Keyword.conditional.spelling.toList⟩, number⟩, _, ?_,
      statement_eq_ok_iff.2 ⟨_, _, rfl, .ifElse (Keyword.ofWord?_spelling .conditional)
        (hcondition number _) (hfirst _) (helseBlock _) hsecond, rfl⟩⟩
    simp [opening]

end Parser

end Playbook
