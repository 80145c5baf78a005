import Mathlib.Data.List.TakeWhile
import Playbook.Proofs.Parser.Printer

/-!
# What printed texts are read as

A printed argument, condition or right-hand side is a run of tokens.  `Yields read text a` says that
a reader of runs gets `a` from the text, on whatever line and behind whatever layout it stands.
-/

namespace Playbook

/-! ### Pieces on a line -/

@[simp] theorem onLine_append (number : Nat) (pieces others : List Piece) :
    onLine number (pieces ++ others) = onLine number pieces ++ onLine number others :=
  List.map_append

@[simp] theorem onLine_eq_nil_iff {number : Nat} {pieces : List Piece} :
    onLine number pieces = [] ↔ pieces = [] := List.map_eq_nil_iff

@[simp] theorem lexemes_onLine (number : Nat) (pieces : List Piece) :
    Token.lexemes (onLine number pieces) = pieces.map Piece.lexeme := by
  simp [Token.lexemes, onLine]

@[simp] theorem map_lexeme_pushGap (margin : List Char) (pieces : List Piece) :
    (pushGap margin pieces).map Piece.lexeme = pieces.map Piece.lexeme := by
  cases pieces <;> rfl

theorem pushGap_append {pieces : List Piece} (h : pieces ≠ []) (margin : List Char)
    (others : List Piece) :
    pushGap margin (pieces ++ others) = pushGap margin pieces ++ others := by
  cases pieces with
  | nil => exact absurd rfl h
  | cons p pieces => rfl

theorem Scans.written {text : List Char} {pieces : List Piece} (h : Scans text pieces) :
    pieces.flatMap Piece.written = text := by
  have hline := written_of_scanLine h.scanLine_eq_some
  rwa [List.append_nil] at hline

/-! ### Readers that look at lexemes only -/

section Readers

variable (number : Nat) (margin : List Char) (pieces : List Piece)

theorem literal?_onLine :
    Token.literal? (onLine number (pushGap margin pieces)) = Token.literal? (onLine 1 pieces) := by
  match pieces with
  | [] => rfl
  | [p] => rfl
  | p :: q :: rest => rfl

theorem word?_onLine :
    Token.word? (onLine number (pushGap margin pieces)) = Token.word? (onLine 1 pieces) := by
  match pieces with
  | [] => rfl
  | [p] => rfl
  | p :: q :: rest => rfl

theorem closesAtEnd_onLine (depth : Nat) :
    Token.closesAtEnd depth (onLine number pieces) = Token.closesAtEnd depth (onLine 1 pieces) := by
  induction pieces generalizing depth with
  | nil => rfl
  | cons p rest ih =>
    simp only [onLine_cons, Token.closesAtEnd, Token.is, ih]
    cases depth with
    | zero => cases rest <;> rfl
    | succ depth => rfl

theorem arrayInterior?_onLine :
    Token.arrayInterior? (onLine number (pushGap margin pieces)) =
      Token.arrayInterior? (onLine 1 pieces) := by
  cases pieces with
  | nil => rfl
  | cons p rest =>
    by_cases h : p.lexeme = .symbol .openBracket
    · simp [Token.arrayInterior?, Token.after?, Token.is, h, closesAtEnd_onLine number]
    · simp [Token.arrayInterior?, Token.after?, Token.is, h]

end Readers

/-! ### Runs -/

/-- A text that is a properly nested run of the given pieces. -/
structure IsRun (text : List Char) (pieces : List Piece) : Prop where
  scans : Scans text pieces
  ne_nil : pieces ≠ []
  nests : nests [] (pieces.map Piece.lexeme) = true

/-- A text is a run from which a reader gets the given result, wherever it stands. -/
def Yields {α : Type} (read : List Token → α) (text : List Char) (a : α) : Prop :=
  ∃ pieces, IsRun text pieces ∧
    ∀ number margin, read (onLine number (pushGap margin pieces)) = a

theorem not_isBreak_of_nests {pending : List Symbol} {run : List Token}
    (h : nests pending (Token.lexemes run) = true) : ∀ t ∈ run, t.isBreak = false := by
  have hne : ∀ l ∈ Token.lexemes run, l ≠ .lineBreak := by
    refine forall_mem_of_nests ?_ h
    rintro _ _ _ hl rfl
    cases hl
  intro t ht
  rw [Token.isBreak, beq_eq_false_iff_ne]
  exact hne t.lexeme (List.mem_map_of_mem ht)

/-- A text that is kept as written is a run, and the text of that run. -/
theorem isRun_of_runTokens? {text : List Char} {tokens : List Token}
    (h : runTokens? text = some tokens) :
    ∃ pieces, IsRun text pieces ∧ tokens = onLine 1 pieces ∧
      ∀ number margin, Token.span (onLine number (pushGap margin pieces)) = text := by
  unfold runTokens? at h
  split at h
  · rename_i first rest hscan
    split at h
    · rename_i hrun
      cases h
      rw [Bool.and_eq_true, List.isEmpty_iff] at hrun
      obtain ⟨hgap, hnests⟩ := hrun
      obtain ⟨hline, pieces, hpieces, htokens⟩ :=
        scanLine_of_scan hscan (not_isBreak_of_nests hnests)
      have hscans := scans_of_scanLine hline hpieces
      cases pieces with
      | nil => cases htokens
      | cons p pieces =>
        have hfirst : p.gap = [] := by
          rw [onLine_cons] at htokens
          cases htokens
          exact hgap
        refine ⟨p :: pieces, ⟨hscans, List.cons_ne_nil p pieces, ?_⟩, htokens, ?_⟩
        · rw [htokens, lexemes_onLine] at hnests
          exact hnests
        · intro number margin
          have hwritten := hscans.written
          rw [List.flatMap_cons, Piece.written, hfirst] at hwritten
          simpa using hwritten
    · cases h
  · cases h

theorem yields_span {text : List Char} (h : (runTokens? text).isSome = true) :
    Yields Token.span text text := by
  obtain ⟨tokens, ht⟩ := Option.isSome_iff_exists.1 h
  obtain ⟨pieces, hrun, -, hspan⟩ := isRun_of_runTokens? ht
  exact ⟨pieces, hrun, hspan⟩

theorem isRun_quote {content : List Char} (h : isQuotable content = true) :
    IsRun (quote content) [⟨[], .quoted '"' content⟩] :=
  ⟨.quoted h, List.cons_ne_nil _ _, rfl⟩

theorem yields_quote {content : List Char} (h : isQuotable content = true) :
    Yields Token.literal? (quote content) (some content) :=
  ⟨_, isRun_quote h, fun _ _ => rfl⟩

theorem isRun_word {letters : List Char} (hne : letters ≠ [])
    (h : letters.all isWordChar = true) : IsRun letters [⟨[], .word letters⟩] :=
  ⟨.word hne h, List.cons_ne_nil _ _, rfl⟩

theorem Phrase.yields_source {p : Phrase} (h : p.isPrintable = true) :
    Yields Phrase.ofTokens p.source p := by
  cases p with
  | literal text =>
    obtain ⟨pieces, hrun, hread⟩ := yields_quote h
    refine ⟨pieces, hrun, fun number margin => ?_⟩
    rw [Phrase.ofTokens, hread]
    simp
  | reference expression =>
    obtain ⟨tokens, ht, hliteral⟩ := (Option.any_eq_true _ _).1 h
    obtain ⟨pieces, hrun, rfl, hspan⟩ := isRun_of_runTokens? ht
    refine ⟨pieces, hrun, fun number margin => ?_⟩
    rw [Phrase.ofTokens, literal?_onLine, Option.isNone_iff_eq_none.1 hliteral]
    simp [hspan]

/-! ### Arguments -/

/-- Runs with a comma and a space between neighbours. -/
def commaPieces : List (List Piece) → List Piece
  | [] => []
  | [run] => run
  | run :: rest => run ++ ⟨[], .symbol .comma⟩ :: pushGap [' '] (commaPieces rest)

/-- The runs of such a list as they stand on a line, the first of them behind the given layout. -/
def argumentRuns (number : Nat) (margin : List Char) : List (List Piece) → List (List Token)
  | [] => []
  | run :: rest => onLine number (pushGap margin run) :: argumentRuns number [' '] rest

theorem isRun_of_mem {texts : List (List Char)} {runs : List (List Piece)}
    (h : List.Forall₂ IsRun texts runs) :
    ∀ run ∈ runs, run ≠ [] ∧ nests [] (run.map Piece.lexeme) = true := by
  induction h with
  | nil => simp
  | cons hrun _ ih => exact List.forall_mem_cons.2 ⟨⟨hrun.ne_nil, hrun.nests⟩, ih⟩

theorem commaPieces_ne_nil {run : List Piece} (h : run ≠ []) (rest : List (List Piece)) :
    commaPieces (run :: rest) ≠ [] := by
  cases rest with
  | nil => exact h
  | cons next rest => simp [commaPieces]

theorem scans_joinWith {texts : List (List Char)} {runs : List (List Piece)}
    (h : List.Forall₂ IsRun texts runs) :
    Scans (Text.joinWith [',', ' '] texts) (commaPieces runs) := by
  induction h with
  | nil => exact .nil
  | cons hrun hrest ih =>
    cases hrest with
    | nil => exact hrun.scans
    | @cons next nextRun texts runs hnext _ =>
      rw [Text.joinWith_cons _ _ (List.cons_ne_nil _ _), List.append_assoc]
      have hspace := ih.space (commaPieces_ne_nil hnext.ne_nil runs)
      exact hrun.scans.append (Scans.bracket (s := .comma) (by decide) hspace) (detached_cons.2 rfl)

theorem onLine_commaPieces (number : Nat) (margin : List Char) {runs : List (List Piece)}
    (h : ∀ run ∈ runs, run ≠ []) :
    onLine number (pushGap margin (commaPieces runs)) =
      Token.separate { gap := [], lexeme := .symbol .comma, line := number }
        (argumentRuns number margin runs) := by
  induction runs generalizing margin with
  | nil => rfl
  | cons run rest ih =>
    rw [List.forall_mem_cons] at h
    cases rest with
    | nil => rfl
    | cons next rest =>
      rw [commaPieces, pushGap_append h.1, onLine_append, onLine_cons, ih [' '] h.2]
      · rfl
      · simp

theorem argumentRuns_spec (number : Nat) (margin : List Char) {runs : List (List Piece)}
    (h : ∀ run ∈ runs, run ≠ [] ∧ nests [] (run.map Piece.lexeme) = true) :
    ∀ run ∈ argumentRuns number margin runs, run ≠ [] ∧ nests [] (Token.lexemes run) = true := by
  induction runs generalizing margin with
  | nil => simp [argumentRuns]
  | cons run rest ih =>
    rw [List.forall_mem_cons] at h
    refine List.forall_mem_cons.2 ⟨?_, ih [' '] h.2⟩
    simpa using h.1

/-- The pieces between the parentheses of a call, with the parentheses. -/
def callPieces (runs : List (List Piece)) : List Piece :=
  ⟨[], .symbol .openParen⟩ :: (commaPieces runs ++ [⟨[], .symbol .closeParen⟩])

theorem scans_callSource {word : List Char} {pieces : List Piece} (hw : Scans word pieces)
    {texts : List (List Char)} {runs : List (List Piece)} (h : List.Forall₂ IsRun texts runs) :
    Scans (callSource word texts) (pieces ++ callPieces runs) := by
  have hclose : Scans [')'] [⟨[], .symbol .closeParen⟩] :=
    Scans.bracket (s := .closeParen) (by decide) .nil
  have hargs := (scans_joinWith h).append hclose (detached_cons.2 rfl)
  exact hw.append (Scans.bracket (s := .openParen) (by decide) hargs) (detached_cons.2 rfl)

/-- The arguments of a printed call are read one by one. -/
theorem arguments?_callPieces {texts : List (List Char)} {runs : List (List Piece)}
    (h : List.Forall₂ IsRun texts runs) (number : Nat) (rest : List Token) :
    Token.arguments? (onLine number (callPieces runs) ++ rest) =
      some (argumentRuns number [] runs, rest) := by
  have hruns := isRun_of_mem h
  have hspec := argumentRuns_spec number [] hruns
  have hcommas := onLine_commaPieces number [] fun run hrun => (hruns run hrun).1
  rw [pushGap_nil] at hcommas
  rw [callPieces, onLine_cons, onLine_append, hcommas, List.cons_append, List.append_assoc]
  exact Token.arguments?_separate rfl rfl rfl (fun run hrun => (hspec run hrun).1)
    (fun run hrun => (hspec run hrun).2) rest

/-! ### Values -/

theorem trim_quote (content : List Char) : Text.trim (quote content) = quote content := by
  have hmark : Text.IsFirm ['"'] := Text.isFirm_singleton (by decide)
  exact (hmark.append content hmark).trim_eq

theorem unquote_quote (content : List Char) : unquote (quote content) = content := by
  have hopened : isQuote '"' = true := by decide
  simp [unquote, quote, hopened]

/-- A text joined by commas with a space after them is cut at the commas. -/
theorem splitOn_joinWith_comma {text : List Char} {rest : List (List Char)} (ht : ',' ∉ text)
    (hr : ∀ other ∈ rest, ',' ∉ other) :
    Text.splitOn ',' (Text.joinWith [',', ' '] (text :: rest)) =
      text :: rest.map (' ' :: ·) := by
  induction rest generalizing text with
  | nil => exact Text.splitOn_of_not_mem ht
  | cons next rest ih =>
    rw [List.forall_mem_cons] at hr
    have hnext : ',' ∉ ' ' :: next := by simp [hr.1]
    have hspace : ' ' :: Text.joinWith [',', ' '] (next :: rest) =
        Text.joinWith [',', ' '] ((' ' :: next) :: rest) := by
      cases rest <;> rfl
    rw [Text.joinWith_cons _ _ (List.cons_ne_nil _ _), List.append_assoc]
    show Text.splitOn ',' (text ++ ',' :: ' ' :: Text.joinWith [',', ' '] (next :: rest)) = _
    rw [Text.splitOn_append_cons ht, hspace, ih hnext hr.2]
    rfl

theorem trim_cons_ne_nil {c : Char} (h : Text.isBlank c = false) (text : List Char) :
    Text.trim (c :: text) ≠ [] := by
  intro htrim
  rw [Text.trim_eq_nil_iff.1 htrim c (List.mem_cons_self ..)] at h
  cases h

/-- The elements of a printed array are found between its commas. -/
theorem arrayItems_joinWith {items : List String} (h : ∀ item ∈ items, ',' ∉ item.toList) :
    arrayItems (Text.joinWith [',', ' '] (items.map fun item => quote item.toList)) = items := by
  have hcomma : ∀ item ∈ items, ',' ∉ quote item.toList := by
    intro item hitem
    simp [quote, h item hitem]
  -- all elements but the first keep the space after the comma until they are trimmed
  have hspace : ∀ content, Text.trim (' ' :: quote content) = quote content := trim_quote
  cases items with
  | nil => rfl
  | cons item rest =>
    rw [List.forall_mem_cons] at hcomma
    have hfull : (Text.trim (Text.joinWith [',', ' ']
        ((item :: rest).map fun item => quote item.toList))).isEmpty = false := by
      rw [List.isEmpty_eq_false_iff]
      cases rest with
      | nil => exact trim_cons_ne_nil (by decide) _
      | cons next rest => exact trim_cons_ne_nil (by decide) _
    rw [arrayItems, hfull, List.map_cons,
      splitOn_joinWith_comma hcomma.1 (List.forall_mem_map.2 hcomma.2)]
    simp [trim_quote, hspace, unquote_quote, Function.comp_def]

theorem nests_append_of_isInert {pending : List Symbol} (hne : pending ≠ [])
    {lexemes : List Lexeme} (h : ∀ l ∈ lexemes, l.isInert = true) (rest : List Lexeme) :
    nests pending (lexemes ++ rest) = nests pending rest := by
  induction lexemes with
  | nil => rfl
  | cons l lexemes ih =>
    rw [List.forall_mem_cons] at h
    rw [List.cons_append, nests, enclose?_of_isInert hne h.1]
    exact ih h.2

theorem closesAtEnd_of_isInert {run : List Token} (h : ∀ t ∈ run, t.lexeme.isInert = true)
    {last : Token} (hlast : last.is .closeBracket = true) :
    Token.closesAtEnd 0 (run ++ [last]) = true := by
  induction run with
  | nil =>
    have hlexeme : last.lexeme = .symbol .closeBracket := beq_iff_eq.1 hlast
    simp [Token.closesAtEnd, Token.is, hlexeme]
  | cons t run ih =>
    rw [List.forall_mem_cons] at h
    have hopen : t.is .openBracket = false := by
      rw [Token.is, beq_eq_false_iff_ne]
      intro ht
      simp [ht, Lexeme.isInert] at h
    have hclose : t.is .closeBracket = false := by
      rw [Token.is, beq_eq_false_iff_ne]
      intro ht
      simp [ht, Lexeme.isInert] at h
    simp [Token.closesAtEnd, hopen, hclose, ih h.2]

theorem forall_mem_commaPieces {P : Lexeme → Prop} (hcomma : P (.symbol .comma))
    {runs : List (List Piece)} (h : ∀ run ∈ runs, ∀ p ∈ run, P p.lexeme) :
    ∀ l ∈ (commaPieces runs).map Piece.lexeme, P l := by
  induction runs with
  | nil => simp [commaPieces]
  | cons run rest ih =>
    rw [List.forall_mem_cons] at h
    cases rest with
    | nil => exact List.forall_mem_map.2 h.1
    | cons next rest =>
      simp only [commaPieces, List.map_append, List.map_cons, map_lexeme_pushGap]
      refine List.forall_mem_append.2 ⟨List.forall_mem_map.2 h.1, ?_⟩
      exact List.forall_mem_cons.2 ⟨hcomma, ih h.2⟩

/-- The pieces of an array with the given elements. -/
def arrayPieces (items : List String) : List Piece :=
  ⟨[], .symbol .openBracket⟩ ::
    (commaPieces (items.map fun item => [⟨[], .quoted '"' item.toList⟩]) ++
      [⟨[], .symbol .closeBracket⟩])

theorem Value.yields_array {items : List String}
    (h : ∀ item ∈ items, isQuotable item.toList = true ∧ ',' ∉ item.toList) :
    Yields Value.ofTokens (Value.array items).source (.array items) := by
  have hruns : List.Forall₂ IsRun (items.map fun item => quote item.toList)
      (items.map fun item => [⟨[], .quoted '"' item.toList⟩]) := by
    rw [List.forall₂_map_left_iff, List.forall₂_map_right_iff, List.forall₂_same]
    exact fun item hitem => isRun_quote (h item hitem).1
  have hinert : ∀ l ∈ (commaPieces (items.map fun item => [⟨[], .quoted '"' item.toList⟩])).map
      Piece.lexeme, l.isInert = true := by
    refine forall_mem_commaPieces (P := fun l => l.isInert = true) rfl
      (List.forall_mem_map.2 fun item _ => ?_)
    simp [Lexeme.isInert]
  have hscans := scans_joinWith hruns
  refine ⟨arrayPieces items, ⟨?_, List.cons_ne_nil _ _, ?_⟩, fun number margin => ?_⟩
  · have hclose : Scans [']'] [⟨[], .symbol .closeBracket⟩] :=
      Scans.bracket (s := .closeBracket) (by decide) .nil
    exact Scans.bracket (s := .openBracket) (by decide)
      (hscans.append hclose (detached_cons.2 rfl))
  · rw [arrayPieces, List.map_cons, List.map_append]
    show nests [.closeBracket] _ = true
    rw [nests_append_of_isInert (List.cons_ne_nil _ _) hinert]
    rfl
  · have hclosed : Token.closesAtEnd 0 (onLine number
        (commaPieces (items.map fun item => [⟨[], .quoted '"' item.toList⟩])) ++
          onLine number [⟨[], .symbol .closeBracket⟩]) = true := by
      refine closesAtEnd_of_isInert (fun t ht => hinert t.lexeme ?_) rfl
      rw [← lexemes_onLine number]
      exact List.mem_map_of_mem ht
    have hinterior : Token.arrayInterior? (onLine number (pushGap margin (arrayPieces items))) =
        some (Text.joinWith [',', ' '] (items.map fun item => quote item.toList)) := by
      rw [arrayPieces, pushGap_cons, onLine_cons, onLine_append]
      simpa [Token.arrayInterior?, Token.after?, Token.is, hscans.written, Lexeme.text,
        Symbol.char] using hclosed
    -- with two pieces at least, an array is neither a string nor a word
    have hrest : commaPieces (items.map fun item => [⟨[], .quoted '"' item.toList⟩]) ++
        [⟨[], .symbol .closeBracket⟩] ≠ [] := by simp
    have hliteral : Token.literal? (onLine number (pushGap margin (arrayPieces items))) = none := by
      obtain ⟨p, rest, hp⟩ := List.exists_cons_of_ne_nil hrest
      rw [arrayPieces, hp]
      rfl
    have hword : Token.word? (onLine number (pushGap margin (arrayPieces items))) = none := by
      obtain ⟨p, rest, hp⟩ := List.exists_cons_of_ne_nil hrest
      rw [arrayPieces, hp]
      rfl
    rw [Value.ofTokens, hliteral, hword, hinterior]
    exact congrArg Value.array (arrayItems_joinWith fun item hitem => (h item hitem).2)

theorem Value.yields_source {v : Value} (h : v.isPrintable = true) :
    Yields Value.ofTokens v.source v := by
  cases v with
  | str text =>
    obtain ⟨pieces, hrun, hread⟩ := yields_quote h
    refine ⟨pieces, hrun, fun number margin => ?_⟩
    rw [Value.ofTokens, hread]
    simp
  | bool b =>
    have hword : IsRun (Value.bool b).source [⟨[], .word (Value.bool b).source⟩] := by
      cases b <;> exact isRun_word (by decide) (by decide)
    refine ⟨_, hword, fun number margin => ?_⟩
    cases b <;> rfl
  | array items =>
    refine Value.yields_array fun item hitem => ?_
    simpa using List.all_eq_true.1 h item hitem
  | expr expression =>
    obtain ⟨tokens, ht, hother⟩ := (Option.any_eq_true _ _).1 h
    obtain ⟨pieces, hrun, rfl, hspan⟩ := isRun_of_runTokens? ht
    simp only [Bool.and_eq_true, Option.isNone_iff_eq_none] at hother
    obtain ⟨⟨hliteral, htruth⟩, harray⟩ := hother
    refine ⟨pieces, hrun, fun number margin => ?_⟩
    rw [Value.ofTokens, literal?_onLine, word?_onLine, arrayInterior?_onLine, hliteral, htruth,
      harray]
    simp [hspan]

theorem Agent.yields_keyword (a : Agent) :
    Yields Parser.agent? a.keyword.toList (some a) := by
  have hword : IsRun a.keyword.toList [⟨[], .word a.keyword.toList⟩] := by
    cases a <;> exact isRun_word (by decide) (by decide)
  refine ⟨_, hword, fun number margin => ?_⟩
  cases a <;> rfl

end Playbook
