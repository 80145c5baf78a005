import Playbook.Proofs.Outcome
import Playbook.Proofs.Text
import Playbook.Token.Lexer

/-!
# Scanning pieces one after the other

`Scans text pieces` says that a text is cut into the given pieces wherever it is followed by
something that cannot continue its last lexeme: a blank, a bracket, a comma or the end of the line.
Words, strings and signs scan as themselves, and texts that scan can be put together, so that the
pieces of a composed line are found without running the scanner.
-/

namespace Playbook

/-! ### Characters between lexemes -/

theorem not_isWordChar_of_isBlank {c : Char} (h : Text.isBlank c = true) :
    isWordChar c = false := by
  simp only [Text.isBlank, Text.blankRanges, List.any_cons, List.any_nil, Bool.or_false,
    Bool.or_eq_true, Bool.and_eq_true, decide_eq_true_eq] at h
  rw [Bool.eq_false_iff]
  intro hw
  rcases Bool.or_eq_true_iff.1 hw with hw | hw
  · change ((decide (65 ≤ c.toNat ∧ c.toNat ≤ 90) ||
      (decide (97 ≤ c.toNat) && decide (c.toNat ≤ 122))) ||
        (decide (48 ≤ c.toNat) && decide (c.toNat ≤ 57))) = true at hw
    simp only [Bool.or_eq_true, Bool.and_eq_true, decide_eq_true_eq] at hw
    omega
  · obtain rfl := beq_iff_eq.1 hw
    revert h
    decide

/-- Whether a character ends any lexeme before it. -/
def isDetached (c : Char) : Bool := Text.isBlank c || (Symbol.ofChar? c).isSome

theorem not_isWordChar_of_isDetached {c : Char} (h : isDetached c = true) :
    isWordChar c = false := by
  rcases Bool.or_eq_true_iff.1 h with h | h
  · exact not_isWordChar_of_isBlank h
  · unfold Symbol.ofChar? at h
    split at h <;> first | decide | cases h

theorem ne_of_isDetached {c d : Char} (h : isDetached c = true) (hd : isDetached d = false) :
    c ≠ d := by
  rintro rfl
  rw [h] at hd
  cases hd

/-- A text that cannot continue a lexeme. -/
def Detached (rest : List Char) : Prop := ∀ c ∈ rest.head?, isDetached c = true

@[simp] theorem detached_nil : Detached [] := by
  simp [Detached]

@[simp] theorem detached_cons {c : Char} {rest : List Char} :
    Detached (c :: rest) ↔ isDetached c = true := by
  simp [Detached]

theorem Detached.append {text rest : List Char} (ht : Detached text) (hr : Detached rest) :
    Detached (text ++ rest) := by
  cases text with
  | nil => exact hr
  | cons c text => exact ht

/-- Whether a character does not go on with a lexeme before it. -/
def isParted (c : Char) : Bool := isDetached c || isQuote c

theorem isParted_of_isDetached {c : Char} (h : isDetached c = true) : isParted c = true := by
  rw [isParted, h]
  rfl

theorem not_isWordChar_of_isQuote {c : Char} (h : isQuote c = true) : isWordChar c = false := by
  rcases Bool.or_eq_true_iff.1 h with h | h
  · rw [beq_iff_eq.1 h]
    decide
  · rw [beq_iff_eq.1 h]
    decide

theorem not_isWordChar_of_isParted {c : Char} (h : isParted c = true) : isWordChar c = false := by
  rcases Bool.or_eq_true_iff.1 h with h | h
  · exact not_isWordChar_of_isDetached h
  · exact not_isWordChar_of_isQuote h

theorem ne_of_isParted {c d : Char} (h : isParted c = true) (hd : isParted d = false) : c ≠ d := by
  rintro rfl
  rw [h] at hd
  cases hd

theorem not_pairsUp_of_isParted {c d : Char} (h : isParted d = true) : pairsUp c d = false := by
  have hne : ∀ e, isParted e = false → d ≠ e := fun e => ne_of_isParted h
  simp [pairsUp, hne '=' (by decide), hne '&' (by decide), hne '|' (by decide)]

/-! ### One lexeme at a time -/

/-- Pieces with further layout in front of the first one. -/
def pushGap (layout : List Char) : List Piece → List Piece
  | [] => []
  | p :: rest => ⟨layout ++ p.gap, p.lexeme⟩ :: rest

@[simp] theorem pushGap_nil (pieces : List Piece) : pushGap [] pieces = pieces := by
  cases pieces <;> rfl

@[simp] theorem pushGap_cons (layout : List Char) (p : Piece) (rest : List Piece) :
    pushGap layout (p :: rest) = ⟨layout ++ p.gap, p.lexeme⟩ :: rest := rfl

@[simp] theorem pushGap_eq_nil_iff {layout : List Char} {pieces : List Piece} :
    pushGap layout pieces = [] ↔ pieces = [] := by
  cases pieces <;> simp [pushGap]

/-- Puts layout in front of a scanned line. -/
def carryGap (layout : List Char) : List Piece × List Char → List Piece × List Char
  | ([], trailing) => ([], layout ++ trailing)
  | (p :: rest, trailing) => (pushGap layout (p :: rest), trailing)

theorem scanLine_nil : scanLine [] = some ([], []) := by
  rw [scanLine]
  rfl

/-- A line is scanned one lexeme at a time. -/
theorem scanLine_eq (line : List Char) :
    scanLine line =
      match line.dropWhile Text.isBlank with
      | [] => some ([], line.takeWhile Text.isBlank)
      | c :: rest =>
        if startsComment c rest then some ([], line.takeWhile Text.isBlank ++ c :: rest)
        else (readLexeme c rest).bind fun (lexeme, after) =>
          (scanLine after).map fun (pieces, trailing) =>
            (⟨line.takeWhile Text.isBlank, lexeme⟩ :: pieces, trailing) := by
  rw [scanLine]
  split
  · rename_i h
    rw [h]
  · rename_i c rest h
    rw [h]
    dsimp only
    split
    · rfl
    · split
      · rename_i hl
        rw [hl]
        rfl
      · rename_i hl
        rw [hl]
        rfl

theorem scanLine_of_isBlank {c : Char} (h : Text.isBlank c = true) (line : List Char) :
    scanLine (c :: line) = (scanLine line).map (carryGap [c]) := by
  rw [scanLine_eq, scanLine_eq line, List.dropWhile_cons_of_pos h, List.takeWhile_cons_of_pos h]
  split
  · rfl
  · split
    · rfl
    · rw [Option.map_bind]
      congr
      funext result
      obtain ⟨lexeme, after⟩ := result
      simp [Function.comp_def, carryGap]

theorem scanLine_of_not_isBlank {c : Char} (h : Text.isBlank c = false) {rest : List Char}
    (hc : startsComment c rest = false) :
    scanLine (c :: rest) = (readLexeme c rest).bind fun (lexeme, after) =>
      (scanLine after).map fun (pieces, trailing) => (⟨[], lexeme⟩ :: pieces, trailing) := by
  have hpos : ¬ Text.isBlank c = true := by simp [h]
  rw [scanLine_eq, List.dropWhile_cons_of_neg hpos, List.takeWhile_cons_of_neg hpos]
  simp [hc]

theorem takeWhile_of_head {rest : List Char} (h : ∀ c ∈ rest.head?, isWordChar c = false) :
    rest.takeWhile isWordChar = [] := by
  cases rest with
  | nil => rfl
  | cons c rest => exact List.takeWhile_cons_of_neg (by simp [h c rfl])

theorem dropWhile_of_head {rest : List Char} (h : ∀ c ∈ rest.head?, isWordChar c = false) :
    rest.dropWhile isWordChar = rest := by
  cases rest with
  | nil => rfl
  | cons c rest => exact List.dropWhile_cons_of_neg (by simp [h c rfl])

theorem not_isWordChar_of_head?_dropWhile (text : List Char) :
    ∀ c ∈ (text.dropWhile isWordChar).head?, isWordChar c = false := by
  intro c hc
  have hnot := List.head?_dropWhile_not isWordChar text
  rwa [Option.mem_def.1 hc] at hnot

theorem readLexeme_of_isWordChar {c : Char} (h : isWordChar c = true) (rest : List Char) :
    readLexeme c rest =
      some (.word (c :: rest.takeWhile isWordChar), rest.dropWhile isWordChar) := by
  have hsymbol : Symbol.ofChar? c = none := by
    unfold Symbol.ofChar?
    split <;> first | rfl | exact absurd h (by decide)
  have hquote : isQuote c = false := by
    rw [Bool.eq_false_iff]
    intro hq
    rcases Bool.or_eq_true_iff.1 hq with hq | hq
    · rw [beq_iff_eq.1 hq] at h
      exact absurd h (by decide)
    · rw [beq_iff_eq.1 hq] at h
      exact absurd h (by decide)
  simp [readLexeme, hsymbol, hquote, h]

/-- A sign before something that does not pair up with it stands alone. -/
theorem readSign_alone {c : Char} {rest : List Char} (h : ∀ d ∈ rest.head?, pairsUp c d = false) :
    readSign c rest = (if c = '=' then .symbol .assign else .operator [c], rest) := by
  cases rest with
  | nil => rfl
  | cons second rest =>
    rw [readSign, h second rfl]
    rfl

/-- Whether a text can stand between double quotation marks on a line: the marks in it are kept
from closing the string, and no backslash is left over at its end. -/
def isQuotable : List Char → Bool
  | [] => true
  | '\\' :: c :: rest => c != '\n' && isQuotable rest
  | c :: rest => c != '\\' && c != '"' && c != '\n' && isQuotable rest

theorem readQuoted_of_isQuotable {content : List Char} (h : isQuotable content = true)
    (rest : List Char) : readQuoted '"' (content ++ '"' :: rest) = some (content, rest) := by
  fun_induction isQuotable content with
  | case1 => rfl
  | case2 c text ih =>
    rw [Bool.and_eq_true] at h
    rw [List.cons_append, List.cons_append, readQuoted, ih h.2]
    rfl
  | case3 c text hescape ih =>
    simp only [Bool.and_eq_true, bne_iff_ne] at h
    obtain ⟨⟨⟨hslash, hmark⟩, -⟩, htext⟩ := h
    rw [List.cons_append, readQuoted, if_neg hmark, ih htext]
    · rfl
    · intro _ _ hc _
      exact hslash hc

theorem oneLine_of_isQuotable {content : List Char} (h : isQuotable content = true) :
    '\n' ∉ content := by
  fun_induction isQuotable content with
  | case1 => simp
  | case2 c text ih =>
    simp only [Bool.and_eq_true, bne_iff_ne] at h
    simp [Ne.symm h.1, ih h.2]
  | case3 c text _ ih =>
    simp only [Bool.and_eq_true, bne_iff_ne] at h
    simp [Ne.symm h.1.2, ih h.2]

/-! ### Texts that scan -/

/-- A text of a single line is cut into the given pieces, and nothing that may follow it there
changes them. -/
structure Scans (text : List Char) (pieces : List Piece) : Prop where
  oneLine : '\n' ∉ text
  scan_append : ∀ rest, Detached rest →
    scanLine (text ++ rest) =
      (scanLine rest).map fun (more, trailing) => (pieces ++ more, trailing)

namespace Scans

variable {text more : List Char} {pieces others : List Piece}

theorem scanLine_eq_some (h : Scans text pieces) : scanLine text = some (pieces, []) := by
  have hline := h.scan_append [] detached_nil
  rw [List.append_nil, scanLine_nil] at hline
  simpa using hline

theorem nil : Scans [] [] where
  oneLine := by simp
  scan_append := by
    intro rest _
    simp

theorem append (ht : Scans text pieces) (hm : Scans more others) (h : Detached more) :
    Scans (text ++ more) (pieces ++ others) where
  oneLine := by simp [ht.oneLine, hm.oneLine]
  scan_append := by
    intro rest hrest
    rw [List.append_assoc, ht.scan_append _ (h.append hrest), hm.scan_append rest hrest,
      Option.map_map]
    simp [Function.comp_def]

/-- A piece without layout in front of it, from what the scanner reads first. -/
theorem of_readLexeme {c : Char} {lexeme : Lexeme} (hb : Text.isBlank c = false) (hc : c ≠ '/')
    (hline : '\n' ∉ text)
    (hl : ∀ rest, Detached rest → readLexeme c (text ++ rest) = some (lexeme, more ++ rest))
    (hm : Scans more others) : Scans (c :: text) (⟨[], lexeme⟩ :: others) where
  oneLine := by
    have hne : '\n' ≠ c := by
      rintro rfl
      cases hb
    simp [hne, hline]
  scan_append := by
    intro rest hrest
    have hcomment : startsComment c (text ++ rest) = false := by simp [startsComment, hc]
    rw [List.cons_append, scanLine_of_not_isBlank hb hcomment, hl rest hrest, Option.bind_some]
    dsimp only
    rw [hm.scan_append rest hrest, Option.map_map]
    rfl

theorem bracket {s : Symbol} (hs : s ≠ .assign) (hm : Scans more others) :
    Scans (s.char :: more) (⟨[], .symbol s⟩ :: others) := by
  have hchar : Symbol.ofChar? s.char = some s := by
    cases s <;> first | rfl | exact absurd rfl hs
  refine of_readLexeme ?_ ?_ hm.oneLine (fun rest _ => ?_) hm
  · cases s <;> decide
  · cases s <;> decide
  · rw [readLexeme, hchar]

theorem assign (hm : Scans more others) (h : Detached more) :
    Scans ('=' :: more) (⟨[], .symbol .assign⟩ :: others) := by
  refine of_readLexeme (by decide) (by decide) hm.oneLine (fun rest hrest => ?_) hm
  refine congrArg some (readSign_alone fun d hd => ?_)
  exact not_pairsUp_of_isParted (isParted_of_isDetached (h.append hrest d hd))

/-- Blanks in front of a text go to its first piece. -/
theorem blanks {margin : List Char} (hb : ∀ c ∈ margin, Text.isBlank c = true)
    (hline : '\n' ∉ margin) (hne : pieces ≠ []) (ht : Scans text pieces) :
    Scans (margin ++ text) (pushGap margin pieces) where
  oneLine := by simp [hline, ht.oneLine]
  scan_append := by
    obtain ⟨p, ps, rfl⟩ := List.exists_cons_of_ne_nil hne
    -- `hline` would stand in the way of the induction
    clear hline
    induction margin with
    | nil => exact ht.scan_append
    | cons c margin ih =>
      rw [List.forall_mem_cons] at hb
      intro rest hrest
      rw [List.cons_append, List.cons_append, scanLine_of_isBlank hb.1, ih hb.2 rest hrest,
        Option.map_map]
      rfl

/-- A single space in front of a text. -/
theorem space (hne : pieces ≠ []) (ht : Scans text pieces) :
    Scans (' ' :: text) (pushGap [' '] pieces) := by
  have hblank : ∀ c ∈ [' '], Text.isBlank c = true := List.forall_mem_singleton.2 (by decide)
  exact ht.blanks hblank (by decide) hne

theorem word {letters : List Char} (hne : letters ≠ [])
    (h : letters.all isWordChar = true) : Scans letters [⟨[], .word letters⟩] := by
  obtain ⟨c, cs, rfl⟩ := List.exists_cons_of_ne_nil hne
  rw [List.all_eq_true, List.forall_mem_cons] at h
  refine of_readLexeme ?_ ?_ ?_ (fun rest hrest => ?_) nil
  · rw [Bool.eq_false_iff]
    intro hb
    simp [not_isWordChar_of_isBlank hb] at h
  · rintro rfl
    exact absurd h.1 (by decide)
  · intro hline
    exact absurd (h.2 '\n' hline) (by decide)
  · rw [readLexeme_of_isWordChar h.1]
    have hhead : ∀ d ∈ rest.head?, isWordChar d = false :=
      fun d hd => not_isWordChar_of_isDetached (hrest d hd)
    have htake : (cs ++ rest).takeWhile isWordChar = cs := by
      rw [List.takeWhile_append_of_pos h.2, takeWhile_of_head hhead, List.append_nil]
    have hdrop : (cs ++ rest).dropWhile isWordChar = rest := by
      rw [List.dropWhile_append_of_pos h.2, dropWhile_of_head hhead]
    rw [htake, hdrop]
    rfl

/-- A text between quotation marks is one string. -/
theorem quoted {content : List Char} (h : isQuotable content = true) :
    Scans ('"' :: (content ++ ['"'])) [⟨[], .quoted '"' content⟩] := by
  have hline : '\n' ∉ content ++ ['"'] := by simp [oneLine_of_isQuotable h]
  refine of_readLexeme (by decide) (by decide) hline (fun rest _ => ?_) nil
  have hread : readQuoted '"' (content ++ ['"'] ++ rest) = some (content, rest) := by
    rw [List.append_assoc]
    exact readQuoted_of_isQuotable h rest
  show (readQuoted '"' _).map _ = _
  rw [hread]
  rfl

end Scans

/-! ### What stands behind a lexeme -/

theorem text_of_readQuoted {mark : Char} {text content after : List Char}
    (h : readQuoted mark text = some (content, after)) : content ++ mark :: after = text := by
  fun_induction readQuoted mark text generalizing content after with
  | case1 => cases h
  | case2 c text ih =>
    obtain ⟨⟨content', after'⟩, hread, he⟩ := Option.map_eq_some_iff.1 h
    cases he
    rw [← ih hread]
    rfl
  | case3 text =>
    cases h
    rfl
  | case4 c text _ _ ih =>
    obtain ⟨⟨content', after'⟩, hread, he⟩ := Option.map_eq_some_iff.1 h
    cases he
    rw [← ih hread]
    rfl

theorem text_of_readLexeme {c : Char} {text after : List Char} {lexeme : Lexeme}
    (h : readLexeme c text = some (lexeme, after)) : lexeme.text ++ after = c :: text := by
  unfold readLexeme at h
  split at h
  · rename_i s hs
    cases h
    unfold Symbol.ofChar? at hs
    split at hs <;> cases hs <;> rfl
  · split at h
    · obtain ⟨⟨content, after'⟩, hread, he⟩ := Option.map_eq_some_iff.1 h
      cases he
      simp [Lexeme.text, text_of_readQuoted hread]
    · split at h
      · cases h
        simp [Lexeme.text, List.takeWhile_append_dropWhile]
      · obtain h := Option.some.inj h
        cases text with
        | nil =>
          rw [readSign] at h
          split at h
          · rename_i hc
            cases h
            rw [hc]
            rfl
          · cases h
            rfl
        | cons second text =>
          rw [readSign] at h
          split at h
          · cases h
            rfl
          · split at h
            · rename_i hc
              cases h
              rw [hc]
              rfl
            · cases h
              rfl

theorem readLexeme_text {c : Char} {text after : List Char} {lexeme : Lexeme}
    (h : readLexeme c text = some (lexeme, after)) :
    lexeme.text = c :: lexeme.text.tail ∧ text = lexeme.text.tail ++ after := by
  have htext := text_of_readLexeme h
  cases hl : lexeme.text with
  | nil =>
    have hlength := length_readLexeme_le h
    rw [hl, List.nil_append] at htext
    rw [htext, List.length_cons] at hlength
    omega
  | cons d letters =>
    rw [hl] at htext
    cases htext
    exact ⟨rfl, rfl⟩

/-- Behind a lexeme a text may be replaced by one that starts with the same character, and by one
that does not go on with the lexeme. -/
def Replaces (after' after : List Char) : Prop :=
  after'.head? = after.head? ∨ ∀ c ∈ after'.head?, isParted c = true

theorem Replaces.forall_head {P : Char → Prop} {after after' : List Char}
    (h : Replaces after' after) (hafter : ∀ c ∈ after.head?, P c)
    (hparted : ∀ c, isParted c = true → P c) : ∀ c ∈ after'.head?, P c := by
  rcases h with h | h
  · rwa [h]
  · exact fun c hc => hparted c (h c hc)

/-- More may stand behind a text if it does not go on with what is in front of it. -/
theorem replaces_append (after : List Char) {rest : List Char}
    (h : ∀ c ∈ rest.head?, isParted c = true) : Replaces (after ++ rest) after := by
  cases after with
  | nil => exact .inr h
  | cons c after => exact .inl rfl

/-- Less may stand behind a lexeme. -/
theorem replaces_of_append (front rest : List Char) : Replaces front (front ++ rest) := by
  cases front with
  | nil => exact .inr (by simp)
  | cons c front => exact .inl rfl

theorem Detached.replaces_append {rest : List Char} (h : Detached rest) (after : List Char) :
    Replaces (after ++ rest) after :=
  Playbook.replaces_append after fun c hc => isParted_of_isDetached (h c hc)

theorem readQuoted_replace {mark : Char} (hm : mark ≠ '\\') {text content after : List Char}
    (h : readQuoted mark text = some (content, after)) (after' : List Char) :
    readQuoted mark (content ++ mark :: after') = some (content, after') := by
  fun_induction readQuoted mark text generalizing content after with
  | case1 => cases h
  | case2 c text ih =>
    obtain ⟨⟨content', after'⟩, hread, he⟩ := Option.map_eq_some_iff.1 h
    cases he
    rw [List.cons_append, List.cons_append, readQuoted, ih hread]
    rfl
  | case3 text =>
    cases h
    rw [List.nil_append, readQuoted, if_pos rfl]
    intro _ _ hc _
    exact hm hc
  | case4 c text hescape hmark ih =>
    obtain ⟨⟨content', after'⟩, hread, he⟩ := Option.map_eq_some_iff.1 h
    cases he
    rw [List.cons_append, readQuoted, if_neg hmark, ih hread]
    · rfl
    · -- a backslash that escapes nothing would be the end of a string that is not closed
      rintro d more rfl -
      cases text with
      | nil => cases hread
      | cons d' text => exact hescape d' text rfl rfl

theorem readSign_replace {c : Char} {text after after' : List Char} {lexeme : Lexeme}
    (h : readSign c text = (lexeme, after)) (hr : Replaces after' after) :
    readSign c (lexeme.text.tail ++ after') = (lexeme, after') := by
  have halone (hhead : ∀ d ∈ after.head?, pairsUp c d = false) :
      readSign c ((if c = '=' then Lexeme.symbol .assign else .operator [c]).text.tail ++ after') =
        (if c = '=' then .symbol .assign else .operator [c], after') := by
    rw [← readSign_alone (hr.forall_head hhead fun _ => not_pairsUp_of_isParted)]
    split <;> rfl
  cases text with
  | nil =>
    cases h
    exact halone (by simp)
  | cons second rest =>
    rw [readSign] at h
    split at h
    · rename_i hpair
      cases h
      exact if_pos hpair
    · rename_i hpair
      cases h
      exact halone (by simpa using hpair)

/-- What a lexeme is read as depends on the text behind it only through the next character, and only
if that goes on with it. -/
theorem readLexeme_replace {c : Char} {text after after' : List Char} {lexeme : Lexeme}
    (h : readLexeme c text = some (lexeme, after)) (hr : Replaces after' after) :
    readLexeme c (lexeme.text.tail ++ after') = some (lexeme, after') := by
  unfold readLexeme at h ⊢
  split at h
  · cases h
    rfl
  · split at h
    · rename_i hquote
      obtain ⟨⟨content, rest⟩, hread, he⟩ := Option.map_eq_some_iff.1 h
      cases he
      have hmark : c ≠ '\\' := by
        rintro rfl
        exact absurd hquote (by decide)
      have htail : (Lexeme.quoted c content).text.tail ++ after' = content ++ c :: after' := by
        simp [Lexeme.text]
      rw [if_pos hquote, htail, readQuoted_replace hmark hread]
      rfl
    · rename_i hquote
      rw [if_neg hquote]
      split at h
      · rename_i hword
        cases h
        have hhead := hr.forall_head (not_isWordChar_of_head?_dropWhile text)
          fun _ => not_isWordChar_of_isParted
        have hall : ∀ d ∈ text.takeWhile isWordChar, isWordChar d = true :=
          fun d hd => List.mem_takeWhile_imp hd
        rw [if_pos hword, Lexeme.text, List.tail_cons, List.takeWhile_append_of_pos hall,
          List.dropWhile_append_of_pos hall, takeWhile_of_head hhead, dropWhile_of_head hhead,
          List.append_nil]
      · rename_i hword
        rw [if_neg hword, readSign_replace (Option.some.inj h) hr]

theorem startsComment_eq_false_iff {c : Char} {text : List Char} :
    startsComment c text = false ↔ ∀ d ∈ text.head?, ¬(c = '/' ∧ d = '/') := by
  cases text <;> simp [startsComment]

theorem startsComment_replace {c : Char} {text after after' : List Char} {lexeme : Lexeme}
    (hc : startsComment c text = false) (h : readLexeme c text = some (lexeme, after))
    (hr : Replaces after' after) : startsComment c (lexeme.text.tail ++ after') = false := by
  obtain ⟨-, htext⟩ := readLexeme_text h
  rw [startsComment_eq_false_iff] at hc ⊢
  rw [htext] at hc
  cases htail : lexeme.text.tail with
  | nil =>
    rw [htail] at hc
    exact hr.forall_head hc fun d hd hslash => ne_of_isParted hd (by decide) hslash.2
  | cons d letters =>
    rw [htail] at hc
    exact hc

/-- A lexeme and a text that may stand behind it scan one after the other. -/
theorem scanLine_text_append {c : Char} {text after after' : List Char} {lexeme : Lexeme}
    (hb : Text.isBlank c = false) (hc : startsComment c text = false)
    (hl : readLexeme c text = some (lexeme, after)) (hr : Replaces after' after) :
    scanLine (lexeme.text ++ after') =
      (scanLine after').map fun (pieces, trailing) => (⟨[], lexeme⟩ :: pieces, trailing) := by
  rw [(readLexeme_text hl).1, List.cons_append,
    scanLine_of_not_isBlank hb (startsComment_replace hc hl hr), readLexeme_replace hl hr,
    Option.bind_some]

/-! ### What has been scanned by itself -/

theorem startsComment_append {c : Char} (text : List Char) {rest : List Char}
    (hd : Detached rest) : startsComment c (text ++ rest) = startsComment c text := by
  cases text with
  | nil =>
    cases rest with
    | nil => rfl
    | cons d rest =>
      have hne : d ≠ '/' := ne_of_isDetached (detached_cons.1 hd) (by decide)
      simp [startsComment, hne]
  | cons d text => rfl

/-- Induction along the lexemes of a line that is scanned. -/
theorem scanLine_induct {motive : List Char → List Piece → List Char → Prop}
    (nil : motive [] [] [])
    (blank : ∀ c line pieces trailing, Text.isBlank c = true → motive line pieces trailing →
      motive (c :: line) (carryGap [c] (pieces, trailing)).1 (carryGap [c] (pieces, trailing)).2)
    (comment : ∀ c rest, startsComment c rest = true → motive (c :: rest) [] (c :: rest))
    (lexeme : ∀ c rest lexeme after pieces trailing, Text.isBlank c = false →
      startsComment c rest = false → readLexeme c rest = some (lexeme, after) →
      motive after pieces trailing → motive (c :: rest) (⟨[], lexeme⟩ :: pieces) trailing)
    {line trailing : List Char} {pieces : List Piece}
    (h : scanLine line = some (pieces, trailing)) : motive line pieces trailing := by
  induction hn : line.length using Nat.strongRecOn generalizing line pieces trailing with
  | _ n ih =>
    subst hn
    cases line with
    | nil =>
      rw [scanLine_nil] at h
      cases h
      exact nil
    | cons c rest =>
      cases hb : Text.isBlank c with
      | true =>
        rw [scanLine_of_isBlank hb] at h
        obtain ⟨⟨pieces', trailing'⟩, hrest, he⟩ := Option.map_eq_some_iff.1 h
        have hmotive := ih rest.length (by simp) hrest rfl
        have hblank := blank c rest pieces' trailing' hb hmotive
        rwa [he] at hblank
      | false =>
        cases hc : startsComment c rest with
        | true =>
          have hpos : ¬ Text.isBlank c = true := by simp [hb]
          rw [scanLine_eq, List.dropWhile_cons_of_neg hpos, List.takeWhile_cons_of_neg hpos] at h
          simp only [hc, if_true] at h
          cases h
          exact comment c rest hc
        | false =>
          rw [scanLine_of_not_isBlank hb hc] at h
          obtain ⟨⟨l, after⟩, hl, h⟩ := Option.bind_eq_some_iff.1 h
          obtain ⟨⟨pieces', trailing'⟩, hafter, he⟩ := Option.map_eq_some_iff.1 h
          cases he
          -- what is left after a lexeme is shorter, if not by one character
          have hlength := length_readLexeme_le hl
          exact lexeme c rest l after pieces' trailing hb hc hl
            (ih after.length (by simp; omega) hafter rfl)

/-- What holds of every lexeme that is read holds of those of a line. -/
theorem forall_lexeme_of_scanLine {P : Lexeme → Prop}
    (hP : ∀ {c rest lexeme after}, Text.isBlank c = false →
      readLexeme c rest = some (lexeme, after) → P lexeme)
    {line trailing : List Char} {pieces : List Piece}
    (h : scanLine line = some (pieces, trailing)) : ∀ p ∈ pieces, P p.lexeme := by
  refine scanLine_induct (motive := fun _ pieces _ => ∀ p ∈ pieces, P p.lexeme) ?_ ?_ ?_ ?_ h
  · exact List.forall_mem_nil _
  · intro c line pieces trailing _ ih
    cases pieces with
    | nil => exact List.forall_mem_nil _
    | cons p pieces => exact List.forall_mem_cons.2 (List.forall_mem_cons.1 ih)
  · intro c rest _
    exact List.forall_mem_nil _
  · intro c rest lexeme after pieces trailing hb _ hl ih
    exact List.forall_mem_cons.2 ⟨hP hb hl, ih⟩

/-- What scans without layout at its end scans the same way before anything detached. -/
theorem scans_of_scanLine {text : List Char} {pieces : List Piece} (hline : '\n' ∉ text)
    (h : scanLine text = some (pieces, [])) : Scans text pieces := by
  -- the induction has to pass through lines that end in layout
  suffices hs : ∀ {trailing}, scanLine text = some (pieces, trailing) → trailing = [] →
      '\n' ∉ text → Scans text pieces from hs h rfl hline
  intro trailing h
  refine scanLine_induct
    (motive := fun text pieces trailing => trailing = [] → '\n' ∉ text → Scans text pieces)
    ?_ ?_ ?_ ?_ h
  · intro _ _
    exact Scans.nil
  · intro c line pieces trailing hb ih ht hline
    rw [List.mem_cons, not_or] at hline
    cases pieces with
    | nil => cases ht
    | cons p pieces =>
      have hmargin : ∀ d ∈ [c], Text.isBlank d = true := by simpa using hb
      exact (ih ht hline.2).blanks hmargin (by simp [hline.1]) (List.cons_ne_nil p pieces)
  · intro c rest _ ht
    cases ht
  · intro c rest lexeme after pieces trailing hb hc hl ih ht hline
    have hafter : '\n' ∉ after := by
      intro hmem
      refine hline ?_
      rw [← text_of_readLexeme hl]
      exact List.mem_append_right _ hmem
    refine ⟨hline, fun more hmore => ?_⟩
    rw [← text_of_readLexeme hl, List.append_assoc,
      scanLine_text_append hb hc hl (hmore.replaces_append after),
      (ih ht hafter).scan_append more hmore, Option.map_map]
    rfl

/-- Nothing of a line is lost. -/
theorem written_of_scanLine {line trailing : List Char} {pieces : List Piece}
    (h : scanLine line = some (pieces, trailing)) :
    pieces.flatMap Piece.written ++ trailing = line := by
  refine scanLine_induct
    (motive := fun line pieces trailing => pieces.flatMap Piece.written ++ trailing = line)
    ?_ ?_ ?_ ?_ h
  · rfl
  · intro c line pieces trailing _ ih
    cases pieces with
    | nil => simpa [carryGap] using ih
    | cons p pieces => simpa [carryGap, Piece.written] using ih
  · intro c rest _
    rfl
  · intro c rest lexeme after pieces trailing _ _ hl ih
    rw [← text_of_readLexeme hl, ← ih]
    simp [Piece.written]

/-! ### Lines -/

/-- Pieces as tokens of the line with the given number. -/
def onLine (number : Nat) (pieces : List Piece) : List Token :=
  pieces.map fun p => { p with line := number }

@[simp] theorem onLine_nil (number : Nat) : onLine number [] = [] := rfl

@[simp] theorem onLine_cons (number : Nat) (p : Piece) (pieces : List Piece) :
    onLine number (p :: pieces) = { p with line := number } :: onLine number pieces := rfl

@[simp] theorem written_onLine (number : Nat) (pieces : List Piece) :
    Token.written (onLine number pieces) = pieces.flatMap Piece.written := by
  simp [Token.written, onLine, List.flatMap_map]

/-- The break at the end of the line with the given number. -/
def lineEnd (number : Nat) : Token := { gap := [], lexeme := .lineBreak, line := number }

/-- The tokens of lines, the first of which has the given number, with a break after each. -/
def tokensOfLines (number : Nat) : List (List Piece) → List Token
  | [] => []
  | pieces :: more => onLine number pieces ++ lineEnd number :: tokensOfLines (number + 1) more

theorem tokensOfLines_append (number : Nat) (lines more : List (List Piece)) :
    tokensOfLines number (lines ++ more) =
      tokensOfLines number lines ++ tokensOfLines (number + lines.length) more := by
  induction lines generalizing number with
  | nil => rfl
  | cons line lines ih => simp [tokensOfLines, ih, Nat.add_assoc, Nat.add_comm 1]

theorem scanLines_of_scans {lines : List (List Char)} {pieces : List (List Piece)}
    (h : List.Forall₂ Scans lines pieces) (hne : ∀ line ∈ pieces, line ≠ []) (number : Nat) :
    scanLines number (lines ++ [[]]) = .ok ⟨tokensOfLines number pieces, []⟩ := by
  induction h generalizing number with
  | nil =>
    rw [List.nil_append, scanLines, scanLine_nil]
    rfl
  | @cons line first lines rest hline _ ih =>
    rw [List.forall_mem_cons] at hne
    rw [List.cons_append, scanLines, hline.scanLine_eq_some]
    simp [hne.1, ih hne.2, tokensOfLines, Scan.after, onLine, lineEnd, Except.map]

/-- Lines that scan, with a break after each, scan as a whole. -/
theorem scan_ofLines {lines : List (List Char)} {pieces : List (List Piece)}
    (h : List.Forall₂ Scans lines pieces) (hne : ∀ line ∈ pieces, line ≠ []) :
    scan (Text.ofLines lines) = .ok ⟨tokensOfLines 1 pieces, []⟩ := by
  have hboth := h.imp fun _ _ hscans => And.intro hscans.oneLine hscans
  have hbreak : ∀ line ∈ lines, '\n' ∉ line := ((List.forall₂_and_left _ _).1 hboth).1
  rw [scan, Text.splitOn_ofLines hbreak]
  exact scanLines_of_scans h hne 1

/-- A text whose tokens hold no line break is a single line. -/
theorem scanLine_of_scan {text trailing : List Char} {tokens : List Token}
    (h : scan text = .ok ⟨tokens, trailing⟩) (hb : ∀ t ∈ tokens, t.isBreak = false) :
    '\n' ∉ text ∧ ∃ pieces, scanLine text = some (pieces, trailing) ∧ tokens = onLine 1 pieces := by
  have htext := Text.joinWith_splitOn '\n' text
  have hbreak : ∀ piece ∈ Text.splitOn '\n' text, '\n' ∉ piece :=
    fun _ => Text.not_mem_of_mem_splitOn
  unfold scan at h
  cases hs : Text.splitOn '\n' text with
  | nil => exact absurd hs (Text.splitOn_ne_nil _ _)
  | cons line more =>
    rw [hs] at h htext hbreak
    rw [scanLines] at h
    cases hl : scanLine line with
    | none =>
      rw [hl] at h
      cases h
    | some result =>
      obtain ⟨pieces, trailing'⟩ := result
      rw [hl] at h
      cases more with
      | nil =>
        cases h
        obtain rfl : line = text := htext
        exact ⟨hbreak line (List.mem_singleton_self line), pieces, hl, rfl⟩
      | cons next more =>
        -- the break that ends the first line is always a token
        simp only [List.isEmpty_cons, Nat.lt_irrefl, decide_false, Bool.and_false] at h
        obtain ⟨scanned, -, he⟩ := Outcome.map_eq_ok_iff.1 h
        cases he
        exact absurd (hb ⟨⟨trailing', .lineBreak⟩, 1⟩ (by simp)) (by simp [Token.isBreak])

end Playbook
