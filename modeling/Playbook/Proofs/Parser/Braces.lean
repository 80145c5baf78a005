import Playbook.Proofs.Parser.Faults
import Playbook.Proofs.Parser.Readings
import Playbook.Proofs.Token.Braces
import Playbook.Proofs.Token.Tiling

/-!
# Unmatched braces are reported as such

Braces are paired up over the whole file, right behind the declaration of the command.  The stack of
lines on which braces are open is as high as the number of braces that are opened and not closed,
and braces that pair up leave it as it was.  So the fault is the first closing brace that has no
partner, or else the last opening one that has none, whatever else is wrong with the file
(`Command.parse_of_unpaired`).
-/

namespace Playbook

open Token

namespace Token

/-- Behind line breaks, the tokens start with the declaration of a command: its word, a name and
a brace. -/
def BeginCommand (tokens : List Token) : Prop :=
  ∃ keyword named brace rest name, skipBreaks tokens = keyword :: named :: brace :: rest ∧
    keyword.lexeme = .word "command".toList ∧ named.lexeme = .word name ∧
    isIdentifier name = true ∧ brace.is .openBrace = true

/-- A closing brace with which, for the first time, more braces are closed than opened. -/
structure IsFirstStray (before : List Token) (t : Token) : Prop where
  closes : t.is .closeBrace = true
  lt : opens (before ++ [t]) < Token.closes (before ++ [t])
  first : ∀ front, front <+: before → Token.closes front ≤ opens front

/-- An opening brace that has no partner, while all those behind it have one. -/
structure IsLastUnclosed (t : Token) (after : List Token) : Prop where
  opens : t.is .openBrace = true
  not_isMatched : ¬IsMatched after
  last : ∀ inside u rest, after = inside ++ u :: rest → u.is .openBrace = true → IsMatched rest

theorem Paired.isFirstStray {before : List Token} {t : Token} (h : Paired before)
    (ht : t.is .closeBrace = true) : IsFirstStray before t where
  closes := ht
  lt := by
    have heq := h.eq
    rw [opens_append, closes_append, opens_of_closeBrace ht, closes_of_closeBrace ht, opens_nil,
      closes_nil]
    omega
  first := h.le

theorem Paired.isLastUnclosed {after : List Token} {t : Token} (h : Paired after)
    (ht : t.is .openBrace = true) : IsLastUnclosed t after where
  opens := ht
  not_isMatched := h.not_isMatched
  last := fun _ _ _ => h.isMatched_of_openBrace

end Token

namespace Parser

variable {tokens : List Token}

/-! ### The stack of open braces -/

/-- Tokens that close no more than what is open above a base leave the base alone. -/
theorem pairBraces_append (top : List Nat)
    (h : ∀ front, front <+: tokens → closes front ≤ opens front + top.length) :
    ∃ stack : List Nat, stack.length + closes tokens = top.length + opens tokens ∧
      ∀ base rest, pairBraces (top ++ base) (tokens ++ rest) = pairBraces (stack ++ base) rest := by
  induction tokens generalizing top with
  | nil => exact ⟨top, rfl, fun _ _ => rfl⟩
  | cons t tokens ih =>
    rcases brace_cases t with ht | ht | ht
    · obtain ⟨stack, hlength, hstack⟩ := ih (t.line :: top) fun front hfront => by
        have hle := h (t :: front) (List.cons_prefix_cons.2 ⟨rfl, hfront⟩)
        rw [opens_of_openBrace ht, closes_of_openBrace ht] at hle
        rw [List.length_cons]
        omega
      refine ⟨stack, ?_, fun base rest => ?_⟩
      · rw [List.length_cons] at hlength
        rw [opens_of_openBrace ht, closes_of_openBrace ht]
        omega
      · rw [List.cons_append, pairBraces_of_openBrace ht, ← List.cons_append, hstack]
    · cases top with
      | nil =>
        -- the brace itself is one too many
        have hle := h [t] (List.cons_prefix_cons.2 ⟨rfl, List.nil_prefix⟩)
        rw [opens_of_closeBrace ht, closes_of_closeBrace ht, opens_nil, closes_nil] at hle
        exact absurd hle (by simp)
      | cons line top =>
        obtain ⟨stack, hlength, hstack⟩ := ih top fun front hfront => by
          have hle := h (t :: front) (List.cons_prefix_cons.2 ⟨rfl, hfront⟩)
          rw [opens_of_closeBrace ht, closes_of_closeBrace ht, List.length_cons] at hle
          omega
        refine ⟨stack, ?_, fun base rest => ?_⟩
        · rw [opens_of_closeBrace ht, closes_of_closeBrace ht, List.length_cons]
          omega
        · rw [List.cons_append, List.cons_append, pairBraces_of_closeBrace ht, hstack]
    · obtain ⟨stack, hlength, hstack⟩ := ih top fun front hfront => by
        have hle := h (t :: front) (List.cons_prefix_cons.2 ⟨rfl, hfront⟩)
        rwa [(ht front).1, (ht front).2] at hle
      refine ⟨stack, by rw [(ht tokens).1, (ht tokens).2]; exact hlength, fun base rest => ?_⟩
      have hbrace : t.lexeme.isBrace = false := by
        have hopens := (ht []).1
        have hcloses := (ht []).2
        rw [opens_cons] at hopens
        rw [closes_cons] at hcloses
        have hopen : t.is .openBrace = false := by simpa using hopens
        have hclose : t.is .closeBrace = false := by simpa using hcloses
        exact Bool.or_eq_false_iff.2 ⟨hopen, hclose⟩
      rw [List.cons_append, pairBraces_of_not_isBrace hbrace, hstack]

theorem bracesPaired_of_paired (h : Paired tokens) : BracesPaired tokens := by
  obtain ⟨stack, hlength, hstack⟩ := pairBraces_append [] h.le
  have heq := h.eq
  have hnil : stack = [] := by
    rw [List.length_nil] at hlength
    exact List.eq_nil_of_length_eq_zero (by omega)
  subst hnil
  exact hstack

theorem pairBraces_of_stray {before after : List Token} {t : Token} (h : Paired before)
    (ht : t.is .closeBrace = true) :
    pairBraces [] (before ++ t :: after) = .error ⟨.strayClose, t.line⟩ := by
  have hopen : t.is .openBrace = false := by
    rw [is, beq_iff_eq] at ht
    rw [is, ht]
    rfl
  rw [bracesPaired_of_paired h, pairBraces_cons, hopen, ht]
  rfl

theorem pairBraces_of_unclosed {before after : List Token} {t : Token}
    (hle : ∀ front, front <+: before → closes front ≤ opens front) (h : Paired after)
    (ht : t.is .openBrace = true) :
    pairBraces [] (before ++ t :: after) = .error ⟨.unclosedBlock, t.line⟩ := by
  obtain ⟨stack, -, hstack⟩ := pairBraces_append [] hle
  have hbefore := hstack [] (t :: after)
  rw [List.nil_append, List.append_nil, pairBraces_of_openBrace ht] at hbefore
  have hafter := bracesPaired_of_paired h (t.line :: stack) []
  rw [List.append_nil] at hafter
  rw [hbefore, hafter]
  rfl

/-- The braces of a file are paired up exactly if they pair up. -/
theorem pairBraces_eq_ok_iff : pairBraces [] tokens = .ok () ↔ Paired tokens := by
  constructor
  · intro h
    have hle : ∀ front, front <+: tokens → closes front ≤ opens front := by
      intro front hfront
      by_contra hlt
      obtain ⟨before, t, after, rfl, ht, hpaired⟩ := exists_stray ⟨front, hfront, by omega⟩
      rw [pairBraces_of_stray hpaired ht] at h
      cases h
    refine ⟨hle, Nat.le_antisymm (hle tokens List.prefix_rfl) ?_⟩
    by_contra hlt
    obtain ⟨before, t, after, rfl, ht, hpaired⟩ :=
      exists_unclosed ⟨tokens, List.suffix_rfl, by omega⟩
    have hbefore : ∀ front, front <+: before → closes front ≤ opens front :=
      fun front hfront => hle front (hfront.trans (List.prefix_append before _))
    rw [pairBraces_of_unclosed hbefore hpaired ht] at h
    cases h
  · intro h
    have hpaired := bracesPaired_of_paired h [] []
    rwa [List.append_nil] at hpaired

/-! ### Files -/

theorem beginCommand_iff :
    BeginCommand tokens ↔ ∃ name inner, header? (skipBreaks tokens) = some (name, inner) := by
  constructor
  · rintro ⟨keyword, named, brace, rest, name, hskip, hkeyword, hnamed, hname, hbrace⟩
    refine ⟨name, rest, header?_eq_some_iff.2 ⟨keyword, named, brace :: rest, ?_⟩⟩
    exact ⟨hskip, hkeyword, hnamed, hname, by simp [after?, hbrace]⟩
  · rintro ⟨name, inner, h⟩
    obtain ⟨keyword, named, rest, hskip, hkeyword, hnamed, hname, h⟩ := header?_eq_some_iff.1 h
    obtain ⟨hbrace, rfl⟩ := after?_eq_some_iff.1 h
    cases rest with
    | nil => cases hbrace
    | cons brace rest =>
      refine ⟨keyword, named, brace, rest, name, hskip, hkeyword, hnamed, hname, ?_⟩
      simpa [next?, is] using hbrace

/-- Behind the declaration of a command, a fault of its braces is the fault of the file. -/
theorem command_of_pairBraces {f : Fault} (h : BeginCommand tokens)
    (hf : pairBraces [] tokens = .error f) : command tokens = .error f := by
  obtain ⟨name, inner, hheader⟩ := beginCommand_iff.1 h
  unfold command
  split
  · rename_i hskip
    rw [hskip] at hheader
    cases hheader
  · rename_i first more hskip
    rw [← hskip, hheader]
    dsimp only
    rw [hf]
    rfl

end Parser

theorem Command.parse_of_command {source : String} {s : Scan} (hs : scan source.toList = .ok s)
    {f : Fault} (h : Parser.command s.tokens = .error f) :
    Command.parse source = .error (f.quote source.toList) := by
  simp [Command.parse, hs, h, Except.mapError, bind, Except.bind]

/-- The place of a brace in the source tells the line that its fault is reported for. -/
theorem Command.parse_of_pairBraces {source : String} {s : Scan} (hs : scan source.toList = .ok s)
    (hbegin : BeginCommand s.tokens) {before after : List Token} {t : Token} {cause : Cause}
    (ht : s.tokens = before ++ t :: after)
    (h : Parser.pairBraces [] s.tokens = .error ⟨cause, t.line⟩) :
    ∃ d, Command.parse source = .error d ∧ d.cause = cause ∧
      d.line = 1 + (written before ++ t.gap).count '\n' :=
  ⟨_, Command.parse_of_command hs (Parser.command_of_pairBraces hbegin h), rfl, line_of_scan hs ht⟩

theorem Defect.message_of_strayClose {d : Defect} (h : d.cause = .strayClose) :
    "Unmatched braces: unexpected '\x7d'".toList <+: d.message.toList := by
  rw [Defect.message, h]
  dsimp only
  rw [String.toList_append]
  exact (List.IsPrefix.trans (by decide +kernel) (List.prefix_append _ _))

theorem Defect.message_of_unclosedBlock {d : Defect} (h : d.cause = .unclosedBlock) :
    "Unmatched braces: '\x7b' opened".toList <+: d.message.toList := by
  rw [Defect.message, h]
  dsimp only
  simp only [String.toList_append, List.append_assoc]
  exact (List.IsPrefix.trans (by decide +kernel) (List.prefix_append _ _))

/-- In a file that scans and starts with the declaration of a command, braces that do not pair up
are reported, whatever else is wrong.  If somewhere more are closed than opened, the fault is the
first closing brace where this is so.  Otherwise, if more are opened than closed, it is the last
opening brace that has no partner.  Either is reported for the line it stands on. -/
theorem Command.parse_of_unpaired {source : String} {s : Scan} (hs : scan source.toList = .ok s)
    (hbegin : BeginCommand s.tokens) :
    ((∃ front, front <+: s.tokens ∧ opens front < closes front) →
      ∃ before t after d, s.tokens = before ++ t :: after ∧ IsFirstStray before t ∧
        Command.parse source = .error d ∧ d.line = 1 + (written before ++ t.gap).count '\n' ∧
        "Unmatched braces: unexpected '\x7d'".toList <+: d.message.toList) ∧
    ((∀ front, front <+: s.tokens → closes front ≤ opens front) →
      closes s.tokens < opens s.tokens →
      ∃ before t after d, s.tokens = before ++ t :: after ∧ IsLastUnclosed t after ∧
        Command.parse source = .error d ∧ d.line = 1 + (written before ++ t.gap).count '\n' ∧
        "Unmatched braces: '\x7b' opened".toList <+: d.message.toList) := by
  constructor
  · intro h
    obtain ⟨before, t, after, htokens, ht, hpaired⟩ := exists_stray h
    have hf : Parser.pairBraces [] (before ++ t :: after) = .error ⟨.strayClose, t.line⟩ :=
      Parser.pairBraces_of_stray hpaired ht
    rw [← htokens] at hf
    obtain ⟨d, hd, hcause, hline⟩ := Command.parse_of_pairBraces hs hbegin htokens hf
    exact ⟨before, t, after, d, htokens, hpaired.isFirstStray ht, hd, hline,
      Defect.message_of_strayClose hcause⟩
  · intro hle hlt
    obtain ⟨before, t, after, htokens, ht, hpaired⟩ :=
      exists_unclosed ⟨s.tokens, List.suffix_rfl, hlt⟩
    have hbefore : ∀ front, front <+: before → closes front ≤ opens front := by
      intro front hfront
      refine hle front (hfront.trans ?_)
      rw [htokens]
      exact List.prefix_append before _
    have hf := Parser.pairBraces_of_unclosed hbefore hpaired ht
    rw [← htokens] at hf
    obtain ⟨d, hd, hcause, hline⟩ := Command.parse_of_pairBraces hs hbegin htokens hf
    exact ⟨before, t, after, d, htokens, hpaired.isLastUnclosed ht, hd, hline,
      Defect.message_of_unclosedBlock hcause⟩

/-- What is read from a source whose strings are closed. -/
def scanned (source : String) : Scan := (scan source.toList).toOption.getD ⟨[], []⟩

/-- A string and a comment hide braces, then one brace is too many, among other defects. -/
def strayBraceSource : String :=
  "command c \x7b\n x = \"\x7d\" // \x7d\n\x7d\n ask(\n\x7d \x7b\n\x7d"

/-- The brace of the condition is closed, that of the command is not. -/
def unclosedBraceSource : String :=
  "\ncommand c \x7b\n if (\"\x7b\") \x7b\n ask(\n\x7d // \x7d\n ?"

theorem Command.parse_of_unpaired_defective :
    (∃ s, scan strayBraceSource.toList = .ok s ∧ BeginCommand s.tokens ∧
      ∃ before t after d, s.tokens = before ++ t :: after ∧ IsFirstStray before t ∧
        Command.parse strayBraceSource = .error d ∧
        d.line = 1 + (written before ++ t.gap).count '\n' ∧
        "Unmatched braces: unexpected '\x7d'".toList <+: d.message.toList) ∧
    ∃ s, scan unclosedBraceSource.toList = .ok s ∧ BeginCommand s.tokens ∧
      ∃ before t after d, s.tokens = before ++ t :: after ∧ IsLastUnclosed t after ∧
        Command.parse unclosedBraceSource = .error d ∧
        d.line = 1 + (written before ++ t.gap).count '\n' ∧
        "Unmatched braces: '\x7b' opened".toList <+: d.message.toList := by
  constructor
  · have hs : scan strayBraceSource.toList = .ok (scanned strayBraceSource) := by
      with_unfolding_all rfl
    have hbegin : BeginCommand (scanned strayBraceSource).tokens :=
      Parser.beginCommand_iff.2 ⟨_, _, by with_unfolding_all rfl⟩
    refine ⟨_, hs, hbegin, (Command.parse_of_unpaired hs hbegin).1 ?_⟩
    exact ⟨List.take 14 _, List.take_prefix .., by decide +kernel⟩
  · have hs : scan unclosedBraceSource.toList = .ok (scanned unclosedBraceSource) := by
      with_unfolding_all rfl
    have hbegin : BeginCommand (scanned unclosedBraceSource).tokens :=
      Parser.beginCommand_iff.2 ⟨_, _, by with_unfolding_all rfl⟩
    have hle : ∀ front ∈ (scanned unclosedBraceSource).tokens.inits,
        closes front ≤ opens front := by decide +kernel
    refine ⟨_, hs, hbegin, (Command.parse_of_unpaired hs hbegin).2 (fun front hfront => ?_) ?_⟩
    · exact hle front ((List.mem_inits _ _).2 hfront)
    · decide +kernel

end Playbook
