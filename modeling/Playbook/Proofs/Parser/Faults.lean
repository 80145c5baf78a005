import Playbook.Proofs.Parser.Extent
import Playbook.Proofs.Token.Lines

/-!
# The line of a defect

A fault is reported for the line of a statement, of an opening brace, of an `else`, or of the token
that should not be there.  However the line is found, it is the line of a token which is no line
break (`Fault.IsAt`): this is what one statement preserves, and blocks by induction on their bound.
The one exception is a file without such tokens.

A token stands on a line of the source that is not blank, so the line that a message quotes is there
and the quotation is not empty (`Command.defect_of_parse`).
-/

namespace Playbook

open Token

/-- A line holds a token that is no line break. -/
def Token.Occupies (tokens : List Token) (number : Nat) : Prop :=
  ∃ t ∈ tokens, t.isBreak = false ∧ t.line = number

/-- A fault that is found at a token. -/
structure Fault.IsAt (all : List Token) (f : Fault) : Prop where
  cause : f.cause ≠ .emptyFile
  line : Occupies all f.line

theorem Token.occupies_of_mem {all : List Token} {t : Token} (ht : t ∈ all)
    (hb : t.isBreak = false) : Occupies all t.line :=
  ⟨t, ht, hb, rfl⟩

theorem Token.not_isBreak_of_skipBreaks {tokens more : List Token} {first : Token}
    (h : skipBreaks tokens = first :: more) : first.isBreak = false := by
  have hhead := List.head?_dropWhile_not isBreak tokens
  rw [← skipBreaks, h] at hhead
  simpa using hhead

namespace Parser

variable {all tokens rest : List Token} {f : Fault} {line : Nat}

/-! ### Statements -/

/-- The faults of a reader of blocks are found at tokens, if it starts among them. -/
def FaultsAt (all : List Token) (block : BlockReader) : Prop :=
  ∀ ⦃opened tokens f⦄, tokens <:+ all → Occupies all opened →
    block opened tokens = .error f → f.IsAt all

theorem isAt_of_malformed {α : Type} {form : Form} (hline : Occupies all line)
    (h : (malformed form line : Except Fault α) = .error f) : f.IsAt all := by
  cases h
  exact ⟨nofun, hline⟩

theorem isAt_of_call {word : List Char} (hline : Occupies all line)
    (h : call word line tokens = .error f) : f.IsAt all := by
  unfold call at h
  split at h
  · split at h
    · cases h
    · exact isAt_of_malformed hline h
  · exact isAt_of_malformed hline h

theorem isAt_of_assignment {word : List Char} (hline : Occupies all line)
    (h : assignment word line tokens = .error f) : f.IsAt all := by
  unfold assignment at h
  split at h
  · dsimp only at h
    split at h
    · exact isAt_of_malformed hline h
    · cases h
  · exact isAt_of_malformed hline h

theorem isAt_of_createFile (hline : Occupies all line) (h : createFile line tokens = .error f) :
    f.IsAt all := by
  unfold createFile at h
  split at h
  · split at h
    · cases h
    · exact isAt_of_malformed hline h
  · exact isAt_of_malformed hline h

theorem isAt_of_taskFile (hline : Occupies all line) (h : taskFile line tokens = .error f) :
    f.IsAt all := by
  unfold taskFile at h
  dsimp only at h
  split at h
  · split at h
    · cases h
    · exact isAt_of_malformed hline h
  · split at h
    · cases h
    · exact isAt_of_malformed hline h
  · exact isAt_of_malformed hline h

section Blocks

variable {block : BlockReader} (hblock : FaultsAt all block) (hsuffix : LeavesSuffix block)
  (hall : tokens <:+ all) (hline : Occupies all line)

include hblock hall hline

theorem isAt_of_braced {form : Form} (h : braced block form line tokens = .error f) :
    f.IsAt all := by
  unfold braced at h
  split at h
  · rename_i inner hinner
    exact hblock ((suffix_of_after? hinner).trans hall) hline h
  · exact isAt_of_malformed hline h

theorem isAt_of_whileLoop (h : whileLoop block line tokens = .error f) : f.IsAt all := by
  unfold whileLoop at h
  split at h
  · exact isAt_of_malformed hline h
  · rename_i condition after hcondition
    have hafter := (within_of_condition? hcondition).1.trans hall
    rcases Outcome.bind_eq_error_iff.1 h with h | ⟨_, -, h⟩
    · exact isAt_of_braced hblock hafter hline h
    · cases h

theorem isAt_of_forLoop (h : forLoop block line tokens = .error f) : f.IsAt all := by
  unfold forLoop at h
  split at h
  · exact isAt_of_malformed hline h
  · rename_i name iterable after hiteration
    have hafter := (suffix_of_iteration? hiteration).trans hall
    rcases Outcome.bind_eq_error_iff.1 h with h | ⟨_, -, h⟩
    · exact isAt_of_braced hblock hafter hline h
    · cases h

theorem isAt_of_inlineTask (h : inlineTask block line tokens = .error f) : f.IsAt all := by
  unfold inlineTask at h
  split at h
  · rename_i agent first after hagent
    have hafter : after <:+ all :=
      (List.suffix_cons first after).trans ((suffix_of_leadingAgent? hagent).trans hall)
    split at h
    · rcases Outcome.bind_eq_error_iff.1 h with h | ⟨_, -, h⟩
      · exact isAt_of_braced hblock hafter hline h
      · cases h
    · exact isAt_of_malformed hline h
  · exact isAt_of_malformed hline h

theorem isAt_of_parallel (h : parallel block line tokens = .error f) : f.IsAt all := by
  rcases Outcome.bind_eq_error_iff.1 h with h | ⟨_, -, h⟩
  · exact hblock hall hline h
  · dsimp only at h
    split at h
    · cases h
    · cases h
      exact ⟨nofun, hline⟩

include hsuffix

theorem isAt_of_conditional (h : conditional block line tokens = .error f) : f.IsAt all := by
  unfold conditional at h
  split at h
  · exact isAt_of_malformed hline h
  · rename_i condition after hcondition
    have hafter := (within_of_condition? hcondition).1.trans hall
    rcases Outcome.bind_eq_error_iff.1 h with h | ⟨⟨body, between⟩, hbody, h⟩
    · exact isAt_of_braced hblock hafter hline h
    · have hbetween := (suffix_of_braced hsuffix hbody).trans hafter
      dsimp only at h
      split at h
      · rename_i elseLine inner helse
        obtain ⟨hinner, word, hword, hb, rfl⟩ := exists_of_elseBlock? helse
        have helse : Occupies all word.line := occupies_of_mem (hbetween.subset hword) hb
        rcases Outcome.bind_eq_error_iff.1 h with h | ⟨_, -, h⟩
        · exact hblock (hinner.trans hbetween) helse h
        · cases h
      · cases h

/-- The faults of a statement are found at its first word or inside it. -/
theorem isAt_of_statementAfter {word : List Char}
    (h : statementAfter block word line tokens = .error f) : f.IsAt all := by
  have htail : tokens.tail <:+ all := (List.tail_suffix tokens).trans hall
  unfold statementAfter at h
  split at h
  · unfold ask at h
    split at h
    · cases h
    · exact isAt_of_malformed hline h
  · unfold confirm at h
    split at h
    · cases h
    · exact isAt_of_malformed hline h
  · exact isAt_of_createFile hline h
  · exact isAt_of_conditional hblock hsuffix hall hline h
  · exact isAt_of_whileLoop hblock hall hline h
  · exact isAt_of_forLoop hblock hall hline h
  · exact isAt_of_assignment hline h
  · exact isAt_of_taskFile hline h
  · exact isAt_of_inlineTask hblock hall hline h
  · exact isAt_of_parallel hblock htail hline h
  · cases h
  · cases h
  · cases h
  · unfold waitForResponse at h
    split at h
    · cases h
    · exact isAt_of_malformed hline h
  · exact isAt_of_assignment hline h
  · exact isAt_of_call hline h
  · cases h
    exact ⟨nofun, hline⟩

end Blocks

theorem isAt_of_endOfStatement (hall : tokens <:+ all) (h : endOfStatement tokens = .error f) :
    f.IsAt all := by
  unfold endOfStatement at h
  split at h
  · cases h
  · rename_i t more
    split at h
    · cases h
    · rename_i hb
      split at h
      · cases h
      · cases h
        have hmem : t ∈ all := hall.subset (List.mem_cons_self ..)
        exact ⟨nofun, occupies_of_mem hmem (by simpa using hb)⟩

theorem isAt_of_statement {block : BlockReader} {first : Token} (hblock : FaultsAt all block)
    (hsuffix : LeavesSuffix block) (hall : first :: tokens <:+ all) (hb : first.isBreak = false)
    (h : statement block first tokens = .error f) : f.IsAt all := by
  have hline : Occupies all first.line := occupies_of_mem (hall.subset (List.mem_cons_self ..)) hb
  have hmore : tokens <:+ all := (List.suffix_cons first tokens).trans hall
  unfold statement at h
  split at h
  · rcases Outcome.bind_eq_error_iff.1 h with h | ⟨⟨s, after⟩, hs, h⟩
    · exact isAt_of_statementAfter hblock hsuffix hmore hline h
    · have hafter := ((reads_of_statementAfter hs).suffix hsuffix).trans hmore
      rcases Outcome.bind_eq_error_iff.1 h with h | ⟨_, -, h⟩
      · exact isAt_of_endOfStatement hafter h
      · cases h
  · cases h
    exact ⟨nofun, hline⟩

/-! ### Blocks and files -/

/-- The faults of a block are found where it is opened or inside it. -/
theorem faultsAt_block (all : List Token) (bound : Nat) : FaultsAt all (Parser.block bound) := by
  induction bound with
  | zero =>
    intro opened tokens f hall hopened h
    cases h
    exact ⟨nofun, hopened⟩
  | succ bound ih =>
    intro opened tokens f hall hopened h
    have hskip := (skipBreaks_suffix tokens).trans hall
    rw [Parser.block] at h
    split at h
    · cases h
      exact ⟨nofun, hopened⟩
    · rename_i first more hfirst
      rw [hfirst] at hskip
      have hsuffix := leavesSuffix_block bound
      split at h
      · cases h
      · rcases Outcome.bind_eq_error_iff.1 h with h | ⟨⟨s, after⟩, hs, h⟩
        · exact isAt_of_statement ih hsuffix hskip (not_isBreak_of_skipBreaks hfirst) h
        · have hafter := (suffix_of_statement hsuffix hs).trans
            ((List.suffix_cons first more).trans hskip)
          rcases Outcome.bind_eq_error_iff.1 h with h | ⟨_, -, h⟩
          · exact ih hafter hopened h
          · cases h

theorem isAt_of_pairBraces {opened : List Nat} (hall : tokens ⊆ all)
    (hopened : ∀ n ∈ opened, Occupies all n) (h : pairBraces opened tokens = .error f) :
    f.IsAt all := by
  induction tokens generalizing opened with
  | nil =>
    cases opened with
    | nil => cases h
    | cons n outer =>
      cases h
      exact ⟨nofun, hopened n (List.mem_cons_self ..)⟩
  | cons t more ih =>
    obtain ⟨ht, hmore⟩ := List.cons_subset.1 hall
    rw [pairBraces_cons] at h
    split at h
    · rename_i hopen
      have hline := occupies_of_mem ht (not_isBreak_of_is hopen)
      exact ih hmore (List.forall_mem_cons.2 ⟨hline, hopened⟩) h
    · split at h
      · rename_i hclose
        cases opened with
        | nil =>
          cases h
          exact ⟨nofun, occupies_of_mem ht (not_isBreak_of_is hclose)⟩
        | cons n outer => exact ih hmore (List.forall_mem_cons.1 hopened).2 h
      · exact ih hmore hopened h

theorem isAt_of_endOfFile (hall : tokens <:+ all) (h : endOfFile tokens = .error f) :
    f.IsAt all := by
  unfold endOfFile at h
  split at h
  · cases h
  · rename_i t more hskip
    have hmem : t ∈ all := by
      refine hall.subset ((skipBreaks_suffix tokens).subset ?_)
      rw [hskip]
      exact List.mem_cons_self ..
    have hline := occupies_of_mem hmem (not_isBreak_of_skipBreaks hskip)
    split at h
    · cases h
      exact ⟨nofun, hline⟩
    · cases h
      exact ⟨nofun, hline⟩

/-- A file is empty but for line breaks, or its fault is found at one of its tokens. -/
theorem isAt_of_command (h : command tokens = .error f) :
    ((∀ t ∈ tokens, t.isBreak = true) ∧ f.line = 1) ∨ f.IsAt tokens := by
  have hskip := skipBreaks_suffix tokens
  unfold command at h
  split at h
  · rename_i hempty
    cases h
    exact .inl ⟨fun t ht => List.dropWhile_eq_nil_iff.1 hempty t ht, rfl⟩
  · rename_i first more hfirst
    rw [hfirst] at hskip
    have hline : Occupies tokens first.line :=
      occupies_of_mem (hskip.subset (List.mem_cons_self ..)) (not_isBreak_of_skipBreaks hfirst)
    right
    split at h
    · cases h
      exact ⟨nofun, hline⟩
    · rename_i name inner hheader
      have hinner := (suffix_of_header? hheader).trans hskip
      rcases Outcome.bind_eq_error_iff.1 h with h | ⟨_, -, h⟩
      · exact isAt_of_pairBraces (List.Subset.refl tokens) (List.forall_mem_nil _) h
      · rcases Outcome.bind_eq_error_iff.1 h with h | ⟨⟨body, after⟩, hbody, h⟩
        · exact faultsAt_block tokens _ hinner hline h
        · rcases Outcome.bind_eq_error_iff.1 h with h | ⟨_, -, h⟩
          · exact isAt_of_endOfFile ((leavesSuffix_block _ hbody).trans hinner) h
          · cases h

end Parser

/-! ### Defects -/

/-- A message quotes its line. -/
theorem Defect.quoted_infix_message {d : Defect} (h : d.cause ≠ .emptyFile) :
    d.quoted.toList <:+: d.message.toList := by
  have hend : ∀ front : String, d.quoted.toList <:+: (front ++ d.quoted).toList := by
    intro front
    rw [String.toList_append]
    exact (List.suffix_append ..).isInfix
  unfold Defect.message
  split
  · exact hend _
  · contradiction
  · rw [String.toList_append]
    exact (hend _).trans (List.prefix_append ..).isInfix
  all_goals exact hend _

/-- A defect on a line of the source that is not blank, whose message holds the trimmed line. -/
def Defect.QuotesLineOf (source : List Char) (d : Defect) : Prop :=
  1 ≤ d.line ∧ d.line ≤ (Text.lines source).length ∧
    ∃ line, (Text.lines source)[d.line - 1]? = some line ∧ Text.trim line ≠ [] ∧
      Text.trim line <:+: d.message.toList

theorem Fault.quotesLineOf_quote {source : List Char} {f : Fault} (hcause : f.cause ≠ .emptyFile)
    (h : Text.IsFilled source f.line) : (f.quote source).QuotesLineOf source := by
  obtain ⟨line, hline, htrim, hne⟩ := h.exists_line
  obtain ⟨hbound, -⟩ := List.getElem?_eq_some_iff.1 hline
  refine ⟨h.1, ?_, line, hline, by rwa [htrim], ?_⟩
  · show f.line ≤ _
    have := h.1
    omega
  · have hquoted : (f.quote source).quoted.toList = Text.trim line := by
      rw [htrim, Fault.quote, String.toList_ofList]
    rw [← hquoted]
    exact Defect.quoted_infix_message hcause

theorem Command.parse_eq_error_cases {source : String} {d : Defect}
    (h : Command.parse source = .error d) :
    ∃ f : Fault, f.quote source.toList = d ∧
      ((∃ n, scan source.toList = .error n ∧ f = ⟨.unclosedString, n⟩) ∨
        ∃ scanned, scan source.toList = .ok scanned ∧
          Parser.command scanned.tokens = .error f) := by
  obtain ⟨f, hf, hd⟩ := Outcome.mapError_eq_error_iff.1 h
  refine ⟨f, hd, ?_⟩
  rcases Outcome.bind_eq_error_iff.1 hf with hf | ⟨scanned, hscan, hf⟩
  · obtain ⟨n, hn, he⟩ := Outcome.mapError_eq_error_iff.1 hf
    exact .inl ⟨n, hn, he.symm⟩
  · exact .inr ⟨scanned, Outcome.mapError_eq_ok_iff.1 hscan, hf⟩

/-- A defect of a file that is all layout is reported for its first line.  Any other defect is
reported for a line of the file that is not blank, and its message quotes that line. -/
theorem Command.defect_of_parse {source : String} {d : Defect}
    (h : Command.parse source = .error d) :
    ((∀ line ∈ Text.splitOn '\n' source.toList, Text.IsLayout line) ∧ d.line = 1) ∨
      d.QuotesLineOf source.toList := by
  obtain ⟨f, rfl, ⟨n, hn, rfl⟩ | ⟨scanned, hscan, hf⟩⟩ := Command.parse_eq_error_cases h
  · exact .inr (Fault.quotesLineOf_quote nofun (isFilled_of_scan_eq_error hn))
  · rcases Parser.isAt_of_command hf with ⟨hbreaks, hline⟩ | hf
    · refine .inl ⟨isLayout_of_forall_isBreak hscan fun t ht => ?_, hline⟩
      simpa [isBreak] using hbreaks t ht
    · obtain ⟨t, ht, hb, hline⟩ := hf.line
      refine .inr (Fault.quotesLineOf_quote hf.cause ?_)
      rw [← hline]
      exact isFilled_of_mem hscan ht hb

/-- A statement that goes on too long, below an empty line and with carriage returns. -/
def overlongSource : String :=
  "command c \x7b\r\n if (a) \x7b\r\n \x7d // b\r\n\r\n else \x7b\r\n  break now\r\n \x7d\r\n\x7d"

theorem Command.defect_of_parse_overlongSource :
    Command.parse overlongSource = .error ⟨⟨.noStatement, 6⟩, "break now"⟩ ∧
      ((∀ line ∈ Text.splitOn '\n' overlongSource.toList, Text.IsLayout line) ∧ 6 = 1 ∨
        Defect.QuotesLineOf overlongSource.toList ⟨⟨.noStatement, 6⟩, "break now"⟩) := by
  have h : Command.parse overlongSource = .error ⟨⟨.noStatement, 6⟩, "break now"⟩ := by
    with_unfolding_all rfl
  exact ⟨h, Command.defect_of_parse h⟩

end Playbook
