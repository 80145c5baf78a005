import Playbook.Proofs.Parser.Extent
import Playbook.Proofs.Parser.Printer
import Playbook.Proofs.Token.Lines

/-!
# The shape of a command that was read

What comes out of the parser is narrower than the type of commands: names are names, texts that are
kept as written are neither empty nor padded, a task is written out or names a file but not both,
and every text stands on one line of the file (`Command.wellFormed_of_parse`).

The argument goes through the tokens.  `Statement.ReadFrom` says where each part of a statement
comes from, a word or a run of tokens without line breaks; the forms of statements give it without
any thought of characters.  What the scanner knows of words and of runs does the rest.
-/

namespace Playbook

/-! ### Well-formed statements -/

/-- The names that a statement gives or calls. -/
def Statement.identifiers : Statement → List String
  | .assign name _ => [name]
  | .call name _ => [name]
  | .forEach item _ _ => [item]
  | _ => []

/-- The reference in a phrase. -/
def Phrase.expressions : Phrase → List String
  | .literal _ => []
  | .reference expression => [expression]

/-- The expression in a value. -/
def Value.expressions : Value → List String
  | .expr expression => [expression]
  | .str _ | .bool _ | .array _ => []

/-- The texts that a statement keeps as they are written: conditions, iterables, references,
right-hand sides and arguments of calls. -/
def Statement.expressions : Statement → List String
  | .ask question => question.expressions
  | .createFile _ content => content.expressions
  | .assign _ value => value.expressions
  | .call _ args => args
  | .ifThen condition _ | .ifElse condition _ _ | .whileLoop condition _ => [condition]
  | .forEach _ iterable _ => [iterable]
  | .confirm _ | .stop | .waitForResponse | .task _ | .parallel _ | .unknown _ => []

/-- A task that is written out and described, or that names a file and carries nothing else. -/
def Task.IsWritten (t : Task) : Prop :=
  (t.file = none ∧ t.description ≠ "") ∨
    ((∃ file, t.file = some file ∧ file ≠ "") ∧ t.description = "" ∧ t.body = [])

/-- What holds of every statement of a command that was read. -/
structure Statement.WellFormed (s : Statement) : Prop where
  known : ∀ kind, s ≠ .unknown kind
  isName : ∀ name ∈ s.identifiers, isName name.toList = true
  isTrimmed : ∀ text ∈ s.expressions, text ≠ "" ∧ Text.trim text.toList = text.toList
  isWritten : ∀ t, s = .task t → Task.IsWritten t

/-- A text that is part of one line of a source, and so holds no line break. -/
structure Text.IsOnOneLine (source text : List Char) : Prop where
  part : ∃ line ∈ Text.lines source, text <:+: line
  not_mem : '\n' ∉ text

theorem Text.isOnOneLine_of_mem {source line text : List Char} (hline : line ∈ Text.lines source)
    (h : text <:+: line) : Text.IsOnOneLine source text :=
  ⟨⟨line, hline, h⟩, fun hmem => Text.not_mem_of_mem_lines hline (h.subset hmem)⟩

/-! ### Texts of runs -/

section Runs

open Token

variable {run : List Token}

theorem infix_span_of_literal? {content : List Char} (h : literal? run = some content) :
    content <:+: span run := by
  unfold literal? at h
  split at h
  · rename_i t
    split at h
    · rename_i mark _ hlexeme
      cases h
      rw [span_cons, hlexeme]
      exact ⟨[mark], [mark], by simp [Lexeme.text]⟩
    · cases h
  · cases h

theorem infix_span_of_arrayInterior? {interior : List Char}
    (h : arrayInterior? run = some interior) : interior <:+: span run := by
  obtain ⟨inner, hinner, h⟩ := Option.bind_eq_some_iff.1 h
  obtain ⟨-, rfl⟩ := after?_eq_some_iff.1 hinner
  split at h
  · cases h
    cases run with
    | nil => exact List.nil_infix
    | cons t rest =>
      rw [span_cons]
      exact (List.dropLast_prefix _).isInfix.trans (List.suffix_append ..).isInfix
  · cases h

theorem infix_unquote (item : List Char) : unquote item <:+: item := by
  unfold unquote
  extract_lets opened
  have hopened : opened <:+ item := by
    unfold opened
    split
    · rename_i c rest
      split
      · exact List.suffix_cons c rest
      · exact List.suffix_rfl
    · exact List.suffix_rfl
  split
  · split
    · exact (List.dropLast_prefix opened).isInfix.trans hopened.isInfix
    · exact hopened.isInfix
  · exact List.nil_infix

theorem infix_of_mem_arrayItems {interior : List Char} {item : String}
    (h : item ∈ arrayItems interior) : item.toList <:+: interior := by
  unfold arrayItems at h
  split at h
  · cases h
  · obtain ⟨piece, hpiece, rfl⟩ := List.mem_map.1 h
    rw [String.toList_ofList]
    exact (infix_unquote _).trans
      ((Text.trim_isInfix piece).trans (Text.infix_of_mem_splitOn hpiece))

theorem Phrase.eq_span_of_mem {text : String} (h : text ∈ (Phrase.ofTokens run).expressions) :
    text = String.ofList (span run) := by
  unfold Phrase.ofTokens at h
  split at h
  · cases h
  · exact List.mem_singleton.1 h

theorem Phrase.infix_span (run : List Token) : (Phrase.ofTokens run).text.toList <:+: span run := by
  unfold Phrase.ofTokens
  split
  · rename_i content hcontent
    rw [Phrase.text, String.toList_ofList]
    exact infix_span_of_literal? hcontent
  · rw [Phrase.text, String.toList_ofList]

theorem Value.eq_span_of_mem {text : String} (h : text ∈ (Value.ofTokens run).expressions) :
    text = String.ofList (span run) := by
  unfold Value.ofTokens at h
  split at h
  · cases h
  · split at h
    · cases h
    · split at h
      · cases h
      · exact List.mem_singleton.1 h

theorem Value.infix_span {text : String} (h : text ∈ (Value.ofTokens run).texts) :
    text.toList <:+: span run := by
  unfold Value.ofTokens at h
  split at h
  · rename_i content hcontent
    rw [List.mem_singleton.1 h, String.toList_ofList]
    exact infix_span_of_literal? hcontent
  · split at h
    · cases h
    · split at h
      · rename_i interior hinterior
        exact (infix_of_mem_arrayItems h).trans (infix_span_of_arrayInterior? hinterior)
      · rw [List.mem_singleton.1 h, String.toList_ofList]

end Runs

/-! ### Where a statement comes from -/

namespace Token

variable {tokens all run : List Token} {name : String} {text : List Char}

/-- A name that is a word among the tokens. -/
def IsNameIn (all : List Token) (name : String) : Prop :=
  ∃ t ∈ all, t.lexeme = .word name.toList ∧ isIdentifier name.toList = true

/-- A text that is part of a run of the tokens. -/
def IsTextIn (all : List Token) (text : List Char) : Prop :=
  ∃ run, Within all run ∧ text <:+: span run

theorem IsNameIn.mono (h : IsNameIn tokens name) (hpart : tokens <:+: all) :
    IsNameIn all name := by
  obtain ⟨t, ht, hname⟩ := h
  exact ⟨t, hpart.subset ht, hname⟩

theorem IsTextIn.mono (h : IsTextIn tokens text) (hpart : tokens <:+: all) : IsTextIn all text := by
  obtain ⟨run, hrun, htext⟩ := h
  exact ⟨run, hrun.mono hpart, htext⟩

theorem IsNameIn.isTextIn (h : IsNameIn all name) : IsTextIn all name.toList := by
  obtain ⟨t, ht, hword, -⟩ := h
  refine ⟨[t], .singleton ht (by simp [isBreak, hword]), ?_⟩
  simp [hword, Lexeme.text]

theorem Within.isTextIn (h : Within all run) (htext : text <:+: span run) : IsTextIn all text :=
  ⟨run, h, htext⟩

end Token

/-- Where the parts of a statement come from among the tokens of a file. -/
structure Statement.ReadFrom (all : List Token) (s : Statement) : Prop where
  known : ∀ kind, s ≠ .unknown kind
  identifiers : ∀ name ∈ s.identifiers, Token.IsNameIn all name
  expressions : ∀ text ∈ s.expressions,
    ∃ run, Token.Within all run ∧ text = String.ofList (Token.span run)
  texts : ∀ text ∈ s.texts, Token.IsTextIn all text.toList
  isWritten : ∀ t, s = .task t → Task.IsWritten t

namespace Parser

open Token

variable {block : BlockReader} {line : Nat} {first : Token} {word : List Char}
  {tokens rest all : List Token} {s : Statement}

theorem Reads.isWritten (h : Reads block line word tokens s rest) :
    ∀ t, s = .task t → Task.IsWritten t := by
  rintro t rfl
  cases h with
  | taskFile hw h hpath | taskFileFor hw h hpath hagent =>
    exact .inr ⟨⟨_, rfl, by simp⟩, rfl, rfl⟩
  | inlineTask hw h hdescription hbody => exact .inl ⟨rfl, by simp [Task.inline]⟩

theorem within_of_iteration? {name : List Char} {iterable : String}
    (h : iteration? tokens = some (name, iterable, rest)) :
    IsNameIn tokens (String.ofList name) ∧
      ∃ run, Within tokens run ∧ iterable = String.ofList (span run) := by
  obtain ⟨named, keyword, more, run, rfl, hnamed, hname, -, hrun, hne, rfl⟩ :=
    iteration?_eq_some_iff.1 h
  refine ⟨⟨named, List.mem_cons_self .., by simpa using hnamed, by simpa using hname⟩, run, ?_, rfl⟩
  have hmore : more <:+ named :: keyword :: more :=
    (List.suffix_cons keyword more).trans (List.suffix_cons named _)
  exact (within_of_takeNested hne hrun).mono hmore.isInfix

theorem Reads.identifiers (hfirst : first.lexeme = .word word)
    (h : Reads block line word tokens s rest) :
    ∀ name ∈ s.identifiers, IsNameIn (first :: tokens) name := by
  have hname : isIdentifier word = true → IsNameIn (first :: tokens) (String.ofList word) :=
    fun hword => ⟨first, List.mem_cons_self .., by simpa using hfirst, by simpa using hword⟩
  cases h with
  | assign hword h hrun hne => exact List.forall_mem_singleton.2 (hname hword)
  | call hw hword h => exact List.forall_mem_singleton.2 (hname hword)
  | forEach hw h hbody =>
    have hitem := (within_of_iteration? h).1
    exact List.forall_mem_singleton.2 (hitem.mono (List.suffix_cons first tokens).isInfix)
  | _ => nofun

theorem Reads.expressions (h : Reads block line word tokens s rest) :
    ∀ text ∈ s.expressions, ∃ run, Within tokens run ∧ text = String.ofList (span run) := by
  cases h with
  | @ask question _ hw h =>
    have hrun := (within_of_arguments? h).2 question (by simp)
    exact fun text ht => ⟨question, hrun, Phrase.eq_span_of_mem ht⟩
  | @createFile filename content _ _ hw h hname =>
    have hrun := (within_of_arguments? h).2 content (by simp)
    exact fun text ht => ⟨content, hrun, Phrase.eq_span_of_mem ht⟩
  | @assign value run _ hword h hrun hne =>
    have hwithin := (within_of_takeNested hne hrun).mono (suffix_of_after? h).isInfix
    exact fun text ht => ⟨run, hwithin, Value.eq_span_of_mem ht⟩
  | call hw hword h =>
    intro text ht
    obtain ⟨arg, harg, rfl⟩ := List.mem_map.1 ht
    exact ⟨arg, (within_of_arguments? h).2 arg harg, rfl⟩
  | ifThen hw h hbody helse | whileLoop hw h hbody | ifElse hw h hbody helse hotherwise =>
    exact List.forall_mem_singleton.2 (within_of_condition? h).2
  | forEach hw h hbody => exact List.forall_mem_singleton.2 (within_of_iteration? h).2
  | _ => nofun

theorem Reads.texts (hfirst : first.lexeme = .word word)
    (h : Reads block line word tokens s rest) :
    ∀ text ∈ s.texts, IsTextIn (first :: tokens) text.toList := by
  have hpart : tokens <:+: first :: tokens := (List.suffix_cons first tokens).isInfix
  have hname : ∀ name ∈ s.identifiers, IsTextIn (first :: tokens) name.toList :=
    fun name hname => (h.identifiers hfirst name hname).isTextIn
  have hexpression : ∀ text ∈ s.expressions, IsTextIn (first :: tokens) text.toList := by
    intro text ht
    obtain ⟨run, hrun, rfl⟩ := h.expressions text ht
    exact (hrun.isTextIn (by rw [String.toList_ofList])).mono hpart
  have hphrase : ∀ {run}, Within tokens run →
      IsTextIn (first :: tokens) (Phrase.ofTokens run).text.toList :=
    fun {run} hrun => (hrun.isTextIn (Phrase.infix_span run)).mono hpart
  have hliteral : ∀ {run content}, Within tokens run → literal? run = some content →
      IsTextIn (first :: tokens) (String.ofList content).toList := by
    intro run content hrun hcontent
    refine (hrun.isTextIn ?_).mono hpart
    rw [String.toList_ofList]
    exact infix_span_of_literal? hcontent
  cases h with
  | ask hw h | confirm hw h =>
    exact List.forall_mem_singleton.2 (hphrase ((within_of_arguments? h).2 _ (by simp)))
  | createFile hw h hfile =>
    refine List.forall_mem_cons.2 ⟨hliteral ((within_of_arguments? h).2 _ (by simp)) hfile, ?_⟩
    exact List.forall_mem_singleton.2 (hphrase ((within_of_arguments? h).2 _ (by simp)))
  | assign hword h hrun hne =>
    have hwithin := (within_of_takeNested hne hrun).mono (suffix_of_after? h).isInfix
    refine List.forall_mem_cons.2 ⟨hname _ (List.mem_singleton_self _), fun text ht => ?_⟩
    exact (hwithin.isTextIn (Value.infix_span ht)).mono hpart
  | call hw hword h | forEach hw h hbody =>
    exact List.forall_mem_cons.2 ⟨hname _ (List.mem_singleton_self _), hexpression⟩
  | ifThen hw h hbody helse | whileLoop hw h hbody | ifElse hw h hbody helse hotherwise =>
    exact hexpression
  | taskFile hw h hpath | taskFileFor hw h hpath hagent =>
    -- the description is empty, and so part of anything
    have hhere : Within (first :: tokens) [first] :=
      .singleton (List.mem_cons_self ..) (by simp [isBreak, hfirst])
    refine List.forall_mem_cons.2 ⟨hhere.isTextIn List.nil_infix, List.forall_mem_singleton.2 ?_⟩
    exact hliteral ((within_of_arguments? h).2 _ (by simp)) hpath
  | inlineTask hw h hdescription hbody =>
    have hmem := (suffix_of_leadingAgent? h).subset (List.mem_cons_self ..)
    refine List.forall_mem_singleton.2 (hliteral (.singleton hmem ?_) hdescription)
    exact not_isBreak_of_literal? hdescription
  | stop | waitForResponse | parallel => exact List.forall_mem_nil _

theorem isNameIn_of_command {c : Command} (h : command tokens = .ok c) :
    IsNameIn tokens c.name := by
  obtain ⟨first, more, name, inner, body, _, hskip, hheader, -, -, -, rfl⟩ :=
    command_eq_ok_iff.1 h
  obtain ⟨keyword, named, rest, he, -, hnamed, hname, -⟩ := header?_eq_some_iff.1 hheader
  refine ⟨named, (skipBreaks_suffix tokens).subset ?_, by simpa using hnamed, by simpa using hname⟩
  rw [hskip, he]
  simp

/-- The forms of statements take their parts from words and runs of tokens. -/
theorem holdsWithin_readFrom (all : List Token) : HoldsWithin all (Statement.ReadFrom all) := by
  intro block line first word tokens s rest hall hfirst h
  have hpart : first :: tokens <:+: all := hall.isInfix
  exact
    { known := by
        rintro kind rfl
        cases h
      identifiers := fun name hname => (h.identifiers hfirst name hname).mono hpart
      expressions := by
        intro text ht
        obtain ⟨run, hrun, he⟩ := h.expressions text ht
        exact ⟨run, (hrun.mono (List.suffix_cons first tokens).isInfix).mono hpart, he⟩
      texts := fun text ht => (h.texts hfirst text ht).mono hpart
      isWritten := h.isWritten }

end Parser

/-! ### Commands -/

section Scanned

open Token

variable {source : List Char} {scanned : Scan} {run : List Token}

theorem standsOn_of_within (h : scan source = .ok scanned) (hrun : Within scanned.tokens run) :
    StandsOn (Text.splitOn '\n' source) 1 run :=
  standsOn_of_scanLines h hrun.part hrun.ne_nil hrun.not_isBreak

theorem isFirm_of_within (h : scan source = .ok scanned) (hrun : Within scanned.tokens run) :
    Text.IsFirm (span run) :=
  isFirm_span hrun.ne_nil (standsOn_of_within h hrun).isRead

theorem isOnOneLine_of_isTextIn (h : scan source = .ok scanned) {text : List Char}
    (htext : IsTextIn scanned.tokens text) : Text.IsOnOneLine source text := by
  obtain ⟨run, hrun, htext⟩ := htext
  obtain ⟨line, hline, hspan⟩ := (standsOn_of_within h hrun).exists_line hrun.ne_nil
  exact Text.isOnOneLine_of_mem hline (htext.trans hspan)

theorem isName_of_isNameIn (h : scan source = .ok scanned) {name : String}
    (hname : IsNameIn scanned.tokens name) : isName name.toList = true := by
  obtain ⟨t, ht, hword, hidentifier⟩ := hname
  have hrun : Within scanned.tokens [t] := .singleton ht (by simp [isBreak, hword])
  have hread := (standsOn_of_within h hrun).isRead t (List.mem_singleton_self t)
  rw [isName, hidentifier, hread.isWord _ hword]
  rfl

theorem Statement.ReadFrom.wellFormed (h : scan source = .ok scanned) {s : Statement}
    (hs : s.ReadFrom scanned.tokens) : s.WellFormed where
  known := hs.known
  isName := fun name hname => isName_of_isNameIn h (hs.identifiers name hname)
  isTrimmed := by
    intro text ht
    obtain ⟨run, hrun, rfl⟩ := hs.expressions text ht
    have hfirm := isFirm_of_within h hrun
    refine ⟨by simpa using hfirm.ne_nil, ?_⟩
    rw [String.toList_ofList, hfirm.trim_eq]
  isWritten := hs.isWritten

end Scanned

/-- A command that was read has a name, is well-formed at every depth, and every text in it is part
of one line of the file. -/
theorem Command.wellFormed_of_parse {source : String} {c : Command}
    (h : Command.parse source = .ok c) :
    isName c.name.toList = true ∧ c.Everywhere Statement.WellFormed ∧
      Text.IsOnOneLine source.toList c.name.toList ∧
      c.Everywhere fun s => ∀ text ∈ s.texts, Text.IsOnOneLine source.toList text.toList := by
  obtain ⟨scanned, hscan, hc⟩ := Command.parse_eq_ok_iff.1 h
  have hbody := Parser.everywhere_of_command (Parser.holdsWithin_readFrom scanned.tokens) hc
  have hname := Parser.isNameIn_of_command hc
  exact ⟨isName_of_isNameIn hscan hname, hbody.imp fun s hs => hs.wellFormed hscan,
    isOnOneLine_of_isTextIn hscan hname.isTextIn,
    hbody.imp fun s hs text ht => isOnOneLine_of_isTextIn hscan (hs.texts text ht)⟩

/-- A file with tasks of both sorts inside a block, an array and an escape in a literal. -/
def mixedSource : String :=
  "command c_1 \x7b\n a = [ 'x', \"y\" ]\n for b in a[0] \x7b\n  task(\"f\", plan)\n" ++
    "  task \"\\\"t\" \x7b // u\n  \x7d\n \x7d\n\x7d"

theorem Command.wellFormed_of_parse_mixedSource :
    ∃ c, Command.parse mixedSource = .ok c ∧ isName c.name.toList = true ∧
      c.Everywhere Statement.WellFormed ∧ Text.IsOnOneLine mixedSource.toList c.name.toList ∧
      c.Everywhere fun s => ∀ text ∈ s.texts, Text.IsOnOneLine mixedSource.toList text.toList := by
  obtain ⟨c, hc⟩ : ∃ c, Command.parse mixedSource = .ok c :=
    Outcome.exists_ok_of_isOk (by decide +kernel)
  exact ⟨c, hc, Command.wellFormed_of_parse hc⟩

end Playbook
