import Mathlib.Logic.Relation
import Playbook.Proofs.Parser.Forms
import Playbook.Proofs.Token.Edits

/-!
# Layout is invisible

A source reads as the same command in every layout: lines of blanks and comments may stand anywhere
between its lines, and each line may get blanks at both ends and a comment behind it.  Nothing of
what is read depends on the layout of the tokens.  Each form of statement is read from related
tokens alike and leaves related tokens (`Reads.relaid`), and so is a block, by induction on the
bound (`readsRelaid_block`); with more breaks there are more tokens, so the bound never shrinks.
-/

namespace Playbook

open Token

/-! ### Values of runs -/

section Runs

variable {run other : List Token} (h : Alike run other)

include h

theorem Phrase.ofTokens_eq : Phrase.ofTokens run = Phrase.ofTokens other := by
  rw [Phrase.ofTokens, Phrase.ofTokens, h.literal?_eq, h.span_eq]

theorem Value.ofTokens_eq : Value.ofTokens run = Value.ofTokens other := by
  rw [Value.ofTokens, Value.ofTokens, h.literal?_eq, h.word?_eq, h.arrayInterior?_eq, h.span_eq]

theorem Parser.agent?_eq : Parser.agent? run = Parser.agent? other := by
  rw [Parser.agent?, Parser.agent?, h.word?_eq]

end Runs

namespace Parser

theorem spans_eq {runs others : List (List Token)} (h : List.Forall₂ Alike runs others) :
    runs.map (fun a => String.ofList (span a)) = others.map fun a => String.ofList (span a) := by
  induction h with
  | nil => rfl
  | cons hrun _ ih => rw [List.map_cons, List.map_cons, hrun.span_eq, ih]

/-! ### The parts of statements -/

variable {beside : Bool} {ts us : List Token}

theorem condition?_relaid (h : Relaid true ts us) :
    Option.Rel (fun x y => x.1 = y.1 ∧ Relaid true x.2 y.2) (condition? ts) (condition? us) := by
  refine Outcome.rel_bind (h.after? .openParen) fun _ _ hinner => ?_
  refine Outcome.rel_bind hinner.runBefore? ?_
  rintro ⟨run, rest⟩ ⟨other, rest'⟩ ⟨hrun, hrest⟩
  dsimp only
  rw [hrun.isEmpty_eq, hrun.span_eq]
  split
  · exact .none
  · exact .some ⟨rfl, hrest⟩

theorem elseBlock?_relaid (h : Relaid beside ts us) :
    Option.Rel (fun x y => Relaid true x.2 y.2) (elseBlock? ts) (elseBlock? us) := by
  unfold elseBlock?
  rcases h.skipBreaks_cases with ⟨hts, hus⟩ | ⟨t, ts', u, us', hts, hus, hlexeme, hrest⟩
  · rw [hts, hus]
    exact .none
  · rw [hts, hus]
    dsimp only
    rw [hlexeme]
    split
    · rw [Option.map_eq_bind, Option.map_eq_bind]
      exact Outcome.rel_bind (hrest.after? .openBrace) fun _ _ hinner => .some hinner
    · exact .none

theorem leadingAgent?_relaid (h : Relaid true ts us) :
    Option.Rel (fun x y => x.1 = y.1 ∧ Relaid true x.2 y.2)
      (leadingAgent? ts) (leadingAgent? us) := by
  cases h with
  | nil h =>
    cases us with
    | nil => exact .some ⟨rfl, .nil h⟩
    | cons u us =>
      have hbreak : u.lexeme = .lineBreak := beq_iff_eq.1 (h u (List.mem_cons_self ..))
      rw [leadingAgent?, leadingAgent?, hbreak]
      exact .some ⟨rfl, .nil h⟩
  | @cons _ t u ts us hlexeme hgap h =>
    rw [leadingAgent?, leadingAgent?, ← hlexeme]
    split
    · next letters hword =>
      have ht : t.isBreak = false := by
        rw [isBreak, hword]
        rfl
      rw [ht] at h
      cases Agent.ofKeyword? (String.ofList letters) with
      | none => exact .none
      | some agent => exact .some ⟨rfl, h⟩
    · exact .some ⟨rfl, .cons hlexeme hgap h⟩

theorem exists_iteration? {after : List Token} {name : List Char} {iterable : String}
    (h : Relaid true ts us) (hi : iteration? ts = some (name, iterable, after)) :
    ∃ after', iteration? us = some (name, iterable, after') ∧ Relaid true after after' := by
  obtain ⟨first, keyword, rest, run, rfl, hfirst, hname, hkeyword, hrun, hne, rfl⟩ :=
    iteration?_eq_some_iff.1 hi
  obtain ⟨first', _, rfl, hfirst', -, h⟩ := h.of_cons (not_isBreak_of_word hfirst)
  obtain ⟨keyword', rest', rfl, hkeyword', -, h⟩ := h.of_cons (not_isBreak_of_word hkeyword)
  obtain ⟨halike, hafter⟩ := h.takeNested nestBrackets .openBrace 0
  rw [hrun] at halike hafter
  refine ⟨_, iteration?_eq_some_iff.2 ⟨first', keyword', rest', _, rfl,
    hfirst'.symm.trans hfirst, hname, hkeyword'.symm.trans hkeyword, rfl, ?_,
    congrArg String.ofList halike.span_eq⟩, hafter⟩
  rwa [← List.isEmpty_eq_false_iff, ← halike.isEmpty_eq, List.isEmpty_eq_false_iff]

theorem exists_header? {first first' : Token} (hfirst : first.lexeme = first'.lexeme)
    {inner : List Token} {name : List Char} (h : Relaid true ts us)
    (hh : header? (first :: ts) = some (name, inner)) :
    ∃ inner', header? (first' :: us) = some (name, inner') ∧ Relaid true inner inner' := by
  obtain ⟨_, named, rest, he, hkeyword, hnamed, hname, hinner⟩ := header?_eq_some_iff.1 hh
  obtain ⟨rfl, rfl⟩ := List.cons.inj he
  obtain ⟨named', rest', rfl, hnamed', -, h⟩ := h.of_cons (not_isBreak_of_word hnamed)
  obtain ⟨inner', hinner', hrelaid⟩ := Outcome.exists_some_of_rel (h.after? .openBrace) hinner
  exact ⟨inner', header?_eq_some_iff.2 ⟨first', named', rest', rfl, hfirst.symm.trans hkeyword,
    hnamed'.symm.trans hnamed, hname, hinner'⟩, hrelaid⟩

theorem exists_arguments? {args : List (List Token)} {rest : List Token} (h : Relaid true ts us)
    (ha : arguments? ts = some (args, rest)) :
    ∃ args' rest', arguments? us = some (args', rest') ∧ List.Forall₂ Alike args args' ∧
      Relaid true rest rest' := by
  obtain ⟨⟨args', rest'⟩, ha', hargs, hrest⟩ := Outcome.exists_some_of_rel h.arguments? ha
  exact ⟨args', rest', ha', hargs, hrest⟩

theorem exists_condition? {condition : String} {after : List Token} (h : Relaid true ts us)
    (hc : condition? ts = some (condition, after)) :
    ∃ after', condition? us = some (condition, after') ∧ Relaid true after after' := by
  obtain ⟨⟨_, after'⟩, hc', hcondition, hafter⟩ :=
    Outcome.exists_some_of_rel (condition?_relaid h) hc
  obtain rfl : condition = _ := hcondition
  exact ⟨after', hc', hafter⟩

/-! ### Statements -/

/-- A reader of blocks reads in any layout what another one reads in one. -/
def ReadsRelaid (block block' : BlockReader) : Prop :=
  ∀ {opened ts us body rest} (opened' : Nat), Relaid false ts us →
    block opened ts = .ok (body, rest) →
      ∃ rest', block' opened' us = .ok (body, rest') ∧ Relaid true rest rest'

variable {block block' : BlockReader} {line line' : Nat} {rest : List Token}

theorem exists_braced (hblock : ReadsRelaid block block') {form : Form} {body : List Statement}
    (h : Relaid true ts us) (hb : braced block form line ts = .ok (body, rest)) :
    ∃ rest', braced block' form line' us = .ok (body, rest') ∧ Relaid true rest rest' := by
  obtain ⟨inner, hinner, hbody⟩ := block_of_braced hb
  obtain ⟨inner', hinner', hrelaid⟩ := Outcome.exists_some_of_rel (h.after? .openBrace) hinner
  rw [braced, hinner']
  exact hblock line' hrelaid.weaken hbody

/-- A statement has the same form in another layout. -/
theorem Reads.relaid (hblock : ReadsRelaid block block') {word : List Char} {s : Statement}
    (hs : Reads block line word ts s rest) (h : Relaid true ts us) :
    ∃ rest', Reads block' line' word us s rest' ∧ Relaid true rest rest' := by
  cases hs with
  | ask hw ha =>
    obtain ⟨_, rest', ha', hargs, hrest⟩ := exists_arguments? h ha
    obtain _ | ⟨hquestion, _ | _⟩ := hargs
    rw [Phrase.ofTokens_eq hquestion]
    exact ⟨rest', .ask hw ha', hrest⟩
  | confirm hw ha =>
    obtain ⟨_, rest', ha', hargs, hrest⟩ := exists_arguments? h ha
    obtain _ | ⟨hmessage, _ | _⟩ := hargs
    rw [Phrase.ofTokens_eq hmessage]
    exact ⟨rest', .confirm hw ha', hrest⟩
  | createFile hw ha hname =>
    obtain ⟨_, rest', ha', hargs, hrest⟩ := exists_arguments? h ha
    obtain _ | ⟨hfilename, _ | ⟨hcontent, _ | _⟩⟩ := hargs
    rw [hfilename.literal?_eq] at hname
    rw [Phrase.ofTokens_eq hcontent]
    exact ⟨rest', .createFile hw ha' hname, hrest⟩
  | assign hword hv hrun hne =>
    obtain ⟨value', hv', hvalue⟩ := Outcome.exists_some_of_rel (h.after? .assign) hv
    obtain ⟨halike, hrest⟩ := hvalue.takeNested nestBrackets .closeBrace 0
    rw [hrun] at halike hrest
    rw [Value.ofTokens_eq halike]
    refine ⟨_, .assign hword hv' rfl ?_, hrest⟩
    rwa [← List.isEmpty_eq_false_iff, ← halike.isEmpty_eq, List.isEmpty_eq_false_iff]
  | call hw hword ha =>
    obtain ⟨args', rest', ha', hargs, hrest⟩ := exists_arguments? h ha
    rw [spans_eq hargs]
    exact ⟨rest', .call hw hword ha', hrest⟩
  | ifThen hw hc hbody helse =>
    obtain ⟨after', hc', hafter⟩ := exists_condition? h hc
    obtain ⟨rest', hbody', hrest⟩ := exists_braced hblock hafter hbody
    have helse' := Outcome.eq_none_of_rel (elseBlock?_relaid hrest) helse
    exact ⟨rest', .ifThen hw hc' hbody' helse', hrest⟩
  | ifElse hw hc hbody helse hotherwise =>
    obtain ⟨after', hc', hafter⟩ := exists_condition? h hc
    obtain ⟨between', hbody', hbetween⟩ := exists_braced hblock hafter hbody
    obtain ⟨⟨elseLine', inner'⟩, helse', hinner⟩ :=
      Outcome.exists_some_of_rel (elseBlock?_relaid hbetween) helse
    obtain ⟨rest', hotherwise', hrest⟩ := hblock elseLine' hinner.weaken hotherwise
    exact ⟨rest', .ifElse hw hc' hbody' helse' hotherwise', hrest⟩
  | whileLoop hw hc hbody =>
    obtain ⟨after', hc', hafter⟩ := exists_condition? h hc
    obtain ⟨rest', hbody', hrest⟩ := exists_braced hblock hafter hbody
    exact ⟨rest', .whileLoop hw hc' hbody', hrest⟩
  | forEach hw hi hbody =>
    obtain ⟨after', hi', hafter⟩ := exists_iteration? h hi
    obtain ⟨rest', hbody', hrest⟩ := exists_braced hblock hafter hbody
    exact ⟨rest', .forEach hw hi' hbody', hrest⟩
  | stop hw hnext =>
    refine ⟨us, .stop hw ?_, h⟩
    -- the tokens may have ended here, and a break follows in the other layout
    rcases h.next?_eq with hsame | ⟨-, hbreak⟩
    · rwa [hsame]
    · simp [hbreak]
  | waitForResponse hw ha =>
    obtain ⟨_, rest', ha', hargs, hrest⟩ := exists_arguments? h ha
    obtain _ | _ := hargs
    exact ⟨rest', .waitForResponse hw ha', hrest⟩
  | taskFile hw ha hpath =>
    obtain ⟨_, rest', ha', hargs, hrest⟩ := exists_arguments? h ha
    obtain _ | ⟨halike, _ | _⟩ := hargs
    rw [halike.literal?_eq] at hpath
    exact ⟨rest', .taskFile hw ha' hpath, hrest⟩
  | taskFileFor hw ha hpath hagent =>
    obtain ⟨_, rest', ha', hargs, hrest⟩ := exists_arguments? h ha
    obtain _ | ⟨halike, _ | ⟨hname, _ | _⟩⟩ := hargs
    rw [halike.literal?_eq] at hpath
    rw [agent?_eq hname] at hagent
    exact ⟨rest', .taskFileFor hw ha' hpath hagent, hrest⟩
  | inlineTask hw ha hdescription hbody =>
    obtain ⟨⟨_, _⟩, ha', hagent, hafter⟩ :=
      Outcome.exists_some_of_rel (leadingAgent?_relaid h) ha
    obtain ⟨first', after', rfl, hlexeme, -, hafter⟩ :=
      hafter.of_cons (not_isBreak_of_literal? hdescription)
    obtain ⟨rest', hbody', hrest⟩ := exists_braced hblock hafter hbody
    rw [literal?, hlexeme] at hdescription
    cases hagent
    exact ⟨rest', .inlineTask hw ha' hdescription hbody', hrest⟩
  | parallel hw ho hbody htasks =>
    obtain ⟨inner', ho', hinner⟩ := Outcome.exists_some_of_rel (h.after? .openBrace) ho
    obtain ⟨rest', hbody', hrest⟩ := hblock line' hinner.weaken hbody
    exact ⟨rest', .parallel hw ho' hbody' htasks, hrest⟩

theorem exists_endOfStatement (h : Relaid true ts us) (he : endOfStatement ts = .ok rest) :
    ∃ rest', endOfStatement us = .ok rest' ∧ Relaid false rest rest' := by
  cases h with
  | nil h =>
    cases he
    cases us with
    | nil => exact ⟨[], rfl, .nil h⟩
    | cons u us =>
      rw [List.forall_mem_cons] at h
      rw [endOfStatement, if_pos h.1]
      exact ⟨us, rfl, .nil h.2⟩
  | @cons _ t u ts us hlexeme hgap h =>
    rw [endOfStatement] at he ⊢
    rw [← isBreak_eq hlexeme, ← is_eq hlexeme]
    split at he
    · next ht =>
      cases he
      exact ⟨us, if_pos ht, h.weaken⟩
    · next ht =>
      rw [if_neg ht]
      split at he
      · next hclose =>
        cases he
        exact ⟨u :: us, if_pos hclose, .cons hlexeme nofun h⟩
      · cases he

theorem exists_statement (hblock : ReadsRelaid block block') {first first' : Token}
    (hfirst : first.lexeme = first'.lexeme) {s : Statement} (h : Relaid true ts us)
    (hs : statement block first ts = .ok (s, rest)) :
    ∃ rest', statement block' first' us = .ok (s, rest') ∧ Relaid false rest rest' := by
  obtain ⟨letters, after, hword, hreads, hend⟩ := statement_eq_ok_iff.1 hs
  obtain ⟨after', hreads', hafter⟩ := hreads.relaid hblock h
  obtain ⟨rest', hend', hrest⟩ := exists_endOfStatement hafter hend
  exact ⟨rest',
    statement_eq_ok_iff.2 ⟨letters, after', hfirst.symm.trans hword, hreads', hend'⟩, hrest⟩

/-- A block is read in another layout with any bound that is not smaller. -/
theorem readsRelaid_block {bound bound' : Nat} (hbound : bound ≤ bound') :
    ReadsRelaid (Parser.block bound) (Parser.block bound') := by
  induction bound generalizing bound' with
  | zero =>
    intro _ _ _ _ _ _ _ hb
    cases hb
  | succ bound ih =>
    obtain ⟨bound', rfl⟩ := Nat.exists_eq_add_one.2 (Nat.lt_of_lt_of_le (Nat.succ_pos bound) hbound)
    have hblock : ReadsRelaid (Parser.block bound) (Parser.block bound') :=
      ih (Nat.le_of_succ_le_succ hbound)
    intro opened ts us body rest opened' h hb
    rw [Parser.block] at hb ⊢
    rcases h.skipBreaks_cases with ⟨hts, -⟩ | ⟨t, ts', u, us', hts, hus, hlexeme, h⟩
    · rw [hts] at hb
      cases hb
    · rw [hts] at hb
      rw [hus]
      dsimp only at hb ⊢
      rw [← is_eq hlexeme]
      split at hb
      · next hclose =>
        cases hb
        exact ⟨us', if_pos hclose, h⟩
      · next hclose =>
        obtain ⟨⟨s, after⟩, hs, hb⟩ := Outcome.bind_eq_ok_iff.1 hb
        obtain ⟨⟨more, left⟩, hmore, hb⟩ := Outcome.bind_eq_ok_iff.1 hb
        cases hb
        obtain ⟨after', hs', hafter⟩ := exists_statement hblock hlexeme h hs
        obtain ⟨rest', hmore', hrest⟩ := hblock opened' hafter hmore
        refine ⟨rest', ?_, hrest⟩
        rw [if_neg hclose, hs']
        show (Parser.block bound' opened' after' >>= _) = _
        rw [hmore']
        rfl

/-! ### Whole files -/

theorem pairBraces_of_isBreak (h : ∀ u ∈ us, u.isBreak = true) : pairBraces [] us = .ok () := by
  induction us with
  | nil => rfl
  | cons u us ih =>
    rw [List.forall_mem_cons] at h
    rw [pairBraces, not_is_of_isBreak h.1, not_is_of_isBreak h.1]
    exact ih h.2

theorem pairBraces_relaid (h : Relaid beside ts us) {opened opened' : List Nat}
    (hlength : opened.length = opened'.length) (hp : pairBraces opened ts = .ok ()) :
    pairBraces opened' us = .ok () := by
  induction h generalizing opened opened' with
  | nil h =>
    -- all braces are closed, and the breaks that may follow hold none
    cases opened with
    | nil =>
      obtain rfl := List.eq_nil_of_length_eq_zero hlength.symm
      exact pairBraces_of_isBreak h
    | cons line opened => cases hp
  | @cons _ t u ts us hlexeme _ _ ih =>
    rw [pairBraces_cons] at hp ⊢
    rw [← is_eq hlexeme, ← is_eq hlexeme]
    by_cases hopen : t.is .openBrace = true
    · rw [if_pos hopen] at hp ⊢
      refine ih ?_ hp
      rw [List.length_cons, List.length_cons, hlength]
    · rw [if_neg hopen] at hp ⊢
      by_cases hclose : t.is .closeBrace = true
      · rw [if_pos hclose] at hp ⊢
        cases opened with
        | nil => cases hp
        | cons line outer =>
          obtain ⟨line', outer', rfl⟩ := List.exists_cons_of_length_eq_add_one hlength.symm
          exact ih (Nat.succ.inj hlength) hp
      · rw [if_neg hclose] at hp ⊢
        exact ih hlength hp
  | skip hbreak _ ih =>
    rw [pairBraces_cons, not_is_of_isBreak hbreak, not_is_of_isBreak hbreak]
    exact ih hlength hp

theorem endOfFile_relaid (h : Relaid beside ts us) (he : endOfFile ts = .ok ()) :
    endOfFile us = .ok () := by
  unfold endOfFile at he ⊢
  rcases h.skipBreaks_cases with ⟨-, hus⟩ | ⟨t, ts', u, us', hts, -⟩
  · rw [hus]
  · rw [hts] at he
    dsimp only at he
    split at he <;> cases he

/-- A command is read from its tokens in another layout. -/
theorem command_relaid {c : Command} (h : Relaid false ts us) (hc : command ts = .ok c) :
    command us = .ok c := by
  obtain ⟨first, more, name, inner, body, after, hts, hheader, hbraces, hbody, hend, rfl⟩ :=
    command_eq_ok_iff.1 hc
  rcases h.skipBreaks_cases with ⟨hnil, -⟩ | ⟨t, ts', u, us', hts', hus, hlexeme, hrest⟩
  · rw [hnil] at hts
    cases hts
  · obtain ⟨rfl, rfl⟩ := List.cons.inj (hts.symm.trans hts')
    obtain ⟨inner', hheader', hinner⟩ := exists_header? hlexeme hrest hheader
    have hbound : ts.length + 1 ≤ us.length + 1 := Nat.succ_le_succ h.length_le
    obtain ⟨after', hbody', hafter⟩ := readsRelaid_block hbound u.line hinner.weaken hbody
    exact command_eq_ok_iff.2 ⟨u, us', name, inner', body, after', hus, hheader',
      pairBraces_relaid h rfl hbraces, hbody', endOfFile_relaid hafter hend, rfl⟩

end Parser

namespace Command

theorem parse_of_layoutEdit {source source' : String} {c : Command} (h : LayoutEdit source source')
    (hc : Command.parse source = .ok c) : Command.parse source' = .ok c := by
  obtain ⟨s, hs, hcommand⟩ := parse_eq_ok_iff.1 hc
  obtain ⟨s', hs', hrelaid⟩ := h.exists_scan hs
  exact parse_eq_ok_iff.2 ⟨s', hs', Parser.command_relaid hrelaid hcommand⟩

/-- Whatever is done to the layout of a source, it reads as the same command. -/
theorem parse_of_layoutEdits {source source' : String} {c : Command}
    (h : Relation.ReflTransGen LayoutEdit source source') (hc : Command.parse source = .ok c) :
    Command.parse source' = .ok c := by
  induction h with
  | refl => exact hc
  | tail _ hedit ih => exact parse_of_layoutEdit hedit ih

/-- The lines of a source without superfluous layout, in which a string holds two slashes. -/
def bareLines : List (List Char) :=
  ["command c \x7b".toList, "x = \"a // b\"".toList, "if (y) \x7b".toList, "break".toList,
    "\x7d".toList, "else \x7b".toList, "z = [1,\t2]".toList, "\x7d".toList, "\x7d".toList]

/-- The same lines with blanks of several kinds and comments, also before an `else`. -/
def remarkedLines : List (List Char) :=
  ["// first \x7b".toList, "command c \x7b".toList,
    "\u3000x = \"a // b\"\r // \"second".toList, "if (y) \x7b".toList, "break".toList,
    "\x7d".toList, "\t// third".toList, "else \x7b".toList, "z = [1,\t2]".toList,
    "\x7d".toList, "\x7d".toList]

theorem layoutEdits_remarked :
    Relation.ReflTransGen LayoutEdit (sourceOfLines bareLines) (sourceOfLines remarkedLines) := by
  have hreturn : ∀ c ∈ ['\r', ' '], Text.isBlank c = true :=
    List.forall_mem_cons.2 ⟨by decide, List.forall_mem_singleton.2 (by decide)⟩
  have htab : ∀ c ∈ ['\t'], Text.isBlank c = true := List.forall_mem_singleton.2 (by decide)
  have hfirst : Text.Relays bareLines ("// first \x7b".toList :: bareLines) :=
    .insert [] bareLines (.comment (List.forall_mem_nil _) " first \x7b".toList)
  have hstart : Text.Relays ("// first \x7b".toList :: bareLines)
      ("// first \x7b".toList :: bareLines.modify 1 ('\u3000' :: ·)) :=
    .pad ["// first \x7b".toList, "command c \x7b".toList] (bareLines.drop 2)
      (.start (List.forall_mem_singleton.2 (by decide)))
  -- all but the line before the `else`
  have hsecond : Text.Relays ("// first \x7b".toList :: bareLines.modify 1 ('\u3000' :: ·))
      (remarkedLines.eraseIdx 6) :=
    .pad ["// first \x7b".toList, "command c \x7b".toList] (bareLines.drop 2)
      (.comment hreturn (by decide) " \"second".toList)
  have hthird : Text.Relays (remarkedLines.eraseIdx 6) remarkedLines :=
    .insert (remarkedLines.take 6) (bareLines.drop 5) (.comment htab " third".toList)
  exact .tail (.tail (.tail (.single (.of_relays hfirst (by decide) (by decide +kernel)))
    (.of_relays hstart (by decide) (by decide +kernel)))
    (.of_relays hsecond (by decide) (by decide +kernel)))
    (.of_relays hthird (by decide) (by decide +kernel))

theorem parse_of_layoutEdits_remarked :
    Relation.ReflTransGen LayoutEdit (sourceOfLines bareLines) (sourceOfLines remarkedLines) ∧
      ∃ c, Command.parse (sourceOfLines bareLines) = .ok c ∧
        Command.parse (sourceOfLines remarkedLines) = .ok c := by
  obtain ⟨c, hc⟩ : ∃ c, Command.parse (sourceOfLines bareLines) = .ok c :=
    Outcome.exists_ok_of_isOk (by decide +kernel)
  exact ⟨layoutEdits_remarked, c, hc, parse_of_layoutEdits layoutEdits_remarked hc⟩

end Command

end Playbook
