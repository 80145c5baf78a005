import Mathlib.Data.List.Infix
import Playbook.Proofs.Parser.Forms

/-!
# What a reader takes and what it leaves

A reader takes tokens from the front of a list, so that what it leaves is a suffix, and every run
that it hands on is a part of the list in which no line breaks.  With that, a fact about the forms
of statements may speak of the tokens of the file: `everywhere_of_command` carries it to every
depth of the command that is read.
-/

namespace Playbook

namespace Token

/-- A run of tokens that is part of a list and stands on one line. -/
structure Within (tokens run : List Token) : Prop where
  part : run <:+: tokens
  ne_nil : run ≠ []
  not_isBreak : ∀ t ∈ run, t.isBreak = false

namespace Within

variable {tokens others run : List Token}

theorem mono (h : Within tokens run) (hpart : tokens <:+: others) : Within others run :=
  ⟨h.part.trans hpart, h.ne_nil, h.not_isBreak⟩

theorem of_part (h : Within tokens run) {inner : List Token} (hpart : inner <:+: run)
    (hne : inner ≠ []) : Within tokens inner :=
  ⟨hpart.trans h.part, hne, fun t ht => h.not_isBreak t (hpart.subset ht)⟩

theorem singleton {t : Token} (ht : t ∈ tokens) (hb : t.isBreak = false) : Within tokens [t] := by
  obtain ⟨before, after, rfl⟩ := List.append_of_mem ht
  exact ⟨⟨before, after, by simp⟩, List.cons_ne_nil t [], List.forall_mem_singleton.2 hb⟩

end Within

variable {tokens rest run : List Token} {stop : Symbol}

theorem suffix_of_after? {s : Symbol} (h : after? s tokens = some rest) : rest <:+ tokens := by
  obtain ⟨-, rfl⟩ := after?_eq_some_iff.1 h
  exact List.tail_suffix tokens

theorem skipBreaks_suffix (tokens : List Token) : skipBreaks tokens <:+ tokens :=
  List.dropWhile_suffix isBreak

/-- A run is cut off from the front, and no line breaks in it. -/
theorem append_of_takeNested {nest : Nat → Lexeme → Nat} {depth : Nat}
    (h : takeNested nest stop depth tokens = (run, rest)) :
    run ++ rest = tokens ∧ ∀ t ∈ run, t.isBreak = false := by
  induction tokens generalizing depth run rest with
  | nil =>
    cases h
    simp
  | cons t more ih =>
    rw [takeNested] at h
    split at h
    · cases h
      simp
    · rename_i hgo
      have hbreak : t.isBreak = false := by
        rw [Bool.or_eq_true, not_or] at hgo
        simpa using hgo.1
      cases h
      obtain ⟨happend, hrun⟩ := ih (rfl : takeNested nest stop (nest depth t.lexeme) more = _)
      exact ⟨by rw [List.cons_append, happend], List.forall_mem_cons.2 ⟨hbreak, hrun⟩⟩

theorem within_of_takeNested {nest : Nat → Lexeme → Nat} {depth : Nat} (hne : run ≠ [])
    (h : takeNested nest stop depth tokens = (run, rest)) : Within tokens run := by
  obtain ⟨rfl, hrun⟩ := append_of_takeNested h
  exact ⟨(List.prefix_append run rest).isInfix, hne, hrun⟩

theorem suffix_of_takeNested {nest : Nat → Lexeme → Nat} {depth : Nat}
    (h : takeNested nest stop depth tokens = (run, rest)) : rest <:+ tokens := by
  obtain ⟨rfl, -⟩ := append_of_takeNested h
  exact List.suffix_append run rest

theorem exists_of_runBefore? {nest : Nat → Lexeme → Nat}
    (h : runBefore? nest stop tokens = some (run, rest)) :
    ∃ t, takeNested nest stop 0 tokens = (run, t :: rest) ∧ t.is stop = true := by
  unfold runBefore? at h
  split at h
  · rename_i t after htake
    split at h
    · rename_i hstop
      cases h
      exact ⟨t, htake, hstop⟩
    · cases h
  · cases h

/-- The first of the pieces between commas stands in front, and all are parts of the run. -/
theorem cutAtCommas_parts (depth : Nat) (run : List Token) :
    ∃ first more, cutAtCommas depth run = first :: more ∧ first <+: run ∧
      ∀ piece ∈ more, piece <:+: run := by
  induction run generalizing depth with
  | nil => exact ⟨[], [], rfl, List.prefix_rfl, List.forall_mem_nil _⟩
  | cons t run ih =>
    rw [cutAtCommas]
    split
    · obtain ⟨first, more, hcut, hfirst, hmore⟩ := ih depth
      refine ⟨[], first :: more, by rw [hcut], List.nil_prefix, ?_⟩
      refine List.forall_mem_cons.2 ⟨List.infix_cons hfirst.isInfix, fun piece hp => ?_⟩
      exact List.infix_cons (hmore piece hp)
    · obtain ⟨first, more, hcut, hfirst, hmore⟩ := ih (nestBrackets depth t.lexeme)
      refine ⟨t :: first, more, by rw [hcut]; rfl, List.cons_prefix_cons.2 ⟨rfl, hfirst⟩, ?_⟩
      exact fun piece hp => List.infix_cons (hmore piece hp)

theorem part_of_mem_cutAtCommas {depth : Nat} {piece : List Token}
    (h : piece ∈ cutAtCommas depth run) : piece <:+: run := by
  obtain ⟨first, more, hcut, hfirst, hmore⟩ := cutAtCommas_parts depth run
  rw [hcut] at h
  rcases List.mem_cons.1 h with rfl | h
  · exact hfirst.isInfix
  · exact hmore piece h

/-- Arguments are runs within the tokens, and what follows them is left. -/
theorem within_of_arguments? {args : List (List Token)}
    (h : arguments? tokens = some (args, rest)) :
    rest <:+ tokens ∧ ∀ arg ∈ args, Within tokens arg := by
  obtain ⟨inner, hinner, h⟩ := Option.bind_eq_some_iff.1 h
  obtain ⟨⟨run, after⟩, hrun, h⟩ := Option.bind_eq_some_iff.1 h
  obtain ⟨t, htake, -⟩ := exists_of_runBefore? hrun
  have hinner := suffix_of_after? hinner
  have hafter : after <:+ tokens :=
    (List.suffix_cons t after).trans ((suffix_of_takeNested htake).trans hinner)
  dsimp only at h
  split at h
  · cases h
    exact ⟨hafter, List.forall_mem_nil _⟩
  · rename_i hne
    have hwithin := (within_of_takeNested (by simpa using hne) htake).mono hinner.isInfix
    split at h
    · cases h
    · rename_i hfilled
      cases h
      refine ⟨hafter, fun arg harg => ?_⟩
      refine hwithin.of_part (part_of_mem_cutAtCommas harg) fun hnil => hfilled ?_
      exact List.any_eq_true.2 ⟨arg, harg, by simp [hnil]⟩

end Token

namespace Parser

open Token

variable {tokens rest : List Token}

theorem within_of_condition? {condition : String}
    (h : condition? tokens = some (condition, rest)) :
    rest <:+ tokens ∧ ∃ run, Within tokens run ∧ condition = String.ofList (span run) := by
  obtain ⟨inner, hinner, h⟩ := Option.bind_eq_some_iff.1 h
  obtain ⟨⟨run, after⟩, hrun, h⟩ := Option.bind_eq_some_iff.1 h
  obtain ⟨t, htake, -⟩ := exists_of_runBefore? hrun
  have hinner := suffix_of_after? hinner
  dsimp only at h
  split at h
  · cases h
  · rename_i hne
    cases h
    have hrest := (List.suffix_cons t rest).trans (suffix_of_takeNested htake)
    refine ⟨hrest.trans hinner, run, ?_, rfl⟩
    exact (within_of_takeNested (by simpa using hne) htake).mono hinner.isInfix

theorem suffix_of_leadingAgent? {agent : Agent} (h : leadingAgent? tokens = some (agent, rest)) :
    rest <:+ tokens := by
  unfold leadingAgent? at h
  split at h
  · cases h
    exact List.suffix_rfl
  · rename_i t _
    split at h
    · obtain ⟨found, -, he⟩ := Option.map_eq_some_iff.1 h
      cases he
      exact List.suffix_cons t _
    · cases h
      exact List.suffix_rfl

theorem suffix_of_iteration? {name : List Char} {iterable : String}
    (h : iteration? tokens = some (name, iterable, rest)) : rest <:+ tokens := by
  obtain ⟨first, keyword, more, run, rfl, -, -, -, hrun, -⟩ := iteration?_eq_some_iff.1 h
  have hmore := (List.suffix_cons keyword more).trans (List.suffix_cons first _)
  exact (suffix_of_takeNested hrun).trans hmore

/-- An `else` is a word among the tokens, and its block follows it. -/
theorem exists_of_elseBlock? {line : Nat} (h : elseBlock? tokens = some (line, rest)) :
    rest <:+ tokens ∧ ∃ word ∈ tokens, word.isBreak = false ∧ word.line = line := by
  have hskip := skipBreaks_suffix tokens
  unfold elseBlock? at h
  split at h
  · rename_i word more hmore
    rw [hmore] at hskip
    split at h
    · rename_i hword
      obtain ⟨inner, hinner, he⟩ := Option.map_eq_some_iff.1 h
      cases he
      refine ⟨(suffix_of_after? hinner).trans ((List.suffix_cons word more).trans hskip), word, ?_⟩
      exact ⟨hskip.subset (List.mem_cons_self ..), by simp [isBreak, hword], rfl⟩
    · cases h
  · cases h

/-- A reader of blocks leaves a suffix of its tokens. -/
def LeavesSuffix (block : BlockReader) : Prop :=
  ∀ ⦃opened tokens body rest⦄, block opened tokens = .ok (body, rest) → rest <:+ tokens

variable {block : BlockReader} {line : Nat} {word : List Char} {s : Statement}

theorem suffix_of_braced (hblock : LeavesSuffix block) {form : Form} {body : List Statement}
    (h : braced block form line tokens = .ok (body, rest)) : rest <:+ tokens := by
  obtain ⟨inner, hinner, hbody⟩ := block_of_braced h
  exact (hblock hbody).trans (suffix_of_after? hinner)

/-- The forms of statements leave a suffix. -/
theorem Reads.suffix (hblock : LeavesSuffix block) (h : Reads block line word tokens s rest) :
    rest <:+ tokens := by
  cases h with
  | ask hw h | confirm hw h | createFile hw h hname | call hw hword h | waitForResponse hw h
  | taskFile hw h hpath | taskFileFor hw h hpath hagent => exact (within_of_arguments? h).1
  | assign hword h hrun hne => exact (suffix_of_takeNested hrun).trans (suffix_of_after? h)
  | ifThen hw h hbody helse | whileLoop hw h hbody =>
    exact (suffix_of_braced hblock hbody).trans (within_of_condition? h).1
  | ifElse hw h hbody helse hotherwise =>
    have hbetween := (suffix_of_braced hblock hbody).trans (within_of_condition? h).1
    exact (hblock hotherwise).trans ((exists_of_elseBlock? helse).1.trans hbetween)
  | forEach hw h hbody => exact (suffix_of_braced hblock hbody).trans (suffix_of_iteration? h)
  | stop hw h => exact List.suffix_rfl
  | inlineTask hw h hdescription hbody =>
    have hafter := (List.suffix_cons _ _).trans (suffix_of_leadingAgent? h)
    exact (suffix_of_braced hblock hbody).trans hafter
  | parallel hw h hbody htasks => exact (hblock hbody).trans (suffix_of_after? h)

theorem suffix_of_endOfStatement (h : endOfStatement tokens = .ok rest) : rest <:+ tokens := by
  unfold endOfStatement at h
  split at h
  · cases h
    exact List.suffix_rfl
  · rename_i t _
    split at h
    · cases h
      exact List.suffix_cons t _
    · split at h
      · cases h
        exact List.suffix_rfl
      · cases h

theorem suffix_of_statement (hblock : LeavesSuffix block) {first : Token}
    (h : statement block first tokens = .ok (s, rest)) : rest <:+ tokens := by
  obtain ⟨letters, after, -, hreads, hend⟩ := statement_eq_ok_iff.1 h
  exact (suffix_of_endOfStatement hend).trans (hreads.suffix hblock)

/-- Blocks leave a suffix. -/
theorem leavesSuffix_block (bound : Nat) : LeavesSuffix (Parser.block bound) := by
  induction bound with
  | zero => nofun
  | succ bound ih =>
    intro opened tokens body rest h
    obtain ⟨first, more, hskip, h⟩ := block_succ_cases h
    have hmore : more <:+ tokens := by
      refine (List.suffix_cons first more).trans ?_
      rw [← hskip]
      exact skipBreaks_suffix tokens
    rcases h with ⟨-, -, rfl⟩ | ⟨s, later, after, hs, hlater, -⟩
    · exact hmore
    · exact (ih hlater).trans ((suffix_of_statement ih hs).trans hmore)

/-! ### Facts about every statement -/

/-- Something holds of every statement that has one of the forms within the given tokens. -/
def HoldsWithin (all : List Token) (P : Statement → Prop) : Prop :=
  ∀ ⦃block line first word tokens s rest⦄, first :: tokens <:+ all → first.lexeme = .word word →
    Reads block line word tokens s rest → P s

/-- Something holds of every statement that has one of the forms. -/
def HoldsOfForms (P : Statement → Prop) : Prop :=
  ∀ ⦃block line word tokens s rest⦄, Reads block line word tokens s rest → P s

theorem HoldsOfForms.holdsWithin {P : Statement → Prop} (h : HoldsOfForms P)
    (all : List Token) : HoldsWithin all P :=
  fun _ _ _ _ _ _ _ _ _ hreads => h hreads

variable {P : Statement → Prop} {all : List Token}

/-- What holds of every form holds at every depth of a statement if it does so in blocks. -/
theorem Reads.everywhere (hP : P s) (hsuffix : LeavesSuffix block)
    (hblock : ∀ {opened tokens body rest}, tokens <:+ all →
      block opened tokens = .ok (body, rest) → ∀ s ∈ body, s.Everywhere P)
    (hall : tokens <:+ all) (h : Reads block line word tokens s rest) : s.Everywhere P := by
  have hbraced : ∀ {form tokens body rest}, tokens <:+ all →
      braced block form line tokens = .ok (body, rest) → ∀ s ∈ body, s.Everywhere P := by
    intro form tokens body rest hall hbody
    obtain ⟨inner, hinner, hbody⟩ := block_of_braced hbody
    exact hblock ((suffix_of_after? hinner).trans hall) hbody
  refine .intro hP ?_
  cases h with
  | ifThen hw h hbody helse | whileLoop hw h hbody =>
    exact hbraced ((within_of_condition? h).1.trans hall) hbody
  | ifElse hw h hbody helse hotherwise =>
    have hafter := (within_of_condition? h).1.trans hall
    have hbetween := (suffix_of_braced hsuffix hbody).trans hafter
    exact List.forall_mem_append.2 ⟨hbraced hafter hbody,
      hblock ((exists_of_elseBlock? helse).1.trans hbetween) hotherwise⟩
  | forEach hw h hbody => exact hbraced ((suffix_of_iteration? h).trans hall) hbody
  | inlineTask hw h hdescription hbody =>
    have hafter := (List.suffix_cons _ _).trans (suffix_of_leadingAgent? h)
    exact hbraced (hafter.trans hall) hbody
  | parallel hw h hbody htasks =>
    obtain rfl := onlyTasks?_eq_some_iff.1 htasks
    exact hblock ((suffix_of_after? h).trans hall) hbody
  | _ => simp [Statement.children, Task.fromFile]

/-- What holds of every form holds at every depth of a block. -/
theorem everywhere_of_block (hP : HoldsWithin all P) {bound opened : Nat} {body : List Statement}
    (hall : tokens <:+ all) (h : Parser.block bound opened tokens = .ok (body, rest)) :
    ∀ s ∈ body, s.Everywhere P := by
  induction bound generalizing opened tokens body rest with
  | zero => cases h
  | succ bound ih =>
    obtain ⟨first, more, hskip, h⟩ := block_succ_cases h
    rcases h with ⟨-, rfl, -⟩ | ⟨s, later, after, hs, hlater, rfl⟩
    · exact List.forall_mem_nil _
    · have hfirst : first :: more <:+ all := by
        rw [← hskip]
        exact (skipBreaks_suffix tokens).trans hall
      have hmore := (List.suffix_cons first more).trans hfirst
      have hsuffix := leavesSuffix_block bound
      obtain ⟨letters, _, hword, hreads, -⟩ := statement_eq_ok_iff.1 hs
      refine List.forall_mem_cons.2 ⟨?_, ih ((suffix_of_statement hsuffix hs).trans hmore) hlater⟩
      exact hreads.everywhere (hP hfirst hword hreads) hsuffix ih hmore

theorem suffix_of_header? {name : List Char} (h : header? tokens = some (name, rest)) :
    rest <:+ tokens := by
  obtain ⟨keyword, named, more, rfl, -, -, -, hinner⟩ := header?_eq_some_iff.1 h
  have hmore := (List.suffix_cons named more).trans (List.suffix_cons keyword _)
  exact (suffix_of_after? hinner).trans hmore

theorem everywhere_of_command (hP : HoldsWithin tokens P) {c : Command}
    (h : command tokens = .ok c) : c.Everywhere P := by
  obtain ⟨first, more, name, inner, body, _, hskip, hheader, -, hblock, -, rfl⟩ :=
    command_eq_ok_iff.1 h
  refine everywhere_of_block hP ?_ hblock
  rw [← hskip] at hheader
  exact (suffix_of_header? hheader).trans (skipBreaks_suffix tokens)

end Parser

/-- What holds of every form holds at every depth of a command that is read. -/
theorem Command.everywhere_of_parse {P : Statement → Prop} (hP : Parser.HoldsOfForms P)
    {source : String} {c : Command} (h : Command.parse source = .ok c) : c.Everywhere P := by
  obtain ⟨scanned, -, hc⟩ := Command.parse_eq_ok_iff.1 h
  exact Parser.everywhere_of_command (hP.holdsWithin scanned.tokens) hc

end Playbook
