import Playbook.Proofs.Parser.Readings

/-!
# Reading what was printed

A printable command is read back from the command file that it is printed as, in every layout.  The
proof goes through the tree: `Recovers lines s` says that printed lines are read as a statement, and
each kind of statement recovers if the statements in it do, behind every margin.
-/

open Playbook.Parser

namespace Playbook

/-! ### Words and margins -/

theorem Keyword.scans_spelling (k : Keyword) :
    Scans k.spelling.toList [⟨[], .word k.spelling.toList⟩] := by
  cases k <;> exact .word (by decide) (by decide)

theorem ne_nil_of_isName {name : List Char} (h : isName name = true) : name ≠ [] := by
  rintro rfl
  cases h

theorem scans_name {name : List Char} (h : isName name = true) :
    Scans name [⟨[], .word name⟩] :=
  .word (ne_nil_of_isName h) (Bool.and_eq_true_iff.1 h).2

/-- Blanks that stand in front of a line. -/
def IsMargin (margin : List Char) : Prop := ∀ c ∈ margin, Text.isBlank c = true ∧ c ≠ '\n'

theorem isMargin_nil : IsMargin [] := by
  simp [IsMargin]

theorem IsMargin.append_indent {margin : List Char} (h : IsMargin margin) (layout : Layout) :
    IsMargin (margin ++ layout.indent) :=
  List.forall_mem_append.2 ⟨h, layout.isBlank_of_mem⟩

theorem IsMargin.scans {margin text : List Char} (h : IsMargin margin) {lexeme : Lexeme}
    {line : List Piece} (hs : Scans text (⟨[], lexeme⟩ :: line)) :
    Scans (margin ++ text) (⟨margin, lexeme⟩ :: line) := by
  have hblank : ∀ c ∈ margin, Text.isBlank c = true := fun c hc => (h c hc).1
  have hline : '\n' ∉ margin := fun hmem => (h '\n' hmem).2 rfl
  simpa using hs.blanks hblank hline (List.cons_ne_nil _ _)

theorem IsMargin.scans_closeBrace {margin : List Char} (h : IsMargin margin) :
    Scans (margin ++ ['}']) [⟨margin, .symbol .closeBrace⟩] :=
  h.scans (Scans.bracket (s := .closeBrace) (by decide) .nil)

theorem Scans.openBrace {text : List Char} {pieces : List Piece} (h : Scans text pieces) :
    Scans (text ++ [' ', '{']) (pieces ++ [⟨[' '], .symbol .openBrace⟩]) := by
  have hbrace : Scans ['{'] [⟨[], .symbol .openBrace⟩] :=
    Scans.bracket (s := .openBrace) (by decide) .nil
  exact h.append (hbrace.space (List.cons_ne_nil _ _)) (detached_cons.2 rfl)

/-! ### Statements on a line -/

/-- Printed lines are read as a statement. -/
def Recovers (lines : List (List Char)) (s : Statement) : Prop :=
  ∃ pieces, List.Forall₂ Scans lines pieces ∧ IsReading pieces s

/-- Printed lines are read as the statements of a block. -/
def RecoversBlock (lines : List (List Char)) (body : List Statement) : Prop :=
  ∃ pieces, List.Forall₂ Scans lines pieces ∧ IsBlock pieces body

variable {margin word text : List Char} {line : List Piece} {s : Statement}

theorem Recovers.of_line (hm : IsMargin margin) (hs : Scans text (⟨[], .word word⟩ :: line))
    (hbraces : ∀ p ∈ line, p.lexeme.isBrace = false)
    (hreads : ∀ block number rest, Reads block number word
      (onLine number line ++ lineEnd number :: rest) s (lineEnd number :: rest)) :
    Recovers [margin ++ text] s :=
  ⟨_, .cons (hm.scans hs) .nil, .of_line hbraces hreads⟩

theorem not_isBrace_callPieces {texts : List (List Char)} {runs : List (List Piece)}
    (h : List.Forall₂ IsRun texts runs) : ∀ p ∈ callPieces runs, p.lexeme.isBrace = false := by
  have hruns : ∀ run ∈ runs, ∀ p ∈ run, p.lexeme.isBrace = false := by
    intro run hrun p hp
    exact not_isBrace_of_nests (isRun_of_mem h run hrun).2 _ (List.mem_map_of_mem hp)
  have hcommas := forall_mem_commaPieces (P := fun l => l.isBrace = false) rfl hruns
  refine List.forall_mem_cons.2 ⟨rfl, List.forall_mem_append.2 ⟨?_, by simp [Lexeme.isBrace]⟩⟩
  exact List.forall_mem_map.1 hcommas

/-- A statement that is a word with arguments. -/
theorem Recovers.of_call (hm : IsMargin margin) (hw : Scans word [⟨[], .word word⟩])
    {texts : List (List Char)} {runs : List (List Piece)} (h : List.Forall₂ IsRun texts runs)
    (hreads : ∀ block number tokens rest,
      Token.arguments? tokens = some (argumentRuns number [] runs, rest) →
        Reads block number word tokens s rest) :
    Recovers [margin ++ callSource word texts] s := by
  refine .of_line hm (scans_callSource hw h) (not_isBrace_callPieces h) fun block number rest => ?_
  exact hreads block number _ _ (arguments?_callPieces h number _)

theorem recovers_ask (hm : IsMargin margin) {question : Phrase}
    (h : question.isPrintable = true) :
    Recovers [margin ++ callSource Keyword.ask.spelling.toList [question.source]]
      (.ask question) := by
  obtain ⟨run, hrun, hread⟩ := Phrase.yields_source h
  refine .of_call hm (Keyword.scans_spelling .ask) (.cons hrun .nil) ?_
  intro block number tokens rest hargs
  rw [← hread number []]
  exact .ask (Keyword.ofWord?_spelling .ask) hargs

theorem recovers_confirm (hm : IsMargin margin) {message : String}
    (h : isQuotable message.toList = true) :
    Recovers [margin ++ callSource Keyword.confirm.spelling.toList [quote message.toList]]
      (.confirm message) := by
  obtain ⟨run, hrun, hread⟩ := Phrase.yields_source (p := .literal message) h
  refine .of_call hm (Keyword.scans_spelling .confirm) (.cons hrun .nil) ?_
  intro block number tokens rest hargs
  have hmessage : (Phrase.ofTokens (onLine number (pushGap [] run))).text = message := by
    rw [hread]
    rfl
  rw [← hmessage]
  exact .confirm (Keyword.ofWord?_spelling .confirm) hargs

theorem recovers_createFile (hm : IsMargin margin) {filename : String} {content : Phrase}
    (hf : isQuotable filename.toList = true) (hc : content.isPrintable = true) :
    Recovers [margin ++ callSource Keyword.createFile.spelling.toList
      [quote filename.toList, content.source]] (.createFile filename content) := by
  obtain ⟨name, hname, hliteral⟩ := yields_quote hf
  obtain ⟨run, hrun, hread⟩ := Phrase.yields_source hc
  refine .of_call hm (Keyword.scans_spelling .createFile) (.cons hname (.cons hrun .nil)) ?_
  intro block number tokens rest hargs
  rw [← hread number [' '], ← String.ofList_toList (s := filename)]
  exact .createFile (Keyword.ofWord?_spelling .createFile) hargs (hliteral number [])

theorem recovers_assign (hm : IsMargin margin) {name : String} {value : Value}
    (hn : isName name.toList = true) (hv : value.isPrintable = true) :
    Recovers [margin ++ (name.toList ++ ' ' :: '=' :: ' ' :: value.source)]
      (.assign name value) := by
  obtain ⟨run, hrun, hread⟩ := Value.yields_source hv
  have hassign := (hrun.scans.space hrun.ne_nil).assign (detached_cons.2 rfl)
  have hscans := (scans_name hn).append (hassign.space (List.cons_ne_nil _ _))
    (detached_cons.2 rfl)
  have hnests : nests [] ((pushGap [' '] run).map Piece.lexeme) = true := by
    rw [map_lexeme_pushGap]
    exact hrun.nests
  refine .of_line hm hscans ?_ ?_
  · exact List.forall_mem_cons.2 ⟨rfl, List.forall_mem_map.1 (not_isBrace_of_nests hnests)⟩
  · intro block number rest
    rw [← lexemes_onLine number] at hnests
    -- the value is taken up to the end of the line
    have hline := Token.takeNested_eq counts_nestBrackets (Token.endsRuns_closeBrace List.length)
      hnests (.inl (isBreak_lineEnd number)) rest
    have hreads : Reads block number name.toList
        (onLine number (⟨[' '], .symbol .assign⟩ :: pushGap [' '] run) ++ lineEnd number :: rest)
        (.assign (String.ofList name.toList) (Value.ofTokens (onLine number (pushGap [' '] run))))
        (lineEnd number :: rest) :=
      .assign (Bool.and_eq_true_iff.1 hn).1 rfl hline (by simpa using hrun.ne_nil)
    rwa [hread, String.ofList_toList] at hreads

/-- The arguments of a call are runs that are kept as written. -/
theorem exists_argumentRuns {args : List String}
    (h : ∀ arg ∈ args, (runTokens? arg.toList).isSome = true) :
    ∃ runs, List.Forall₂ IsRun (args.map String.toList) runs ∧ ∀ number margin,
      (argumentRuns number margin runs).map (fun a => String.ofList (Token.span a)) = args := by
  induction args with
  | nil => exact ⟨[], .nil, fun _ _ => rfl⟩
  | cons arg args ih =>
    rw [List.forall_mem_cons] at h
    obtain ⟨run, hrun, hspan⟩ := yields_span h.1
    obtain ⟨runs, hruns, hargs⟩ := ih h.2
    refine ⟨run :: runs, .cons hrun hruns, fun number margin => ?_⟩
    rw [argumentRuns, List.map_cons, hspan, hargs, String.ofList_toList]

theorem takesParenthesis_eq_false {name : String} (h : name ∉ reservedNames) {k : Keyword}
    (hk : Keyword.ofWord? name.toList = some k) : k.takesParenthesis = false := by
  have hname : k.spelling = name := String.toList_injective (Keyword.spelling_of_ofWord? hk)
  subst hname
  cases k <;> first | rfl | exact absurd (by decide) h

theorem recovers_call (hm : IsMargin margin) {name : String} {args : List String}
    (hn : isName name.toList = true) (hreserved : name ∉ reservedNames)
    (h : ∀ arg ∈ args, (runTokens? arg.toList).isSome = true) :
    Recovers [margin ++ callSource name.toList (args.map String.toList)] (.call name args) := by
  obtain ⟨runs, hruns, hargs⟩ := exists_argumentRuns h
  refine .of_call hm (scans_name hn) hruns ?_
  intro block number tokens rest htokens
  have hcall : Reads block number name.toList tokens (.call (String.ofList name.toList)
      ((argumentRuns number [] runs).map fun a => String.ofList (Token.span a))) rest :=
    .call (fun k => takesParenthesis_eq_false hreserved) (Bool.and_eq_true_iff.1 hn).1 htokens
  rwa [hargs, String.ofList_toList] at hcall

theorem recovers_waitForResponse (hm : IsMargin margin) :
    Recovers [margin ++ callSource Keyword.waitForResponse.spelling.toList []]
      .waitForResponse := by
  refine .of_call hm (Keyword.scans_spelling .waitForResponse) .nil ?_
  intro block number tokens rest hargs
  exact .waitForResponse (Keyword.ofWord?_spelling .waitForResponse) hargs

theorem recovers_stop (hm : IsMargin margin) :
    Recovers [margin ++ Keyword.stop.spelling.toList] .stop := by
  refine .of_line hm (Keyword.scans_spelling .stop) (by simp) ?_
  intro block number rest
  exact .stop (Keyword.ofWord?_spelling .stop) (by simp [Token.next?, lineEnd])

theorem recovers_taskFile (hm : IsMargin margin) {file : String} {agent : Agent}
    (hq : isQuotable file.toList = true) (hne : file.toList ≠ []) :
    Recovers [margin ++ callSource Keyword.task.spelling.toList
      [quote file.toList, agent.keyword.toList]] (.task (Task.fromFile file agent)) := by
  obtain ⟨path, hpath, hliteral⟩ := yields_quote hq
  obtain ⟨name, hname, hagent⟩ := agent.yields_keyword
  obtain ⟨c, cs, hfile⟩ := List.exists_cons_of_ne_nil hne
  refine .of_call hm (Keyword.scans_spelling .task) (.cons hpath (.cons hname .nil)) ?_
  intro block number tokens rest hargs
  rw [← String.ofList_toList (s := file), hfile]
  exact .taskFileFor (Keyword.ofWord?_spelling .task) hargs (hfile ▸ hliteral number [])
    (hagent number [' '])

/-! ### Statements with blocks -/

theorem RecoversBlock.nil : RecoversBlock [] [] := ⟨[], .nil, .nil⟩

theorem RecoversBlock.cons {lines more : List (List Char)} {body : List Statement}
    (hs : Recovers lines s) (hbody : RecoversBlock more body) :
    RecoversBlock (lines ++ more) (s :: body) := by
  obtain ⟨pieces, hpieces, hs⟩ := hs
  obtain ⟨others, hothers, hbody⟩ := hbody
  exact ⟨pieces ++ others, List.rel_append hpieces hothers, .cons hs hbody⟩

/-- Lines that scan, with what stands in front of the block and the brace at its end. -/
theorem forall₂_blockLines (hm : IsMargin margin) (hs : Scans text (⟨[], .word word⟩ :: line))
    {lines : List (List Char)} {pieces : List (List Piece)}
    (h : List.Forall₂ Scans lines pieces) :
    List.Forall₂ Scans (blockLines margin text lines)
      ((⟨margin, .word word⟩ :: (line ++ [⟨[' '], .symbol .openBrace⟩])) ::
        (pieces ++ [[⟨margin, .symbol .closeBrace⟩]])) :=
  .cons (hm.scans hs.openBrace) (List.rel_append h (.cons hm.scans_closeBrace .nil))

theorem Recovers.of_block (hm : IsMargin margin) (hword : word ≠ "else".toList)
    (hs : Scans text (⟨[], .word word⟩ :: line))
    (hbraces : ∀ p ∈ line, p.lexeme.isBrace = false) {lines : List (List Char)}
    {body : List Statement} (hbody : RecoversBlock lines body)
    (hreads : ∀ {block number inner rest}, block number inner = .ok (body, rest) →
      elseBlock? rest = none →
      Reads block number word (onLine number (line ++ [⟨[' '], .symbol .openBrace⟩]) ++ inner)
        s rest) :
    Recovers (blockLines margin text lines) s := by
  obtain ⟨pieces, hpieces, hbody⟩ := hbody
  exact ⟨_, forall₂_blockLines hm hs hpieces, .of_block hword hbraces hbody hreads⟩

/-- The pieces of a condition in parentheses. -/
def conditionPieces (run : List Piece) : List Piece :=
  ⟨[' '], .symbol .openParen⟩ :: (run ++ [⟨[], .symbol .closeParen⟩])

theorem scans_conditionSource (k : Keyword) {condition : String} {run : List Piece}
    (h : IsRun condition.toList run) :
    Scans (conditionSource k condition)
      (⟨[], .word k.spelling.toList⟩ :: conditionPieces run) := by
  have hclose : Scans [')'] [⟨[], .symbol .closeParen⟩] :=
    Scans.bracket (s := .closeParen) (by decide) .nil
  have hparens := Scans.bracket (s := .openParen) (by decide)
    (h.scans.append hclose (detached_cons.2 rfl))
  exact k.scans_spelling.append (hparens.space (List.cons_ne_nil _ _)) (detached_cons.2 rfl)

theorem not_isBrace_conditionPieces {condition : List Char} {run : List Piece}
    (h : IsRun condition run) : ∀ p ∈ conditionPieces run, p.lexeme.isBrace = false := by
  refine List.forall_mem_cons.2 ⟨rfl, List.forall_mem_append.2 ⟨?_, by simp [Lexeme.isBrace]⟩⟩
  exact List.forall_mem_map.1 (not_isBrace_of_nests h.nests)

theorem condition?_conditionPieces {condition : String} {run : List Piece}
    (h : IsRun condition.toList run)
    (hspan : ∀ number margin, Token.span (onLine number (pushGap margin run)) = condition.toList)
    (number : Nat) (rest : List Token) :
    condition? (onLine number (conditionPieces run) ++ rest) = some (condition, rest) := by
  have hnests : nests [] (Token.lexemes (onLine number run)) = true := by
    rw [lexemes_onLine]
    exact h.nests
  have hrun := Token.runBefore?_nestParens hnests
    (t := { gap := [], lexeme := .symbol .closeParen, line := number }) rfl rest
  have hafter : Token.after? .openParen (onLine number (conditionPieces run) ++ rest) =
      some (onLine number run ++ { gap := [], lexeme := .symbol .closeParen, line := number } ::
        rest) := by
    simp [conditionPieces, Token.after?, Token.is]
  have hcondition := hspan number []
  rw [pushGap_nil] at hcondition
  unfold condition?
  simp [hafter, hrun, h.ne_nil, hcondition]

theorem braced_openBrace {block : BlockReader} {form : Form} {number : Nat} {inner : List Token}
    {result : Parsed (List Statement)} (h : block number inner = .ok result) :
    braced block form number (onLine number [⟨[' '], .symbol .openBrace⟩] ++ inner) =
      .ok result := h

theorem recovers_ifThen (hm : IsMargin margin) {condition : String}
    (h : (runTokens? condition.toList).isSome = true) {lines : List (List Char)}
    {body : List Statement} (hbody : RecoversBlock lines body) :
    Recovers (blockLines margin (conditionSource .conditional condition) lines)
      (.ifThen condition body) := by
  obtain ⟨run, hrun, hspan⟩ := yields_span h
  refine .of_block hm (by decide) (scans_conditionSource .conditional hrun)
    (not_isBrace_conditionPieces hrun) hbody ?_
  intro block number inner rest hblock helse
  rw [onLine_append, List.append_assoc]
  exact .ifThen (Keyword.ofWord?_spelling .conditional)
    (condition?_conditionPieces hrun hspan number _) (braced_openBrace hblock) helse

theorem recovers_whileLoop (hm : IsMargin margin) {condition : String}
    (h : (runTokens? condition.toList).isSome = true) {lines : List (List Char)}
    {body : List Statement} (hbody : RecoversBlock lines body) :
    Recovers (blockLines margin (conditionSource .whileLoop condition) lines)
      (.whileLoop condition body) := by
  obtain ⟨run, hrun, hspan⟩ := yields_span h
  refine .of_block hm (by decide) (scans_conditionSource .whileLoop hrun)
    (not_isBrace_conditionPieces hrun) hbody ?_
  intro block number inner rest hblock _
  rw [onLine_append, List.append_assoc]
  exact .whileLoop (Keyword.ofWord?_spelling .whileLoop)
    (condition?_conditionPieces hrun hspan number _) (braced_openBrace hblock)

/-- The lines between the blocks of a conditional are read as such in either layout. -/
theorem exists_isElse (layout : Layout) (hm : IsMargin margin) :
    ∃ between, List.Forall₂ Scans (elseLines layout margin) between ∧ IsElse margin between := by
  have helse : Scans ("else".toList ++ [' ', '{'])
      [⟨[], .word "else".toList⟩, ⟨[' '], .symbol .openBrace⟩] :=
    (Scans.word (by decide) (by decide)).openBrace
  unfold elseLines
  split
  · exact ⟨_, .cons hm.scans_closeBrace (.cons (hm.scans helse) .nil), isElse_below margin⟩
  · have hclose := Scans.bracket (s := .closeBrace) (by decide)
      (helse.space (List.cons_ne_nil _ _))
    exact ⟨_, .cons (hm.scans hclose) .nil, isElse_beside margin⟩

theorem recovers_ifElse (layout : Layout) (hm : IsMargin margin) {condition : String}
    (h : (runTokens? condition.toList).isSome = true) {lines others : List (List Char)}
    {body otherwise : List Statement} (hbody : RecoversBlock lines body)
    (hotherwise : RecoversBlock others otherwise) :
    Recovers (blockLines margin (conditionSource .conditional condition)
      (lines ++ elseLines layout margin ++ others)) (.ifElse condition body otherwise) := by
  obtain ⟨run, hrun, hspan⟩ := yields_span h
  obtain ⟨pieces, hpieces, hbody⟩ := hbody
  obtain ⟨more, hmore, hotherwise⟩ := hotherwise
  obtain ⟨between, hbetween, helse⟩ := exists_isElse layout hm
  have hlines := List.rel_append (List.rel_append hpieces hbetween) hmore
  exact ⟨_, forall₂_blockLines hm (scans_conditionSource .conditional hrun) hlines,
    .of_ifElse (not_isBrace_conditionPieces hrun) hbody hotherwise
      (condition?_conditionPieces hrun hspan) helse⟩

theorem iteration?_of_nests {name keyword brace : Token} {letters : List Char}
    (hname : name.lexeme = .word letters) (hletters : isIdentifier letters = true)
    (hkeyword : keyword.lexeme = .word "in".toList) {run : List Token} (hne : run ≠ [])
    (hnests : nests [] (Token.lexemes run) = true) (hbrace : brace.is .openBrace = true)
    (inner : List Token) :
    iteration? (name :: keyword :: (run ++ brace :: inner)) =
      some (letters, String.ofList (Token.span run), brace :: inner) := by
  have hrun := Token.takeNested_eq counts_nestBrackets (Token.endsRuns_openBrace List.length)
    hnests (.inr hbrace) inner
  obtain ⟨first, rest, rfl⟩ := List.exists_cons_of_ne_nil hne
  rw [List.cons_append] at hrun
  simp [iteration?, hname, hletters, hkeyword, hrun]

theorem recovers_forEach (hm : IsMargin margin) {item iterable : String}
    (hn : isName item.toList = true) (h : (runTokens? iterable.toList).isSome = true)
    {lines : List (List Char)} {body : List Statement} (hbody : RecoversBlock lines body) :
    Recovers (blockLines margin
      (Keyword.forLoop.spelling.toList ++ ' ' :: (item.toList ++
        ' ' :: ("in".toList ++ ' ' :: iterable.toList))) lines)
      (.forEach item iterable body) := by
  obtain ⟨run, hrun, hspan⟩ := yields_span h
  have hin : Scans "in".toList [⟨[], .word "in".toList⟩] := .word (by decide) (by decide)
  have hiterable := hin.append (hrun.scans.space hrun.ne_nil) (detached_cons.2 rfl)
  have hitem := (scans_name hn).append (hiterable.space (List.cons_ne_nil _ _))
    (detached_cons.2 rfl)
  have hline := (Keyword.scans_spelling .forLoop).append (hitem.space (List.cons_ne_nil _ _))
    (detached_cons.2 rfl)
  have hnests : nests [] ((pushGap [' '] run).map Piece.lexeme) = true := by
    rw [map_lexeme_pushGap]
    exact hrun.nests
  refine .of_block hm (by decide) hline ?_ hbody ?_
  · refine List.forall_mem_cons.2 ⟨rfl, List.forall_mem_cons.2 ⟨rfl, ?_⟩⟩
    exact List.forall_mem_map.1 (not_isBrace_of_nests hnests)
  · intro block number inner rest hblock _
    rw [← lexemes_onLine number] at hnests
    have hiteration : iteration? (onLine number (⟨[' '], .word item.toList⟩ ::
        ⟨[' '], .word "in".toList⟩ :: pushGap [' '] run) ++
          (onLine number [⟨[' '], .symbol .openBrace⟩] ++ inner)) =
        some (item.toList, String.ofList (Token.span (onLine number (pushGap [' '] run))),
          onLine number [⟨[' '], .symbol .openBrace⟩] ++ inner) :=
      iteration?_of_nests rfl (Bool.and_eq_true_iff.1 hn).1 rfl (by simpa using hrun.ne_nil) hnests
        rfl inner
    have hreads := Reads.forEach (Keyword.ofWord?_spelling .forLoop) hiteration
      (braced_openBrace hblock)
    rw [hspan, String.ofList_toList, String.ofList_toList] at hreads
    rw [onLine_append, List.append_assoc]
    exact hreads

theorem recovers_inlineTask (hm : IsMargin margin) {description : String} {agent : Agent}
    (hq : isQuotable description.toList = true) (hne : description.toList ≠ [])
    {lines : List (List Char)} {body : List Statement} (hbody : RecoversBlock lines body) :
    Recovers (blockLines margin (Keyword.task.spelling.toList ++
        ' ' :: (agent.keyword.toList ++ ' ' :: quote description.toList)) lines)
      (.task (Task.inline description agent body)) := by
  obtain ⟨c, cs, hd⟩ := List.exists_cons_of_ne_nil hne
  have hagent : Scans agent.keyword.toList [⟨[], .word agent.keyword.toList⟩] := by
    cases agent <;> exact .word (by decide) (by decide)
  have hdescription := hagent.append ((Scans.quoted hq).space (List.cons_ne_nil _ _))
    (detached_cons.2 rfl)
  have hline := (Keyword.scans_spelling .task).append
    (hdescription.space (List.cons_ne_nil _ _)) (detached_cons.2 rfl)
  refine .of_block hm (by decide) hline ?_ hbody ?_
  · simp [Lexeme.isBrace]
  · intro block number inner rest hblock _
    have hleading : leadingAgent? (onLine number
        [⟨[' '], .word agent.keyword.toList⟩, ⟨[' '], .quoted '"' description.toList⟩,
          ⟨[' '], .symbol .openBrace⟩] ++ inner) =
        some (agent, ⟨⟨[' '], .quoted '"' description.toList⟩, number⟩ ::
          (onLine number [⟨[' '], .symbol .openBrace⟩] ++ inner)) := by
      simp [leadingAgent?]
    have hreads := Reads.inlineTask (Keyword.ofWord?_spelling .task) hleading
      (congrArg some hd) (braced_openBrace hblock)
    rw [← hd, String.ofList_toList] at hreads
    exact hreads

theorem recovers_parallel (hm : IsMargin margin) {tasks : List Task} {lines : List (List Char)}
    (hbody : RecoversBlock lines (tasks.map .task)) :
    Recovers (blockLines margin Keyword.parallel.spelling.toList lines) (.parallel tasks) := by
  refine .of_block hm (by decide) (Keyword.scans_spelling .parallel) (by simp) hbody ?_
  intro block number inner rest hblock _
  exact .parallel (Keyword.ofWord?_spelling .parallel) rfl hblock (onlyTasks?_eq_some_iff.2 rfl)

/-! ### Trees -/

section Trees

variable (layout : Layout)

theorem recoversBlock_statementsLines {body : List Statement}
    (h : ∀ s ∈ body, Recovers (s.lines layout margin) s) :
    RecoversBlock (statementsLines layout margin body) body := by
  induction body with
  | nil => exact .nil
  | cons s body ih =>
    rw [List.forall_mem_cons] at h
    exact .cons h.1 (ih h.2)

theorem tasksLines_eq (tasks : List Task) :
    tasksLines layout margin tasks = statementsLines layout margin (tasks.map .task) := by
  induction tasks with
  | nil => rfl
  | cons t tasks ih =>
    rw [tasksLines, ih, List.map_cons, statementsLines, Statement.lines]

theorem recovers_task (hm : IsMargin margin) {t : Task} (h : t.isPrintable = true)
    (hbody : RecoversBlock (statementsLines layout (margin ++ layout.indent) t.body) t.body) :
    Recovers (Statement.lines layout margin (.task t)) (.task t) := by
  obtain ⟨description, agent, body, file⟩ := t
  cases file with
  | none =>
    simp only [Task.isPrintable, Bool.and_eq_true, Bool.not_eq_true', List.isEmpty_eq_false_iff]
      at h
    rw [Statement.lines, taskLines]
    exact recovers_inlineTask hm h.1 h.2 hbody
  | some file =>
    simp only [Task.isPrintable, Bool.and_eq_true, Bool.not_eq_true', List.isEmpty_eq_false_iff,
      List.isEmpty_iff, String.toList_eq_nil_iff] at h
    obtain ⟨⟨⟨hquotable, hne⟩, rfl⟩, rfl⟩ := h
    rw [Statement.lines, taskLines]
    exact recovers_taskFile hm hquotable (by simpa using hne)

/-- Every printable statement is read back from its lines. -/
theorem Statement.Everywhere.recovers {s : Statement}
    (h : s.Everywhere fun s => s.isPrintable = true) (hm : IsMargin margin) :
    Recovers (s.lines layout margin) s := by
  -- the margin grows on the way down
  induction s generalizing margin with
  | ask question =>
    rw [lines]
    exact recovers_ask hm h.here
  | confirm message =>
    rw [lines]
    exact recovers_confirm hm h.here
  | createFile filename content =>
    rw [lines]
    have hs := Bool.and_eq_true_iff.1 h.here
    exact recovers_createFile hm hs.1 hs.2
  | assign name value =>
    rw [lines]
    have hs := Bool.and_eq_true_iff.1 h.here
    exact recovers_assign hm hs.1 hs.2
  | call name args =>
    rw [lines]
    have hs := h.here
    simp only [isPrintable, Bool.and_eq_true, Bool.not_eq_true', List.all_eq_true,
      List.contains_eq_mem, decide_eq_false_iff_not] at hs
    exact recovers_call hm hs.1.1 hs.1.2 hs.2
  | ifThen condition body ih =>
    rw [lines]
    refine recovers_ifThen hm h.here (recoversBlock_statementsLines layout fun s hs => ?_)
    exact ih s hs (h.inside s hs) (hm.append_indent layout)
  | ifElse condition body otherwise ihBody ihOtherwise =>
    rw [lines]
    refine recovers_ifElse layout hm h.here
      (recoversBlock_statementsLines layout fun s hs => ?_)
      (recoversBlock_statementsLines layout fun s hs => ?_)
    · exact ihBody s hs (h.inside s (List.mem_append_left _ hs)) (hm.append_indent layout)
    · exact ihOtherwise s hs (h.inside s (List.mem_append_right _ hs)) (hm.append_indent layout)
  | whileLoop condition body ih =>
    rw [lines]
    refine recovers_whileLoop hm h.here (recoversBlock_statementsLines layout fun s hs => ?_)
    exact ih s hs (h.inside s hs) (hm.append_indent layout)
  | forEach item iterable body ih =>
    rw [lines]
    have hs := Bool.and_eq_true_iff.1 h.here
    refine recovers_forEach hm hs.1 hs.2 (recoversBlock_statementsLines layout fun s hs => ?_)
    exact ih s hs (h.inside s hs) (hm.append_indent layout)
  | stop =>
    rw [lines]
    exact recovers_stop hm
  | waitForResponse =>
    rw [lines]
    exact recovers_waitForResponse hm
  | task t ih =>
    refine recovers_task layout hm h.here (recoversBlock_statementsLines layout fun s hs => ?_)
    exact ih s hs (h.inside s hs) (hm.append_indent layout)
  | parallel tasks ih =>
    rw [lines, tasksLines_eq]
    refine recovers_parallel hm (recoversBlock_statementsLines layout ?_)
    refine List.forall_mem_map.2 fun t ht => ?_
    -- the induction skips the tasks themselves and starts again at their bodies
    have htask := h.inside (.task t) (List.mem_map_of_mem ht)
    have hindent := hm.append_indent layout
    refine recovers_task layout hindent htask.here
      (recoversBlock_statementsLines layout fun s hs => ?_)
    exact ih t ht s hs (htask.inside s hs) (hindent.append_indent layout)
  | unknown kind => cases h.here

end Trees

/-! ### Command files -/

/-- Lines that are read as a block are the body of a command behind its header. -/
theorem command_of_isBlock {name : List Char} (hn : isIdentifier name = true)
    {lines : List (List Piece)} {body : List Statement} (h : IsBlock lines body) :
    Parser.command (tokensOfLines 1
      ([⟨[], .word "command".toList⟩, ⟨[' '], .word name⟩, ⟨[' '], .symbol .openBrace⟩] ::
        (lines ++ [[⟨[], .symbol .closeBrace⟩]]))) = .ok ⟨String.ofList name, body⟩ := by
  have hbraces : ∀ p ∈ [(⟨[' '], .word name⟩ : Piece)], p.lexeme.isBrace = false := by
    simp [Lexeme.isBrace]
  have hpaired := bracesPaired_block hbraces h.paired [] "command".toList 1 [] []
  rw [List.append_nil] at hpaired
  have hlength : (tokensOfLines (1 + 1) lines).length < (tokensOfLines 1
      ([⟨[], .word "command".toList⟩, ⟨[' '], .word name⟩, ⟨[' '], .symbol .openBrace⟩] ::
        (lines ++ [[⟨[], .symbol .closeBrace⟩]]))).length + 1 := by
    rw [tokensOfLines_block]
    simp only [List.length_append, List.length_cons]
    omega
  have hblock := h.reads (1 + 1) _ 1 (closing [] (1 + 1 + lines.length))
    [lineEnd (1 + 1 + lines.length)] hlength rfl
  have hheader : header? (tokensOfLines 1
      ([⟨[], .word "command".toList⟩, ⟨[' '], .word name⟩, ⟨[' '], .symbol .openBrace⟩] ::
        (lines ++ [[⟨[], .symbol .closeBrace⟩]]))) =
      some (name, lineEnd 1 :: (tokensOfLines (1 + 1) lines ++
        [closing [] (1 + 1 + lines.length), lineEnd (1 + 1 + lines.length)])) := by
    rw [tokensOfLines_block]
    simp [header?, hn, Token.after?, Token.is]
  rw [← block_lineEnd _ _ 1] at hblock
  exact command_eq_ok_iff.2 ⟨_, _, name, _, body, _, rfl, hheader, hpaired, hblock, rfl, rfl⟩

/-- A printable command is read back from the command file that it is printed as. -/
theorem Command.parse_source (layout : Layout) {c : Command} (h : c.Printable) :
    Command.parse (c.source layout) = .ok c := by
  have hbody := recoversBlock_statementsLines layout fun s hs =>
    (h.everywhere s hs).recovers layout (isMargin_nil.append_indent layout)
  obtain ⟨pieces, hpieces, hblock⟩ := hbody
  have hname := (scans_name h.isName).space (List.cons_ne_nil _ _)
  have hheader : Scans ("command".toList ++ ' ' :: c.name.toList)
      [⟨[], .word "command".toList⟩, ⟨[' '], .word c.name.toList⟩] :=
    (Scans.word (by decide) (by decide)).append hname (detached_cons.2 rfl)
  have hlines := forall₂_blockLines isMargin_nil hheader hpieces
  have hscan := scan_ofLines hlines (by
    refine List.forall_mem_cons.2 ⟨by simp, List.forall_mem_append.2 ⟨hblock.ne_nil, by simp⟩⟩)
  have hcommand := command_of_isBlock (Bool.and_eq_true_iff.1 h.isName).1 hblock
  rw [String.ofList_toList] at hcommand
  refine parse_eq_ok_iff.2 ⟨⟨_, []⟩, ?_, hcommand⟩
  rw [source, String.toList_ofList]
  exact hscan

/-- Two spaces for each level, and each `else` below the brace before it. -/
def spacious : Layout where
  indent := [' ', ' ']
  isBlank_of_mem := List.forall_mem_cons.2 ⟨by decide, List.forall_mem_singleton.2 (by decide)⟩
  elseBelow := true

/-- A command with names, literals and expressions that are easily mistaken: `else` and `for` as
names, brackets, commas and marks in strings, and an array that is not the whole value. -/
def mistakable : Command :=
  ⟨"command", [
    .ifElse "f(a, [b]) == \"),\"" [.assign "else" (.array ["a\\\"b", "[", ""])]
      [.assign "x" (.expr "[a] + [b]"), .stop],
    .parallel [Task.inline "d" .bash [.call "for" ["\"x, y\"", "(,)"]],
      Task.fromFile "f" .plan]]⟩

theorem printable_mistakable : mistakable.Printable where
  isName := by decide
  everywhere := by
    repeat' first
      | exact .of_leaf (by decide +kernel) rfl
      | exact List.forall_mem_nil _
      | refine List.forall_mem_cons.2 ⟨?_, ?_⟩
      | refine .intro (by decide +kernel) ?_

theorem Command.parse_source_mistakable :
    mistakable.Printable ∧ Command.parse (mistakable.source spacious) = .ok mistakable :=
  ⟨printable_mistakable, Command.parse_source spacious printable_mistakable⟩

example : mistakable.source spacious =
    "command command \x7b\n" ++
      "  if (f(a, [b]) == \"),\") \x7b\n" ++
      "    else = [\"a\\\"b\", \"[\", \"\"]\n" ++
      "  \x7d\n" ++
      "  else \x7b\n" ++
      "    x = [a] + [b]\n" ++
      "    break\n" ++
      "  \x7d\n" ++
      "  parallel \x7b\n" ++
      "    task bash \"d\" \x7b\n" ++
      "      for(\"x, y\", (,))\n" ++
      "    \x7d\n" ++
      "    task(\"f\", plan)\n" ++
      "  \x7d\n" ++
      "\x7d\n" := by
  decide +kernel

end Playbook
