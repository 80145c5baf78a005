import Mathlib.Data.List.DropRight
import Playbook.Proofs.Instructions.Layout
import Playbook.Proofs.Parser.WellFormed

/-!
# Texts in the document

The instruction for a simple statement is meant to stand in the document as it is, however deep the
statement lies.  Blocks and sections put the instructions of their statements together without a
change.  A task cuts them into lines and indents these, and this keeps every text that stands on one
line, with one exception: a carriage return in front of a line break counts as part of the break and
is lost.

So what `StaysWhole` is handed on from each statement to the one around it
(`infix_of_mem_children`), up to the document.  Of the simple statements that can be read from a
file, only an assignment can end with a carriage return; it is passed on up to there.
-/

namespace Playbook

/-! ### Texts that are kept by cutting into lines -/

namespace Text

variable {text more : List Char}

/-- A text does not end with a carriage return. -/
def EndsFirmly (text : List Char) : Prop := text.getLast? ≠ some '\r'

instance (text : List Char) : Decidable (EndsFirmly text) :=
  inferInstanceAs (Decidable (text.getLast? ≠ some '\r'))

theorem EndsFirmly.append (ht : EndsFirmly text) (hm : EndsFirmly more) :
    EndsFirmly (text ++ more) := by
  unfold EndsFirmly
  rw [List.getLast?_append]
  cases hlast : more.getLast? with
  | none => exact ht
  | some c => exact fun h => hm (hlast.trans h)

theorem endsFirmly_inQuotes (text : List Char) : EndsFirmly (inQuotes text) := by
  unfold EndsFirmly inQuotes
  rw [← List.cons_append, List.getLast?_concat]
  decide

theorem endsFirmly_of_not_mem (h : '\r' ∉ text) : EndsFirmly text :=
  fun hlast => h (List.mem_of_getLast? hlast)

/-- A trimmed text does not end with a blank. -/
theorem endsFirmly_of_trim (h : trim text = text) : EndsFirmly text := by
  intro hlast
  obtain ⟨init, rfl⟩ := List.getLast?_eq_some_iff.1 hlast
  rw [trim_append_blank (by decide)] at h
  have hlength := (trim_isInfix init).length_le
  rw [h, List.length_append, List.length_singleton] at hlength
  omega

theorem EndsFirmly.joinWith {sep : List Char} (hsep : EndsFirmly sep) {texts : List (List Char)}
    (h : ∀ text ∈ texts, EndsFirmly text) : EndsFirmly (joinWith sep texts) :=
  joinWith_induct nofun EndsFirmly.append hsep h

/-- A text on one line that does not end with a carriage return. -/
structure StaysWhole (text : List Char) : Prop where
  ne_nil : text ≠ []
  not_mem : '\n' ∉ text
  ends : EndsFirmly text

/-- A part of a joined text that does not hold the separator is part of one of the pieces. -/
theorem exists_infix_of_infix_joinWith {sep : Char} (hsep : sep ∉ text) (hne : text ≠ [])
    {pieces : List (List Char)} (h : text <:+: joinWith [sep] pieces) :
    ∃ piece ∈ pieces, text <:+: piece := by
  induction pieces with
  | nil => exact absurd (List.infix_nil.1 h) hne
  | cons piece rest ih =>
    cases rest with
    | nil => exact ⟨piece, List.mem_singleton_self piece, h⟩
    | cons next more =>
      rw [joinWith_cons _ _ (List.cons_ne_nil _ _), List.append_assoc, List.singleton_append] at h
      rcases infix_or_infix_of_not_mem h hsep with h | h
      · exact ⟨piece, List.mem_cons_self, h⟩
      · obtain ⟨found, hfound, hpart⟩ := ih h
        exact ⟨found, List.mem_cons_of_mem piece hfound, hpart⟩

namespace StaysWhole

theorem infix_dropReturn (h : StaysWhole text) {line : List Char} (hpart : text <:+: line) :
    text <:+: dropReturn line := by
  obtain ⟨before, after, rfl⟩ := hpart
  have hlast : (before ++ text).getLast? ≠ some '\r' := by
    rw [List.getLast?_append_of_ne_nil _ h.ne_nil]
    exact h.ends
  have hfront := prefix_dropReturn (List.prefix_append (before ++ text) after) hlast
  exact (List.suffix_append before text).isInfix.trans hfront.isInfix

/-- Cutting into lines keeps the text. -/
theorem exists_line (h : StaysWhole text) {source : List Char} (hpart : text <:+: source) :
    ∃ line ∈ lines source, text <:+: line := by
  rw [← joinWith_splitOn '\n' source] at hpart
  obtain ⟨piece, hpiece, hpart⟩ := exists_infix_of_infix_joinWith h.not_mem h.ne_nil hpart
  obtain ⟨i, hi⟩ := List.getElem?_of_mem hpiece
  have hne : piece ≠ [] := by
    rintro rfl
    exact h.ne_nil (List.infix_nil.1 hpart)
  obtain ⟨line, hline, rfl | rfl⟩ := getElem?_endLines hi hne
  · exact ⟨line, List.mem_of_getElem? hline, hpart⟩
  · exact ⟨_, List.mem_of_getElem? hline, h.infix_dropReturn hpart⟩

end StaysWhole

end Text

/-! ### From a statement to the one around it -/

namespace Instructions

open Text

variable {text : List Char} {s inner : Statement}

theorem infix_flatMap {α β : Type} {f : α → List β} {list : List α} {a : α} (h : a ∈ list) :
    f a <:+: list.flatMap f := by
  rw [List.flatMap_def]
  exact List.infix_of_mem_flatten (List.mem_map_of_mem h)

theorem infix_bulleted (heading : List Char) {instruction : List Char}
    {instructions : List (List Char)} (h : instruction ∈ instructions) :
    instruction <:+: bulleted heading instructions := by
  have hbullet : instruction <:+: "\n- ".toList ++ instruction := (List.suffix_append ..).isInfix
  exact (hbullet.trans (infix_flatMap (f := fun text => "\n- ".toList ++ text) h)).trans
    (List.suffix_append ..).isInfix

theorem infix_continuation (line : List Char) : line <:+: continuation line := by
  unfold continuation
  split
  · next hempty =>
    rw [List.isEmpty_iff.1 hempty]
  · exact (List.suffix_append ..).isInfix

/-- An item of a prompt holds the texts of its instruction that stay whole. -/
theorem infix_promptItem (h : StaysWhole text) {instruction : List Char}
    (hpart : text <:+: instruction) : text <:+: promptItem instruction := by
  obtain ⟨line, hline, hpart⟩ := h.exists_line hpart
  unfold promptItem
  split
  · next hnone =>
    rw [hnone] at hline
    cases hline
  · next first rest hlines =>
    rw [hlines] at hline
    rcases List.mem_cons.1 hline with rfl | hline
    · exact (hpart.trans (List.suffix_append ..).isInfix).trans (infix_joinWith List.mem_cons_self)
    · exact (hpart.trans (infix_continuation line)).trans
        (infix_joinWith (List.mem_cons_of_mem _ (List.mem_map_of_mem hline)))

theorem infix_ofTask (h : StaysWhole text) {t : Task} (hinner : inner ∈ t.body)
    (hpart : text <:+: ofStatement inner) : text <:+: ofTask t := by
  have hprompt : prompt t.description t.file (ofStatements t.body) = ofStatements t.body := by
    -- only a task without a body is sent to its file
    have hne : t.body ≠ [] := List.ne_nil_of_mem hinner
    unfold prompt
    split <;> simp [hne]
  have hmem : ofStatement inner ∈ ofStatements t.body := by
    rw [ofStatements_eq_map]
    exact List.mem_map_of_mem hinner
  rw [Rendering.ofTask_eq_handOver, Rendering.handOver_eq, hprompt]
  refine ((infix_promptItem h hpart).trans (List.suffix_cons '\n' _).isInfix).trans ?_
  exact (infix_flatMap (f := fun text => '\n' :: promptItem text) hmem).trans
    (List.suffix_append ..).isInfix

theorem infix_sections {tasks : List Task} {t : Task} (h : t ∈ tasks) (number : Nat) :
    ofTask t <:+: sections number tasks := by
  induction tasks generalizing number with
  | nil => cases h
  | cons first rest ih =>
    unfold sections
    rcases List.mem_cons.1 h with rfl | h
    · exact List.infix_append _ _ _
    · exact (ih h (number + 1)).trans (List.suffix_append ..).isInfix

/-- A text that stays whole is handed on from the instruction for a statement to the one for the
statement around it. -/
theorem infix_of_mem_children (h : StaysWhole text) (hinner : inner ∈ s.children)
    (hpart : text <:+: ofStatement inner) : text <:+: ofStatement s := by
  have hbulleted : ∀ (heading : List Char) (body : List Statement), inner ∈ body →
      text <:+: bulleted heading (ofStatements body) := by
    intro heading body hmem
    rw [ofStatements_eq_map]
    exact hpart.trans (infix_bulleted heading (List.mem_map_of_mem hmem))
  cases s with
  | ifThen condition body | whileLoop condition body | forEach item iterable body =>
    exact hbulleted _ body hinner
  | ifElse condition body otherwise =>
    rcases List.mem_append.1 hinner with hinner | hinner
    · refine (hbulleted ("If ".toList ++ condition.toList ++ [':']) body hinner).trans ?_
      exact ((List.prefix_append _ _).trans (List.prefix_append _ _)).isInfix
    · exact (hbulleted _ otherwise hinner).trans (List.suffix_append ..).isInfix
  | task t => exact infix_ofTask h hinner hpart
  | parallel tasks =>
    obtain ⟨t, ht, rfl⟩ := List.mem_map.1 hinner
    exact (hpart.trans (infix_sections ht 1)).trans (List.suffix_append ..).isInfix
  | ask | confirm | createFile | assign | call | stop | waitForResponse | unknown => cases hinner

/-- The instruction for a statement holds the texts that stay whole of the instructions for all
statements in it, at any depth. -/
theorem everywhere_infix_ofStatement (s : Statement) : s.Everywhere fun inner =>
    ∀ text, StaysWhole text → text <:+: ofStatement inner → text <:+: ofStatement s := by
  induction s using Statement.induct_children with
  | h s ih =>
    refine .intro (fun text _ h => h) fun inner hinner => (ih inner hinner).imp ?_
    intro deep hdeep text htext hpart
    exact infix_of_mem_children htext hinner (hdeep text htext hpart)

theorem everywhere_infix_compile (c : Command) : c.Everywhere fun inner =>
    ∀ text, StaysWhole text → text <:+: ofStatement inner → text <:+: c.compile.toList := by
  intro s hs
  refine (everywhere_infix_ofStatement s).imp fun inner hinner text htext hpart => ?_
  rw [Command.compile, String.toList_ofList, ofStatements_eq_map]
  exact (hinner text htext hpart).trans (infix_joinWith (List.mem_map_of_mem hs))

end Instructions

/-! ### Simple statements -/

/-- A statement that is one instruction by itself. -/
def Statement.isSimple : Statement → Bool
  | .ask _ | .confirm _ | .createFile _ _ | .assign _ _ | .call _ _ => true
  | .stop | .waitForResponse => true
  | .ifThen _ _ | .ifElse _ _ _ | .whileLoop _ _ | .forEach _ _ _ => false
  | .task _ | .parallel _ | .unknown _ => false

namespace Instructions

open Text

variable {s : Statement}

/-- The instruction for a simple statement starts with a word. -/
theorem exists_cons_of_isSimple (h : s.isSimple = true) :
    ∃ c rest, ofStatement s = c :: rest ∧ c ≠ '\r' := by
  cases s with
  | ask question => cases question <;> exact ⟨'A', _, rfl, by decide⟩
  | confirm message => exact ⟨'A', _, rfl, by decide⟩
  | createFile filename content => exact ⟨'C', _, rfl, by decide⟩
  | assign name value => exact ⟨'S', _, rfl, by decide⟩
  | call name args => cases args <;> exact ⟨'C', _, rfl, by decide⟩
  | stop => exact ⟨'S', _, rfl, by decide⟩
  | waitForResponse => exact ⟨'W', _, rfl, by decide⟩
  | _ => cases h

theorem not_mem_inQuotes {c : Char} {text : List Char} (hc : c ≠ '"') (h : c ∉ text) :
    c ∉ inQuotes text := by
  unfold inQuotes
  rw [List.mem_cons, not_or]
  exact ⟨hc, List.not_mem_append h (by simpa using hc)⟩

theorem not_mem_display {value : Value} (h : ∀ text ∈ value.texts, '\n' ∉ text.toList) :
    '\n' ∉ value.display.toList := by
  cases value with
  | str text | expr text => exact h text (List.mem_singleton_self text)
  | bool b => cases b <;> decide
  | array items =>
    rw [Value.display, String.toList_ofList]
    exact not_mem_joinWith (by decide) (List.forall_mem_map.2 h)

/-- The instruction for a simple statement stands on one line if the texts of the statement do. -/
theorem not_mem_ofStatement (hsimple : s.isSimple = true)
    (h : ∀ text ∈ s.texts, '\n' ∉ text.toList) : '\n' ∉ ofStatement s := by
  cases s with
  | ask question =>
    have hquestion := h _ (List.mem_singleton_self _)
    cases question with
    | literal text => exact List.not_mem_append (by decide) (not_mem_inQuotes (by decide) hquestion)
    | reference expression => exact List.not_mem_append (by decide) hquestion
  | confirm message =>
    have hmessage := h _ (List.mem_singleton_self _)
    exact List.not_mem_append (by decide) (not_mem_inQuotes (by decide) hmessage)
  | createFile filename content =>
    have hfilename := not_mem_inQuotes (by decide) (h filename List.mem_cons_self)
    have hcontent : '\n' ∉ content.shown := by
      have htext := h content.text (List.mem_cons_of_mem _ (List.mem_singleton_self _))
      cases content with
      | literal text => exact not_mem_inQuotes (by decide) htext
      | reference expression => exact htext
    have hopening := List.not_mem_append (by decide : '\n' ∉ "Create file ".toList) hfilename
    exact List.not_mem_append (List.not_mem_append hopening (by decide)) hcontent
  | assign name value =>
    have hname := h name List.mem_cons_self
    have hvalue := not_mem_display fun text ht => h text (List.mem_cons_of_mem _ ht)
    have hopening := List.not_mem_append (by decide : '\n' ∉ "Set ".toList) hname
    exact List.not_mem_append (List.not_mem_append hopening (by decide)) hvalue
  | call name args =>
    have hname := h name List.mem_cons_self
    have hargs : '\n' ∉ joinWith ", ".toList (args.map String.toList) :=
      not_mem_joinWith (by decide)
        (List.forall_mem_map.2 fun text ht => h text (List.mem_cons_of_mem _ ht))
    have hopening := List.not_mem_append (by decide : '\n' ∉ "Call function ".toList) hname
    cases args with
    | nil => exact hopening
    | cons arg args => exact List.not_mem_append (List.not_mem_append hopening (by decide)) hargs
  | stop | waitForResponse => decide
  | _ => cases hsimple

/-- Of the simple statements that can be read, only an assignment may end with a carriage return:
that of a string or of an array whose last item ends with one. -/
theorem endsFirmly_ofStatement (hsimple : s.isSimple = true) (hs : s.WellFormed)
    (hassign : ∀ name value, s = .assign name value → EndsFirmly value.display.toList) :
    EndsFirmly (ofStatement s) := by
  have hnames : ∀ name ∈ s.identifiers, EndsFirmly name.toList := fun name hname =>
    endsFirmly_of_not_mem (not_mem_of_isName (hs.isName name hname) (by decide))
  have hexpression : ∀ text ∈ s.expressions, EndsFirmly text.toList := fun text ht =>
    endsFirmly_of_trim (hs.isTrimmed text ht).2
  cases s with
  | ask question =>
    cases question with
    | literal text => exact .append (by decide) (endsFirmly_inQuotes _)
    | reference expression => exact .append (by decide) (hexpression _ (List.mem_singleton_self _))
  | confirm message => exact .append (by decide) (endsFirmly_inQuotes _)
  | createFile filename content =>
    have hcontent : EndsFirmly content.shown := by
      cases content with
      | literal text => exact endsFirmly_inQuotes _
      | reference expression => exact hexpression _ (List.mem_singleton_self _)
    exact .append (.append (.append (by decide) (endsFirmly_inQuotes _)) (by decide)) hcontent
  | assign name value =>
    have hname := hnames name (List.mem_singleton_self name)
    exact .append (.append (.append (by decide) hname) (by decide)) (hassign name value rfl)
  | call name args =>
    have hname := hnames name (List.mem_singleton_self name)
    have hargs : EndsFirmly (joinWith ", ".toList (args.map String.toList)) :=
      .joinWith (by decide) (List.forall_mem_map.2 hexpression)
    cases args with
    | nil => exact .append (by decide) hname
    | cons arg args => exact .append (.append (.append (by decide) hname) (by decide)) hargs
  | stop | waitForResponse => decide
  | _ => cases hsimple

/-- The instruction for a simple statement on one line stays whole but for the carriage returns at
its end. -/
theorem staysWhole_rdropWhile (hsimple : s.isSimple = true) (h : '\n' ∉ ofStatement s) :
    StaysWhole ((ofStatement s).rdropWhile (· == '\r')) where
  ne_nil := by
    obtain ⟨c, rest, hcons, hc⟩ := exists_cons_of_isSimple hsimple
    intro hnil
    have hall := List.rdropWhile_eq_nil_iff.1 hnil c (hcons ▸ List.mem_cons_self)
    exact hc (beq_iff_eq.1 hall)
  not_mem := fun hmem => h ((List.rdropWhile_prefix _ _).subset hmem)
  ends := by
    intro hlast
    have hne := List.ne_nil_of_mem (List.mem_of_getLast? hlast)
    have hreturn := List.rdropWhile_last_not _ _ hne
    rw [List.getLast?_eq_some_getLast hne, Option.some.injEq] at hlast
    exact hreturn (by rw [hlast]; decide)

end Instructions

/-- The instruction for each simple statement of a file stands in the document for the file as it
is, unless it ends with a carriage return; the carriage returns at its end may be missing. -/
theorem Command.infix_compile_of_parse {source : String} {c : Command}
    (h : Command.parse source = .ok c) : c.Everywhere fun s => s.isSimple = true →
      (Instructions.ofStatement s).rdropWhile (· == '\r') <:+: c.compile.toList ∧
      ((∀ name value, s = .assign name value → value.display.toList.getLast? ≠ some '\r') →
        Instructions.ofStatement s <:+: c.compile.toList) := by
  obtain ⟨scanned, hscan, hc⟩ := Command.parse_eq_ok_iff.1 h
  have hread := Parser.everywhere_of_command (Parser.holdsWithin_readFrom scanned.tokens) hc
  intro s hs
  refine ((hread s hs).and (Instructions.everywhere_infix_compile c s hs)).imp ?_
  rintro inner ⟨hinner, hpart⟩ hsimple
  have hbreak : '\n' ∉ Instructions.ofStatement inner :=
    Instructions.not_mem_ofStatement hsimple fun text ht =>
      (isOnOneLine_of_isTextIn hscan (hinner.texts text ht)).not_mem
  have hwhole := Instructions.staysWhole_rdropWhile hsimple hbreak
  refine ⟨hpart _ hwhole (List.rdropWhile_prefix _ _).isInfix, fun hassign => ?_⟩
  obtain ⟨c, rest, hcons, -⟩ := Instructions.exists_cons_of_isSimple hsimple
  refine hpart _ ⟨hcons ▸ List.cons_ne_nil c rest, hbreak, ?_⟩ List.infix_rfl
  exact Instructions.endsFirmly_ofStatement hsimple (hinner.wellFormed hscan) hassign

/-- A file with a string that ends with a carriage return, in a block of a task. -/
def returnSource : String :=
  "command c \x7b\ntask \"t\" \x7b\nif (a) \x7b\nx = \"b\x0d\"\nbreak\n\x7d\n\x7d\n\x7d"

/-- The command in that file. -/
def returnCommand : Command :=
  ⟨"c", [.task (Task.inline "t" .general [.ifThen "a" [.assign "x" (.str "b\x0d"), .stop]])]⟩

theorem parse_returnSource : Command.parse returnSource = .ok returnCommand := by
  with_unfolding_all rfl

/-- What holds of the statements of that file holds of the two in its block. -/
theorem everywhere_returnCommand {P : Statement → Prop} (h : returnCommand.Everywhere P) :
    P (.assign "x" (.str "b\x0d")) ∧ P .stop := by
  have hblock := (h _ List.mem_cons_self).inside _ List.mem_cons_self
  have hlast := hblock.inside .stop (List.mem_cons_of_mem _ (List.mem_singleton_self _))
  exact ⟨(hblock.inside _ List.mem_cons_self).here, hlast.here⟩

theorem Command.infix_compile_of_parse_returnSource :
    Command.parse returnSource = .ok returnCommand ∧
      "Set x = b".toList <:+: returnCommand.compile.toList ∧
      "Stop current loop/process.".toList <:+: returnCommand.compile.toList := by
  obtain ⟨hassign, hstop⟩ :=
    everywhere_returnCommand (Command.infix_compile_of_parse parse_returnSource)
  exact ⟨parse_returnSource, (hassign rfl).1, (hstop rfl).2 nofun⟩

/-- The instruction to set the string does not stand in the document as it is: the carriage return
at its end is lost with the line break that follows it in the item of the block. -/
theorem not_infix_compile_returnSource :
    Command.parse returnSource = .ok returnCommand ∧
      ¬ returnCommand.Everywhere fun s => s.isSimple = true →
        Instructions.ofStatement s <:+: returnCommand.compile.toList := by
  refine ⟨parse_returnSource, fun h => ?_⟩
  have hreturn : '\r' ∉ returnCommand.compile.toList := by
    rw [Command.compile, String.toList_ofList]
    decide +kernel
  have hpart := (everywhere_returnCommand h).1 rfl
  exact hreturn (hpart.subset (by decide))

end Playbook
