import Playbook.Command.Instructions
import Playbook.Proofs.Command
import Playbook.Proofs.Text

/-!
# The layout of instructions

`Command.compile` writes the instructions of a task by cutting the instructions of its body into
lines again and indenting them, once for every task around them.  `Command.render` writes the same
document in one pass, line by line, and knows how many tasks are around each line: inside `d` tasks
every line that is not empty stands behind `4 * d` spaces, except that a statement directly in the
body of a task starts with `4 * (d - 1)` spaces and a bullet.

The two agree on all commands whose texts hold no line breaks and no carriage returns
(`Command.compile_eq_render`).  The reason is that one task more around a statement indents all its
lines but the first (`below_succ`), and that cutting a document into lines gives back the lines that
it was written from (`Text.lines_joinWith`).
-/

namespace Playbook

/-! ### Texts on one line -/

namespace Text

/-- A text without line breaks and carriage returns. -/
def IsPlain (text : List Char) : Prop := '\n' ∉ text ∧ '\r' ∉ text

instance (text : List Char) : Decidable (IsPlain text) :=
  inferInstanceAs (Decidable (_ ∧ _))

@[simp] theorem isPlain_nil : IsPlain [] := by
  simp [IsPlain]

theorem IsPlain.append {text more : List Char} (ht : IsPlain text) (hm : IsPlain more) :
    IsPlain (text ++ more) :=
  ⟨by simp [ht.1, hm.1], by simp [ht.2, hm.2]⟩

theorem IsPlain.inQuotes {text : List Char} (h : IsPlain text) : IsPlain (inQuotes text) :=
  IsPlain.append (by decide : IsPlain ['"']) (h.append (by decide))

theorem IsPlain.joinWith {sep : List Char} (hsep : IsPlain sep) {texts : List (List Char)}
    (h : ∀ text ∈ texts, IsPlain text) : IsPlain (joinWith sep texts) :=
  joinWith_induct isPlain_nil IsPlain.append hsep h

theorem isPlain_toString (n : Nat) : IsPlain (toString n).toList := by
  have hdigit : ∀ c ∈ (toString n).toList, c.isDigit = true := by
    intro c hc
    rw [Nat.toString_eq_repr, Nat.toList_repr] at hc
    exact Nat.isDigit_of_mem_toDigits (by decide) (by decide) hc
  constructor
  · intro hmem
    exact absurd (hdigit _ hmem) (by decide)
  · intro hmem
    exact absurd (hdigit _ hmem) (by decide)

theorem dropReturn_of_not_mem {line : List Char} (h : '\r' ∉ line) : dropReturn line = line := by
  rw [dropReturn, if_neg]
  intro hlast
  exact h (List.mem_of_getLast? hlast)

/-- The lines of a document: plain ones, the last of which is not empty. -/
structure IsDocument (lines : List (List Char)) : Prop where
  plain : ∀ line ∈ lines, IsPlain line
  ends : ∀ line ∈ lines.getLast?, line ≠ []

namespace IsDocument

variable {line : List Char} {lines others : List (List Char)}

theorem nil : IsDocument [] := ⟨by simp, by simp⟩

theorem append (h : IsDocument lines) (ho : IsDocument others) : IsDocument (lines ++ others) where
  plain := List.forall_mem_append.2 ⟨h.plain, ho.plain⟩
  ends := by
    intro last hlast
    rw [List.getLast?_append] at hlast
    cases hother : others.getLast? with
    | none =>
      rw [hother] at hlast
      exact h.ends last hlast
    | some found =>
      rw [hother] at hlast
      obtain rfl : found = last := Option.some.inj hlast
      exact ho.ends found hother

theorem singleton (hp : IsPlain line) (hne : line ≠ []) : IsDocument [line] :=
  ⟨by simpa using hp, by simpa using hne⟩

theorem cons (hp : IsPlain line) (hne : line ≠ []) (h : IsDocument lines) :
    IsDocument (line :: lines) :=
  (singleton hp hne).append h

/-- An empty line may stand before another one. -/
theorem blank (h : IsDocument (line :: lines)) : IsDocument ([] :: line :: lines) where
  plain := List.forall_mem_cons.2 ⟨isPlain_nil, h.plain⟩
  ends := by
    intro last hlast
    rw [List.getLast?_cons_cons] at hlast
    exact h.ends last hlast

end IsDocument

theorem endLines_of_isDocument {lines : List (List Char)} (h : IsDocument lines) :
    endLines lines = lines := by
  induction lines with
  | nil => rfl
  | cons line rest ih =>
    obtain ⟨hplain, hends⟩ := h
    rw [List.forall_mem_cons] at hplain
    cases rest with
    | nil =>
      have hne : line ≠ [] := hends line rfl
      simp [endLines, hne]
    | cons next rest =>
      have hrest : endLines (next :: rest) = next :: rest := by
        refine ih ⟨hplain.2, fun last hlast => hends last ?_⟩
        rw [List.getLast?_cons_cons]
        exact hlast
      rw [endLines, dropReturn_of_not_mem hplain.1.2, hrest]
      simp

/-- Cutting a document into lines gives the lines that it was written from. -/
theorem lines_joinWith {text : List (List Char)} (h : IsDocument text) :
    lines (joinWith ['\n'] text) = text := by
  cases text with
  | nil => rfl
  | cons line rest =>
    have hbreak : ∀ piece ∈ line :: rest, '\n' ∉ piece := fun piece hp => (h.plain piece hp).1
    rw [lines, splitOn_joinWith (List.cons_ne_nil _ _) hbreak, endLines_of_isDocument h]

/-- Lines that follow others: a break stands in front of each. -/
def following (lines : List (List Char)) : List Char := lines.flatMap ('\n' :: ·)

@[simp] theorem following_nil : following [] = [] := rfl

@[simp] theorem following_cons (line : List Char) (rest : List (List Char)) :
    following (line :: rest) = '\n' :: (line ++ following rest) := rfl

@[simp] theorem following_append (lines others : List (List Char)) :
    following (lines ++ others) = following lines ++ following others :=
  List.flatMap_append

theorem joinWith_cons_eq_flatMap (sep text : List Char) (rest : List (List Char)) :
    joinWith sep (text :: rest) = text ++ rest.flatMap (sep ++ ·) := by
  induction rest generalizing text with
  | nil => simp
  | cons next rest ih =>
    rw [joinWith_cons _ _ (List.cons_ne_nil _ _), ih]
    simp

/-- A document is its first line and what follows it. -/
theorem joinWith_cons_eq_following (line : List Char) (rest : List (List Char)) :
    joinWith ['\n'] (line :: rest) = line ++ following rest :=
  joinWith_cons_eq_flatMap ['\n'] line rest

end Text

/-! ### The texts of a command -/

/-- The texts of a statement are plain. -/
def Statement.HasPlainTexts (s : Statement) : Prop := ∀ text ∈ s.texts, Text.IsPlain text.toList

instance (s : Statement) : Decidable s.HasPlainTexts :=
  inferInstanceAs (Decidable (∀ text ∈ s.texts, _))

/-! ### Writing in one pass -/

namespace Rendering

open Instructions (title)

/-- The spaces in front of a line inside the given number of tasks. -/
def indent (depth : Nat) : List Char := List.replicate (4 * depth) ' '

/-- The first line of a task. -/
def spawning (t : Task) : List Char :=
  "Spawn a ".toList ++ t.agent.label.toList ++ " subagent task: ".toList ++
    inQuotes (title t.description t.file)

/-- The first line of a statement, without what stands in front of it. -/
def opening : Statement → List Char
  | .ask (.literal question) => "Ask the user: ".toList ++ inQuotes question.toList
  | .ask (.reference question) =>
    "Ask the user the question from variable: ".toList ++ question.toList
  | .confirm message => "Ask for confirmation: ".toList ++ inQuotes message.toList
  | .createFile filename content =>
    "Create file ".toList ++ inQuotes filename.toList ++ " with content: ".toList ++ content.shown
  | .assign name value => "Set ".toList ++ name.toList ++ " = ".toList ++ value.display.toList
  | .call name [] => "Call function ".toList ++ name.toList
  | .call name (arg :: args) =>
    "Call function ".toList ++ name.toList ++ " with arguments: ".toList ++
      Text.joinWith ", ".toList ((arg :: args).map String.toList)
  | .ifThen condition _ | .ifElse condition _ _ => "If ".toList ++ condition.toList ++ [':']
  | .whileLoop condition _ => "While ".toList ++ condition.toList ++ ", repeat:".toList
  | .forEach item iterable _ =>
    "For each ".toList ++ item.toList ++ " in ".toList ++ iterable.toList ++ [':']
  | .stop => "Stop current loop/process.".toList
  | .waitForResponse => "Wait for user response before continuing.".toList
  | .task t => spawning t
  | .parallel tasks =>
    "Spawn ".toList ++ (toString tasks.length).toList ++ " subagent tasks in parallel:".toList
  | .unknown kind => "// Unknown statement type: ".toList ++ kind.toList

/-- The line that sends an agent to the file of a task which has nothing else. -/
def directions (depth : Nat) (t : Task) : List (List Char) :=
  match t.file with
  | some file =>
    if t.description.isEmpty && t.body.isEmpty then
      [indent depth ++ "  - Follow the instructions in ".toList ++ file.toList]
    else []
  | none => []

/-- The lines between the first line of a task and its prompt. -/
def arguments (depth : Nat) (t : Task) : List (List Char) :=
  [[], indent depth ++ "Use the Task tool with:".toList,
    indent depth ++ "- subagent_type: ".toList ++ t.agent.label.toList,
    indent depth ++ "- description: ".toList ++ title t.description t.file,
    indent depth ++ "- prompt:".toList]

/-- The lines that start the section of a task among those that run side by side. -/
def heading (depth number : Nat) (t : Task) : List (List Char) :=
  [[], indent depth ++ "### Task ".toList ++ (toString number).toList, [],
    indent depth ++ spawning t]

mutual

/-- The lines of a statement after its first one, inside the given number of tasks. -/
def below (depth : Nat) : Statement → List (List Char)
  | .ifThen _ body => bullets depth body
  | .ifElse _ body otherwise =>
    bullets depth body ++
      [] :: (indent depth ++ "Otherwise:".toList) :: bullets depth otherwise
  | .whileLoop _ body => bullets depth body
  | .forEach _ _ body => bullets depth body
  | .task t => belowTask depth t
  | .parallel tasks => sections depth 1 tasks
  | .ask _ | .confirm _ | .createFile _ _ | .assign _ _ | .call _ _ => []
  | .stop | .waitForResponse | .unknown _ => []

/-- The lines of the statements of a block, with a bullet in front of each. -/
def bullets (depth : Nat) : List Statement → List (List Char)
  | [] => []
  | s :: rest =>
    (indent depth ++ "- ".toList ++ opening s) :: (below depth s ++ bullets depth rest)

/-- The lines of a task after its first one. -/
def belowTask (depth : Nat) : TaskOf Statement → List (List Char)
  | ⟨description, agent, body, file⟩ =>
    arguments depth ⟨description, agent, body, file⟩ ++
      (directions depth ⟨description, agent, body, file⟩ ++ items depth body)

/-- The lines of the statements in the body of a task, which are inside one task more. -/
def items (depth : Nat) : List Statement → List (List Char)
  | [] => []
  | s :: rest =>
    (indent depth ++ "  - ".toList ++ opening s) :: (below (depth + 1) s ++ items depth rest)

/-- The lines of tasks that run side by side, under headings numbered from the given number. -/
def sections (depth number : Nat) : List (TaskOf Statement) → List (List Char)
  | [] => []
  | t :: rest =>
    heading depth number t ++ (belowTask depth t ++ sections depth (number + 1) rest)

end

/-- The lines of the statements of a command, with an empty line between neighbours. -/
def paragraphs : List Statement → List (List Char)
  | [] => []
  | first :: rest =>
    opening first :: (below 0 first ++ rest.flatMap fun s => [] :: opening s :: below 0 s)

end Rendering

/-- The document of instructions for a command, written in one pass. -/
def Command.render (c : Command) : String :=
  String.ofList (Text.joinWith ['\n'] (Rendering.paragraphs c.body))

namespace Rendering

open Instructions Text

/-! ### One task more -/

theorem indent_succ (depth : Nat) : indent (depth + 1) = "    ".toList ++ indent depth := by
  rw [indent, indent, show 4 * (depth + 1) = 4 + 4 * depth by omega,
    ← List.replicate_append_replicate]
  rfl

theorem continuation_of_ne_nil {line : List Char} (h : line ≠ []) :
    continuation line = "    ".toList ++ line := by
  simp [continuation, h]

variable {body : List Statement} {depth : Nat}

theorem bullets_succ (ih : ∀ s ∈ body, below (depth + 1) s = (below depth s).map continuation) :
    bullets (depth + 1) body = (bullets depth body).map continuation := by
  induction body with
  | nil => rfl
  | cons s rest ihr =>
    rw [List.forall_mem_cons] at ih
    rw [bullets, bullets, ih.1, ihr ih.2, List.map_cons, List.map_append,
      continuation_of_ne_nil (by simp), indent_succ]
    simp

theorem items_succ
    (ih : ∀ s ∈ body, below (depth + 2) s = (below (depth + 1) s).map continuation) :
    items (depth + 1) body = (items depth body).map continuation := by
  induction body with
  | nil => rfl
  | cons s rest ihr =>
    rw [List.forall_mem_cons] at ih
    rw [items, items, ih.1, ihr ih.2, List.map_cons, List.map_append,
      continuation_of_ne_nil (by simp), indent_succ]
    simp

theorem belowTask_eq (depth : Nat) (t : Task) :
    belowTask depth t = arguments depth t ++ (directions depth t ++ items depth t.body) := by
  cases t
  rw [belowTask]

theorem arguments_succ (t : Task) :
    arguments (depth + 1) t = (arguments depth t).map continuation := by
  simp [arguments, continuation, indent_succ]

theorem directions_succ (t : Task) :
    directions (depth + 1) t = (directions depth t).map continuation := by
  unfold directions
  split
  · split <;> simp [continuation, indent_succ]
  · rfl

theorem belowTask_succ {t : Task}
    (ih : ∀ s ∈ t.body, below (depth + 2) s = (below (depth + 1) s).map continuation) :
    belowTask (depth + 1) t = (belowTask depth t).map continuation := by
  rw [belowTask_eq, belowTask_eq, arguments_succ, directions_succ, items_succ ih]
  simp

theorem spawning_ne_nil (t : Task) : spawning t ≠ [] :=
  List.append_ne_nil_of_right_ne_nil _ (List.cons_ne_nil _ _)

theorem heading_succ (number : Nat) (t : Task) :
    heading (depth + 1) number t = (heading depth number t).map continuation := by
  have hspawning := spawning_ne_nil t
  simp [heading, continuation, indent_succ, hspawning]

theorem sections_succ {tasks : List Task} (number : Nat)
    (ih : ∀ t ∈ tasks, belowTask (depth + 1) t = (belowTask depth t).map continuation) :
    sections (depth + 1) number tasks = (sections depth number tasks).map continuation := by
  induction tasks generalizing number with
  | nil => rfl
  | cons t rest ihr =>
    rw [List.forall_mem_cons] at ih
    rw [sections, sections, heading_succ, ih.1, ihr (number + 1) ih.2, List.map_append,
      List.map_append]

/-- One task more around a statement indents its lines after the first one. -/
theorem below_succ (depth : Nat) (s : Statement) :
    below (depth + 1) s = (below depth s).map continuation := by
  induction s generalizing depth with
  | ifThen condition body ih | whileLoop condition body ih | forEach item iterable body ih =>
    rw [below, below, bullets_succ fun s hs => ih s hs depth]
  | ifElse condition body otherwise ihb iho =>
    rw [below, below, bullets_succ fun s hs => ihb s hs depth,
      bullets_succ fun s hs => iho s hs depth]
    simp [continuation, indent_succ]
  | task t ih => rw [below, below, belowTask_succ fun s hs => ih s hs (depth + 1)]
  | parallel tasks ih =>
    rw [below, below]
    exact sections_succ 1 fun t ht => belowTask_succ fun s hs => ih t ht s hs (depth + 1)
  | ask | confirm | createFile | assign | call | stop | waitForResponse | unknown =>
    simp only [below, List.map_nil]

/-! ### Every line is plain -/

variable {t : Task}

theorem isPlain_indent (depth : Nat) : IsPlain (indent depth) := by
  constructor
  · intro h
    exact absurd (List.eq_of_mem_replicate h) (by decide)
  · intro h
    exact absurd (List.eq_of_mem_replicate h) (by decide)

theorem isPlain_label (a : Agent) : IsPlain a.label.toList := by
  cases a <;> decide

theorem isPlain_title (h : (Statement.task t).HasPlainTexts) :
    IsPlain (title t.description t.file) := by
  have hdescription : IsPlain t.description.toList := h _ (List.mem_cons_self ..)
  unfold title
  split
  · rename_i file hfile
    have hplain : IsPlain file.toList := h file (by simp [Statement.texts, hfile])
    split
    · exact hplain
    · exact hdescription
  · exact hdescription

theorem isPlain_spawning (h : (Statement.task t).HasPlainTexts) : IsPlain (spawning t) :=
  .append (.append (.append (by decide) (isPlain_label t.agent)) (by decide))
    (isPlain_title h).inQuotes

theorem isPlain_shown {p : Phrase} (h : IsPlain p.text.toList) : IsPlain p.shown := by
  cases p with
  | literal text => exact h.inQuotes
  | reference expression => exact h

theorem isPlain_display {v : Value} (h : ∀ text ∈ v.texts, IsPlain text.toList) :
    IsPlain v.display.toList := by
  cases v with
  | str text => exact h text (List.mem_singleton_self text)
  | expr expression => exact h expression (List.mem_singleton_self expression)
  | bool b => cases b <;> decide
  | array items =>
    rw [Value.display, String.toList_ofList]
    exact IsPlain.joinWith (by decide) (List.forall_mem_map.2 h)

theorem isPlain_opening {s : Statement} (h : s.HasPlainTexts) : IsPlain (opening s) := by
  cases s with
  | ask question =>
    have hquestion : IsPlain question.text.toList := h _ (List.mem_singleton_self _)
    cases question with
    | literal text => exact .append (by decide) hquestion.inQuotes
    | reference expression => exact .append (by decide) hquestion
  | confirm message =>
    have hmessage : IsPlain message.toList := h _ (List.mem_singleton_self _)
    exact .append (by decide) hmessage.inQuotes
  | createFile filename content =>
    have hfilename : IsPlain filename.toList := h _ (List.mem_cons_self ..)
    have hcontent : IsPlain content.shown := isPlain_shown (h _ (by simp [Statement.texts]))
    exact .append (.append (.append (by decide) hfilename.inQuotes) (by decide)) hcontent
  | assign name value =>
    have hname : IsPlain name.toList := h _ (List.mem_cons_self ..)
    have hvalue := isPlain_display fun text ht => h text (List.mem_cons_of_mem _ ht)
    exact .append (.append (.append (by decide) hname) (by decide)) hvalue
  | call name args =>
    have hname : IsPlain name.toList := h _ (List.mem_cons_self ..)
    have hargs : IsPlain (joinWith ", ".toList (args.map String.toList)) :=
      .joinWith (by decide)
        (List.forall_mem_map.2 fun text ht => h text (List.mem_cons_of_mem _ ht))
    cases args with
    | nil => exact .append (by decide) hname
    | cons arg args => exact .append (.append (.append (by decide) hname) (by decide)) hargs
  | ifThen condition body | ifElse condition body otherwise | whileLoop condition body =>
    exact .append (.append (by decide) (h _ (List.mem_singleton_self _))) (by decide)
  | forEach item iterable body =>
    have hitem : IsPlain item.toList := h _ (List.mem_cons_self ..)
    have hiterable : IsPlain iterable.toList := h _ (by simp [Statement.texts])
    exact .append (.append (.append (.append (by decide) hitem) (by decide)) hiterable) (by decide)
  | stop => decide
  | waitForResponse => decide
  | task t => exact isPlain_spawning h
  | parallel tasks =>
    exact .append (.append (by decide) (isPlain_toString tasks.length)) (by decide)
  | unknown kind => exact .append (by decide) (h _ (List.mem_singleton_self _))

theorem isDocument_bullets
    (h : ∀ s ∈ body, IsPlain (opening s) ∧ IsDocument (below depth s)) :
    IsDocument (bullets depth body) := by
  induction body with
  | nil => exact .nil
  | cons s rest ih =>
    rw [List.forall_mem_cons] at h
    have hplain := ((isPlain_indent depth).append (by decide : IsPlain "- ".toList)).append h.1.1
    rw [bullets]
    exact .cons hplain (by simp) (h.1.2.append (ih h.2))

theorem isDocument_items
    (h : ∀ s ∈ body, IsPlain (opening s) ∧ IsDocument (below (depth + 1) s)) :
    IsDocument (items depth body) := by
  induction body with
  | nil => exact .nil
  | cons s rest ih =>
    rw [List.forall_mem_cons] at h
    have hplain := ((isPlain_indent depth).append (by decide : IsPlain "  - ".toList)).append h.1.1
    rw [items]
    exact .cons hplain (by simp) (h.1.2.append (ih h.2))

theorem isDocument_arguments (depth : Nat) (h : (Statement.task t).HasPlainTexts) :
    IsDocument (arguments depth t) := by
  have hindent := isPlain_indent depth
  refine .blank (.cons (hindent.append (by decide)) (by simp) (.cons ?_ (by simp)
    (.cons ?_ (by simp) (.singleton (hindent.append (by decide)) (by simp)))))
  · exact (hindent.append (by decide)).append (isPlain_label t.agent)
  · exact (hindent.append (by decide)).append (isPlain_title h)

theorem isDocument_directions (depth : Nat) (h : (Statement.task t).HasPlainTexts) :
    IsDocument (directions depth t) := by
  unfold directions
  split
  · rename_i file hfile
    have hplain : IsPlain file.toList := h file (by simp [Statement.texts, hfile])
    split
    · exact .singleton (((isPlain_indent depth).append (by decide)).append hplain) (by simp)
    · exact .nil
  · exact .nil

theorem isDocument_belowTask (ht : (Statement.task t).HasPlainTexts)
    (h : ∀ s ∈ t.body, IsPlain (opening s) ∧ IsDocument (below (depth + 1) s)) :
    IsDocument (belowTask depth t) := by
  rw [belowTask_eq]
  exact (isDocument_arguments depth ht).append
    ((isDocument_directions depth ht).append (isDocument_items h))

theorem isDocument_heading (depth number : Nat) (h : (Statement.task t).HasPlainTexts) :
    IsDocument (heading depth number t) := by
  have hindent := isPlain_indent depth
  refine .blank (.cons ?_ (by simp) (.blank (.singleton (hindent.append (isPlain_spawning h)) ?_)))
  · exact (hindent.append (by decide)).append (isPlain_toString number)
  · exact List.append_ne_nil_of_right_ne_nil _ (spawning_ne_nil t)

theorem isDocument_sections {tasks : List Task} (number : Nat)
    (h : ∀ t ∈ tasks, (Statement.task t).HasPlainTexts ∧ IsDocument (belowTask depth t)) :
    IsDocument (sections depth number tasks) := by
  induction tasks generalizing number with
  | nil => exact .nil
  | cons t rest ih =>
    rw [List.forall_mem_cons] at h
    rw [sections]
    exact (isDocument_heading depth number h.1.1).append (h.1.2.append (ih (number + 1) h.2))

/-- Plain texts make plain lines, at every depth, and the last one is not empty. -/
theorem isDocument_below {s : Statement} (h : s.Everywhere Statement.HasPlainTexts)
    (depth : Nat) : IsDocument (below depth s) := by
  -- what is asked of the statements in a block or task
  have hinner : ∀ {body : List Statement} {depth : Nat},
      (∀ s ∈ body, s.Everywhere Statement.HasPlainTexts → ∀ d, IsDocument (below d s)) →
      (∀ s ∈ body, s.Everywhere Statement.HasPlainTexts) →
      ∀ s ∈ body, IsPlain (opening s) ∧ IsDocument (below depth s) :=
    fun ih h s hs => ⟨isPlain_opening (h s hs).here, ih s hs (h s hs) _⟩
  induction s generalizing depth with
  | ifThen condition body ih | whileLoop condition body ih | forEach item iterable body ih =>
    rw [below]
    exact isDocument_bullets (hinner ih h.inside)
  | ifElse condition body otherwise ihb iho =>
    obtain ⟨hbody, hotherwise⟩ := List.forall_mem_append.1 h.inside
    have hplain := (isPlain_indent depth).append (by decide : IsPlain "Otherwise:".toList)
    rw [below]
    exact (isDocument_bullets (hinner ihb hbody)).append
      (.blank (.cons hplain (by simp) (isDocument_bullets (hinner iho hotherwise))))
  | task t ih =>
    rw [below]
    exact isDocument_belowTask h.here (hinner ih h.inside)
  | parallel tasks ih =>
    have htasks : ∀ t ∈ tasks, (Statement.task t).Everywhere Statement.HasPlainTexts :=
      List.forall_mem_map.1 h.inside
    rw [below]
    exact isDocument_sections 1 fun t ht =>
      ⟨(htasks t ht).here, isDocument_belowTask (htasks t ht).here
        (hinner (ih t ht) (htasks t ht).inside)⟩
  | ask | confirm | createFile | assign | call | stop | waitForResponse | unknown =>
    simp only [below]
    exact .nil

/-! ### The two documents -/

theorem opening_ne_nil (s : Statement) : opening s ≠ [] := by
  -- every first line starts with words of its own
  have hleft : ∀ {text more : List Char}, text ≠ [] → text ++ more ≠ [] :=
    fun h => List.append_ne_nil_of_left_ne_nil h _
  cases s with
  | ask question =>
    cases question with
    | literal text => exact hleft (by decide)
    | reference expression => exact hleft (by decide)
  | confirm message => exact hleft (by decide)
  | call name args =>
    cases args with
    | nil => exact hleft (by decide)
    | cons arg args => exact hleft (hleft (hleft (by decide)))
  | createFile filename content => exact hleft (hleft (hleft (by decide)))
  | assign name value => exact hleft (hleft (hleft (by decide)))
  | forEach item iterable body => exact hleft (hleft (hleft (hleft (by decide))))
  | stop => decide
  | waitForResponse => decide
  | task t => exact spawning_ne_nil t
  | unknown kind => exact hleft (by decide)
  | _ => exact hleft (hleft (by decide))

/-- An instruction that is written as its lines becomes an item with the lines of one task more. -/
theorem promptItem_eq {s : Statement} (hplain : IsPlain (opening s))
    (hbelow : IsDocument (below 0 s)) :
    promptItem (opening s ++ following (below 0 s)) =
      "  - ".toList ++ opening s ++ following (below 1 s) := by
  have hdocument := IsDocument.cons hplain (opening_ne_nil s) hbelow
  rw [promptItem, ← joinWith_cons_eq_following, lines_joinWith hdocument]
  dsimp only
  rw [joinWith_cons_eq_following, ← below_succ]

theorem bulleted_eq (text : List Char)
    (h : ∀ s ∈ body, ofStatement s = opening s ++ following (below 0 s)) :
    bulleted text (ofStatements body) = text ++ following (bullets 0 body) := by
  rw [bulleted, ofStatements_eq_map]
  congr 1
  induction body with
  | nil => rfl
  | cons s rest ih =>
    rw [List.forall_mem_cons] at h
    rw [List.map_cons, List.flatMap_cons, ih h.2, h.1, bullets]
    simp [indent]

theorem items_eq
    (h : ∀ s ∈ body, promptItem (ofStatement s) =
      "  - ".toList ++ opening s ++ following (below 1 s)) :
    ((ofStatements body).flatMap fun text => '\n' :: promptItem text) =
      following (items 0 body) := by
  rw [ofStatements_eq_map]
  induction body with
  | nil => rfl
  | cons s rest ih =>
    rw [List.forall_mem_cons] at h
    rw [List.map_cons, List.flatMap_cons, ih h.2, h.1, items]
    simp [indent]

theorem handOver_eq (t : Task) (prompt : List (List Char)) :
    handOver t.agent (title t.description t.file) prompt =
      spawning t ++ following (arguments 0 t) ++
        prompt.flatMap fun text => '\n' :: promptItem text := by
  delta handOver spawning
  simp [arguments, indent]

theorem ofTask_eq_handOver (t : Task) :
    ofTask t = handOver t.agent (title t.description t.file)
      (prompt t.description t.file (ofStatements t.body)) := by
  cases t
  rfl

/-- A text of one line becomes an item of one line. -/
theorem promptItem_of_isPlain {line : List Char} (hp : IsPlain line) (hne : line ≠ []) :
    promptItem line = "  - ".toList ++ line := by
  have hlines : lines line = [line] := lines_joinWith (.singleton hp hne)
  rw [promptItem, hlines]
  rfl

theorem prompt_eq (ht : (Statement.task t).HasPlainTexts)
    (h : ∀ s ∈ t.body, promptItem (ofStatement s) =
      "  - ".toList ++ opening s ++ following (below 1 s)) :
    ((prompt t.description t.file (ofStatements t.body)).flatMap fun text =>
        '\n' :: promptItem text) =
      following (directions 0 t) ++ following (items 0 t.body) := by
  unfold prompt directions
  cases hfile : t.file with
  | none => simpa using items_eq h
  | some file =>
    dsimp only
    rw [ofStatements_eq_map, List.isEmpty_map, ← ofStatements_eq_map]
    split
    · rename_i hbare
      have hempty : t.body = [] := by simpa using (Bool.and_eq_true_iff.1 hbare).2
      have hplain : IsPlain file.toList := ht file (by simp [Statement.texts, hfile])
      rw [List.flatMap_singleton,
        promptItem_of_isPlain (.append (by decide) hplain) (by simp)]
      simp [hempty, items, indent]
    · simpa using items_eq h

theorem ofTask_eq (ht : (Statement.task t).HasPlainTexts)
    (h : ∀ s ∈ t.body, promptItem (ofStatement s) =
      "  - ".toList ++ opening s ++ following (below 1 s)) :
    ofTask t = spawning t ++ following (belowTask 0 t) := by
  rw [ofTask_eq_handOver, handOver_eq, prompt_eq ht h, belowTask_eq]
  simp

theorem sections_eq {tasks : List Task} (number : Nat)
    (h : ∀ t ∈ tasks, ofTask t = spawning t ++ following (belowTask 0 t)) :
    Instructions.sections number tasks = following (sections 0 number tasks) := by
  induction tasks generalizing number with
  | nil => rfl
  | cons t rest ih =>
    rw [List.forall_mem_cons] at h
    show "\n\n### Task ".toList ++ (toString number).toList ++ "\n\n".toList ++ ofTask t ++
      Instructions.sections (number + 1) rest = _
    rw [h.1, ih (number + 1) h.2, sections]
    simp [heading, indent]

/-- An instruction is its first line, followed by the others. -/
theorem ofStatement_eq {s : Statement} (h : s.Everywhere Statement.HasPlainTexts) :
    ofStatement s = opening s ++ following (below 0 s) := by
  have hitem : ∀ s : Statement, s.Everywhere Statement.HasPlainTexts →
      ofStatement s = opening s ++ following (below 0 s) →
      promptItem (ofStatement s) = "  - ".toList ++ opening s ++ following (below 1 s) :=
    fun s hs he => he ▸ promptItem_eq (isPlain_opening hs.here) (isDocument_below hs 0)
  induction s with
  | ifThen condition body ih | whileLoop condition body ih | forEach item iterable body ih =>
    exact bulleted_eq _ fun s hs => ih s hs (h.inside s hs)
  | ifElse condition body otherwise ihb iho =>
    obtain ⟨hbody, hotherwise⟩ := List.forall_mem_append.1 h.inside
    have hthen := bulleted_eq (opening (.ifElse condition body otherwise))
      fun s hs => ihb s hs (hbody s hs)
    have helse := bulleted_eq "Otherwise:".toList fun s hs => iho s hs (hotherwise s hs)
    show bulleted (opening (.ifElse condition body otherwise)) (ofStatements body) ++
      "\n\n".toList ++ bulleted "Otherwise:".toList (ofStatements otherwise) = _
    rw [hthen, helse, below]
    simp [indent]
  | task t ih =>
    exact ofTask_eq h.here fun s hs => hitem s (h.inside s hs) (ih s hs (h.inside s hs))
  | parallel tasks ih =>
    have htasks : ∀ t ∈ tasks, (Statement.task t).Everywhere Statement.HasPlainTexts :=
      List.forall_mem_map.1 h.inside
    have hsections := sections_eq 1 fun t ht => ofTask_eq (htasks t ht).here fun s hs =>
      hitem s ((htasks t ht).inside s hs) (ih t ht s hs ((htasks t ht).inside s hs))
    exact congrArg (opening (.parallel tasks) ++ ·) hsections
  | ask question => cases question <;> exact (List.append_nil _).symm
  | call name args => cases args <;> exact (List.append_nil _).symm
  | confirm | createFile | assign | stop | waitForResponse | unknown =>
    exact (List.append_nil _).symm

end Rendering

/-- The instructions for a command whose texts are plain are those that are written in one pass. -/
theorem Command.compile_eq_render {c : Command} (h : c.Everywhere Statement.HasPlainTexts) :
    c.compile = c.render := by
  have hbody : Instructions.ofStatements c.body =
      c.body.map fun s => Rendering.opening s ++ Text.following (Rendering.below 0 s) := by
    rw [Instructions.ofStatements_eq_map]
    exact List.map_congr_left fun s hs => Rendering.ofStatement_eq (h s hs)
  rw [compile, render, hbody]
  congr 1
  cases c.body with
  | nil => rfl
  | cons first rest =>
    rw [List.map_cons, Text.joinWith_cons_eq_flatMap, Rendering.paragraphs,
      Text.joinWith_cons_eq_following]
    simp [Text.following, List.flatMap_map, List.flatMap_assoc]

/-- A command with a task inside a block inside a task, and with a section inside a task. -/
def nestedBlocks : Command :=
  ⟨"c", [
    Statement.task ⟨"outer", .explore, [
      .ifElse "x" [.stop, Statement.task ⟨"", .plan, [], some "f"⟩] [.call "g" ["a", "b"]],
      .parallel [⟨"", .bash, [.whileLoop "y" [.waitForResponse]], some "h"⟩]], none⟩,
    .unknown ""]⟩

theorem hasPlainTexts_nestedBlocks : nestedBlocks.Everywhere Statement.HasPlainTexts := by
  repeat' first
    | exact .of_leaf (by decide) rfl
    | exact List.forall_mem_nil _
    | refine List.forall_mem_cons.2 ⟨?_, ?_⟩
    | refine .intro (by decide) ?_

theorem Command.compile_eq_render_nestedBlocks :
    nestedBlocks.Everywhere Statement.HasPlainTexts ∧
      nestedBlocks.compile = nestedBlocks.render :=
  ⟨hasPlainTexts_nestedBlocks, Command.compile_eq_render hasPlainTexts_nestedBlocks⟩

example : (Rendering.below 0 (.task ⟨"t", .plan, [.ifElse "x" [.stop]
    [Statement.task ⟨"", .bash, [.waitForResponse], some "f"⟩]], none⟩)).map String.ofList = [
    "",
    "Use the Task tool with:",
    "- subagent_type: Plan",
    "- description: t",
    "- prompt:",
    "  - If x:",
    "    - Stop current loop/process.",
    "",
    "    Otherwise:",
    "    - Spawn a Bash subagent task: \"f\"",
    "",
    "    Use the Task tool with:",
    "    - subagent_type: Bash",
    "    - description: f",
    "    - prompt:",
    "      - Wait for user response before continuing."] := by
  decide +kernel

end Playbook
