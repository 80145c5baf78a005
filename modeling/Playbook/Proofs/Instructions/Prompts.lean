import Playbook.Proofs.Instructions.Layout

/-!
# Reading a prompt back

The prompt of a task lists the instructions of its body, each with a bullet before its first line
and the others indented below it.  These instructions have bullets, empty lines and prompts of their
own, but nothing of that is taken for the start of another item: a line that opens an item has a
bullet behind two spaces, and every line below is empty or has four spaces in front.

`readPrompt` cuts the text of a task into lines, gathers these into items and takes the indentation
away.  It gives the instructions of the body back (`readPrompt_ofTask`), so no two lists of
instructions make the same prompt.
-/

namespace Playbook.Instructions

open Rendering Text

/-! ### Gathering the lines of a prompt -/

/-- Gathers the lines of a prompt into items, beginning at the end: the lines that belong to an item
further above, and the items below it, without their indentation. -/
def gatherItems : List (List Char) → List (List Char) × List (List (List Char))
  | [] => ([], [])
  | line :: rest =>
    let (pending, items) := gatherItems rest
    if "  - ".toList.isPrefixOf line then ([], (line.drop 4 :: pending) :: items)
    else (line.drop 4 :: pending, items)

/-- The number of lines of a task up to its prompt. -/
def headerSize : Nat := 6

/-- The instructions in the prompt of a task, read from its text. -/
def readPrompt (text : List Char) : List (List Char) :=
  (gatherItems ((splitOn '\n' text).drop headerSize)).2.map (joinWith ['\n'])

theorem drop_continuation (line : List Char) : (continuation line).drop 4 = line := by
  unfold continuation
  split
  · next hempty => rw [List.isEmpty_iff.1 hempty, List.drop_nil]
  · rfl

theorem not_bullet_continuation (line : List Char) :
    "  - ".toList.isPrefixOf (continuation line) = false := by
  unfold continuation
  split <;> rfl

/-- Lines below the first one of an instruction belong to the item above them. -/
theorem gatherItems_continuation (lines rest : List (List Char)) :
    gatherItems (lines.map continuation ++ rest) =
      (lines ++ (gatherItems rest).1, (gatherItems rest).2) := by
  induction lines with
  | nil => rfl
  | cons line lines ih =>
    rw [List.map_cons, List.cons_append, gatherItems, ih, not_bullet_continuation,
      drop_continuation]
    rfl

/-- A bullet opens an item, which takes the lines that wait for one. -/
theorem gatherItems_bullet (first : List Char) (rest : List (List Char)) :
    gatherItems (("  - ".toList ++ first) :: rest) =
      ([], (first :: (gatherItems rest).1) :: (gatherItems rest).2) := by
  rw [gatherItems]
  rfl

/-- The items of a prompt are the lines of the instructions. -/
theorem gatherItems_items (body : List Statement) :
    gatherItems (items 0 body) = ([], body.map fun s => opening s :: below 0 s) := by
  induction body with
  | nil => rfl
  | cons s rest ih =>
    have hline : indent 0 ++ "  - ".toList ++ opening s = "  - ".toList ++ opening s := rfl
    rw [items, hline, gatherItems_bullet, below_succ, gatherItems_continuation, ih,
      List.append_nil, List.map_cons]

/-! ### The lines of a task -/

variable {s : Statement} {t t' : Task}

/-- An instruction is cut into its first line and those below. -/
theorem splitOn_ofStatement (h : s.Everywhere Statement.HasPlainTexts) :
    splitOn '\n' (ofStatement s) = opening s :: below 0 s := by
  have hbreak : ∀ line ∈ opening s :: below 0 s, '\n' ∉ line :=
    List.forall_mem_cons.2 ⟨(isPlain_opening h.here).1,
      fun line hline => ((isDocument_below h 0).plain line hline).1⟩
  rw [ofStatement_eq h, ← joinWith_cons_eq_following,
    splitOn_joinWith (List.cons_ne_nil _ _) hbreak]

/-- Behind the header, the lines of an inline task are the items of its prompt. -/
theorem drop_headerSize_splitOn (hfile : t.file = none)
    (h : (Statement.task t).Everywhere Statement.HasPlainTexts) :
    (splitOn '\n' (ofTask t)).drop headerSize = items 0 t.body := by
  have hlines : splitOn '\n' (ofTask t) = spawning t :: belowTask 0 t := splitOn_ofStatement h
  have hdirections : directions 0 t = [] := by rw [directions, hfile]
  rw [hlines, belowTask_eq, hdirections]
  rfl

/-- The instructions of the body of an inline task are read back from its text. -/
theorem readPrompt_ofTask (hfile : t.file = none)
    (h : (Statement.task t).Everywhere Statement.HasPlainTexts) :
    readPrompt (ofTask t) = ofStatements t.body := by
  rw [readPrompt, drop_headerSize_splitOn hfile h, gatherItems_items, ofStatements_eq_map,
    List.map_map]
  refine List.map_congr_left fun s hs => ?_
  rw [ofStatement_eq (h.inside s hs)]
  exact joinWith_cons_eq_following _ _

theorem ofTask_of_inline (hfile : t.file = none) :
    ofTask t = handOver t.agent t.description.toList (ofStatements t.body) := by
  rw [ofTask_eq_handOver, hfile]
  rfl

/-- Prompts keep instructions apart: the instructions of an inline task, at whatever depth they have
lines, blocks and tasks of their own, are read back from its text, so that tasks with the same agent
and description have the same text exactly if they have the same instructions. -/
theorem ofTask_determines_instructions :
    (∀ t : Task, t.file = none → (Statement.task t).Everywhere Statement.HasPlainTexts →
      readPrompt (ofTask t) = ofStatements t.body) ∧
    ∀ t t' : Task, t.file = none → t'.file = none →
      (Statement.task t).Everywhere Statement.HasPlainTexts →
      (Statement.task t').Everywhere Statement.HasPlainTexts →
      t.agent = t'.agent → t.description = t'.description →
        (ofTask t = ofTask t' ↔ ofStatements t.body = ofStatements t'.body) := by
  refine ⟨fun t => readPrompt_ofTask, fun t t' hfile hfile' h h' hagent hdescription => ?_⟩
  constructor
  · intro htext
    rw [← readPrompt_ofTask hfile h, htext, readPrompt_ofTask hfile' h']
  · intro hbody
    rw [ofTask_of_inline hfile, ofTask_of_inline hfile', hagent, hdescription, hbody]

/-- A task with a loop and a statement behind it, and one with that statement inside the loop, where
the statement is itself a task with an empty line in its text. -/
def loopThen (inside : Bool) : Task :=
  let inner := Statement.task (Task.inline "i" .plan [.ifElse "x" [.stop] []])
  Task.inline "o" .bash
    (if inside then [.whileLoop "y" [inner]] else [.whileLoop "y" [], inner])

theorem hasPlainTexts_loopThen (inside : Bool) :
    (Statement.task (loopThen inside)).Everywhere Statement.HasPlainTexts := by
  cases inside
  all_goals
    repeat' first
      | exact .of_leaf (by decide) rfl
      | exact List.forall_mem_nil _
      | refine List.forall_mem_cons.2 ⟨?_, ?_⟩
      | refine .intro (by decide) ?_

/-- A statement behind a loop is not taken for one inside it. -/
theorem ofTask_determines_instructions_loopThen :
    readPrompt (ofTask (loopThen true)) = ofStatements (loopThen true).body ∧
      ofTask (loopThen true) ≠ ofTask (loopThen false) := by
  refine ⟨ofTask_determines_instructions.1 _ rfl (hasPlainTexts_loopThen true), fun h => ?_⟩
  have hsame := (ofTask_determines_instructions.2 _ _ rfl rfl (hasPlainTexts_loopThen true)
    (hasPlainTexts_loopThen false) rfl rfl).1 h
  exact absurd (congrArg List.length hsame) (by decide)

end Playbook.Instructions
