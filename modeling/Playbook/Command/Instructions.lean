import Playbook.Command
import Playbook.Text.Lines

/-!
# Instructions for the assistant

A command is compiled into a document of instructions, one block of text for each statement, with an
empty line between them.  The statements of a block become bullets below its heading, those of a
task become items of its prompt.  Texts of the command are passed on as they are.
-/

namespace Playbook

/-- A text between quotation marks. -/
def inQuotes (text : List Char) : List Char := '"' :: (text ++ ['"'])

/-- The content of a file as instructions show it: literal text in quotes, a reference as it is. -/
def Phrase.shown : Phrase → List Char
  | .literal text => inQuotes text.toList
  | .reference expression => expression.toList

namespace Instructions

/-- A heading with instructions as bullets below it. -/
def bulleted (heading : List Char) (instructions : List (List Char)) : List Char :=
  heading ++ instructions.flatMap fun text => "\n- ".toList ++ text

/-- A line of a prompt item after its first one: indented like the text of the item, unless it is
empty. -/
def continuation (line : List Char) : List Char :=
  if line.isEmpty then [] else "    ".toList ++ line

/-- An instruction as an item of a prompt: a bullet before its first line, the others below the text
of the first one. -/
def promptItem (instruction : List Char) : List Char :=
  match Text.lines instruction with
  | [] => []
  | first :: rest =>
    Text.joinWith ['\n'] (("  - ".toList ++ first) :: rest.map continuation)

/-- What a task is called: the file that describes it, if it has no description. -/
def title (description : String) (file : Option String) : List Char :=
  match file with
  | some f => if description.isEmpty then f.toList else description.toList
  | none => description.toList

/-- The prompt of a task: the instructions of its body.  A task that has nothing but a file sends
the agent there. -/
def prompt (description : String) (file : Option String) (body : List (List Char)) :
    List (List Char) :=
  match file with
  | some f =>
    if description.isEmpty && body.isEmpty then ["Follow the instructions in ".toList ++ f.toList]
    else body
  | none => body

/-- The instruction to hand a task over to an agent. -/
def handOver (agent : Agent) (title : List Char) (prompt : List (List Char)) : List Char :=
  "Spawn a ".toList ++ agent.label.toList ++ " subagent task: ".toList ++ inQuotes title ++
    "\n\nUse the Task tool with:\n- subagent_type: ".toList ++ agent.label.toList ++
    "\n- description: ".toList ++ title ++
    "\n- prompt:".toList ++ prompt.flatMap fun text => '\n' :: promptItem text

mutual

/-- The instruction for a statement. -/
def ofStatement : Statement → List Char
  | .ask (.literal question) => "Ask the user: ".toList ++ inQuotes question.toList
  | .ask (.reference question) =>
    "Ask the user the question from variable: ".toList ++ question.toList
  | .confirm message => "Ask for confirmation: ".toList ++ inQuotes message.toList
  | .createFile filename content =>
    "Create file ".toList ++ inQuotes filename.toList ++ " with content: ".toList ++ content.shown
  | .assign name value =>
    "Set ".toList ++ name.toList ++ " = ".toList ++ value.display.toList
  | .call name [] => "Call function ".toList ++ name.toList
  | .call name (arg :: args) =>
    "Call function ".toList ++ name.toList ++ " with arguments: ".toList ++
      Text.joinWith ", ".toList ((arg :: args).map String.toList)
  | .ifThen condition body =>
    bulleted ("If ".toList ++ condition.toList ++ [':']) (ofStatements body)
  | .ifElse condition body otherwise =>
    bulleted ("If ".toList ++ condition.toList ++ [':']) (ofStatements body) ++
      "\n\n".toList ++ bulleted "Otherwise:".toList (ofStatements otherwise)
  | .whileLoop condition body =>
    bulleted ("While ".toList ++ condition.toList ++ ", repeat:".toList) (ofStatements body)
  | .forEach item iterable body =>
    bulleted ("For each ".toList ++ item.toList ++ " in ".toList ++ iterable.toList ++ [':'])
      (ofStatements body)
  | .stop => "Stop current loop/process.".toList
  | .waitForResponse => "Wait for user response before continuing.".toList
  | .task t => ofTask t
  | .parallel tasks =>
    "Spawn ".toList ++ (toString tasks.length).toList ++ " subagent tasks in parallel:".toList ++
      sections 1 tasks
  | .unknown kind => "// Unknown statement type: ".toList ++ kind.toList

/-- The instructions for the statements of a block. -/
def ofStatements : List Statement → List (List Char)
  | [] => []
  | s :: rest => ofStatement s :: ofStatements rest

/-- The instruction for a task. -/
def ofTask : TaskOf Statement → List Char
  | ⟨description, agent, body, file⟩ =>
    handOver agent (title description file) (prompt description file (ofStatements body))

/-- The instructions for tasks that run side by side, under headings numbered from the given
number. -/
def sections (number : Nat) : List (TaskOf Statement) → List Char
  | [] => []
  | t :: rest =>
    "\n\n### Task ".toList ++ (toString number).toList ++ "\n\n".toList ++ ofTask t ++
      sections (number + 1) rest

end

@[simp] theorem ofStatements_eq_map (body : List Statement) :
    ofStatements body = body.map ofStatement := by
  induction body with
  | nil => rfl
  | cons s rest ih => simp [ofStatements, ih]

end Instructions

/-- The document of instructions for a command. -/
def Command.compile (c : Command) : String :=
  String.ofList (Text.joinWith "\n\n".toList (Instructions.ofStatements c.body))

end Playbook
