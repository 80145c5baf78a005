import Playbook.Command

/-!
# References to command files

The files that the tasks of a command name, at any depth, in the order in which they stand there.
The body of a task that names a file does not count, since the file takes its place.
-/

namespace Playbook

mutual

/-- The files that a statement refers to. -/
def Statement.references : Statement → List String
  | .task t => taskReferences t
  | .parallel tasks => tasksReferences tasks
  | .ifThen _ body => statementsReferences body
  | .ifElse _ body otherwise => statementsReferences body ++ statementsReferences otherwise
  | .whileLoop _ body => statementsReferences body
  | .forEach _ _ body => statementsReferences body
  | .ask _ | .confirm _ | .createFile _ _ | .assign _ _ | .call _ _ => []
  | .stop | .waitForResponse | .unknown _ => []

/-- The files that a list of statements refers to. -/
def statementsReferences : List Statement → List String
  | [] => []
  | s :: rest => s.references ++ statementsReferences rest

/-- The files that a task refers to: its own file, or those in its body. -/
def taskReferences : TaskOf Statement → List String
  | ⟨_, _, body, none⟩ => statementsReferences body
  | ⟨_, _, _, some file⟩ => [file]

/-- The files that a list of tasks refers to. -/
def tasksReferences : List (TaskOf Statement) → List String
  | [] => []
  | t :: rest => taskReferences t ++ tasksReferences rest

end

/-- The files that a command refers to. -/
def Command.references (c : Command) : List String := statementsReferences c.body

end Playbook
