import Playbook.Command
import Playbook.Json

/-!
# Commands as JSON values

A statement is an object whose member `type` names its kind, with the members of that kind after it.
Which members a kind has, and in which order, is listed once, in `Kind.fields`; it serves both
directions.
-/

namespace Playbook

/-- The kinds of statement, in the order in which they are numbered. -/
inductive Kind
  | ask
  | confirm
  | createFile
  | assign
  | call
  | conditional
  | whileLoop
  | forEach
  | stop
  | waitForResponse
  | task
  | parallel
  deriving DecidableEq, Repr

namespace Kind

/-- Every kind, in order. -/
def all : List Kind :=
  [.ask, .confirm, .createFile, .assign, .call, .conditional, .whileLoop, .forEach, .stop,
    .waitForResponse, .task, .parallel]

/-- The name of a kind. -/
def name : Kind → String
  | .ask => "ask"
  | .confirm => "confirm"
  | .createFile => "create_file"
  | .assign => "variable_assignment"
  | .call => "function_call"
  | .conditional => "if"
  | .whileLoop => "while"
  | .forEach => "for"
  | .stop => "break"
  | .waitForResponse => "wait_for_response"
  | .task => "task"
  | .parallel => "parallel"

/-- The kind with the given name. -/
def ofName? (s : String) : Option Kind := all.find? (·.name == s)

@[simp] theorem ofName?_name (k : Kind) : ofName? k.name = some k := by
  cases k <;> decide +kernel

end Kind

/-- The members of a task, in order. -/
def taskFields : List String := ["description", "agent", "body", "file"]

/-- The members of a statement of the given kind after its `type`, in order. -/
def Kind.fields : Kind → List String
  | .ask => ["question"]
  | .confirm => ["message"]
  | .createFile => ["filename", "content"]
  | .assign => ["name", "value"]
  | .call => ["name", "args"]
  | .conditional => ["condition", "body", "else"]
  | .whileLoop => ["condition", "body"]
  | .forEach => ["variable", "iterable", "body"]
  | .stop => []
  | .waitForResponse => []
  | .task => taskFields
  | .parallel => ["tasks"]

/-- A phrase with its kind and its text. -/
def Phrase.toJson : Phrase → Json
  | .literal s => .record [("kind", .text "literal"), ("value", .text s)]
  | .reference s => .record [("kind", .text "reference"), ("value", .text s)]

/-- A list of texts. -/
def textsToJson (texts : List String) : Json := .array (texts.map .text)

/-- A value with its kind. -/
def Value.toJson : Value → Json
  | .str s => .record [("kind", .text "str"), ("value", .text s)]
  | .bool b => .record [("kind", .text "bool"), ("value", .bool b)]
  | .array items => .record [("kind", .text "array"), ("value", textsToJson items)]
  | .expr s => .record [("kind", .text "expr"), ("value", .text s)]

/-- A statement of a kind, with values for its members; members at the end may be left out. -/
def Kind.toJson (k : Kind) (values : List Json) : Json :=
  .record (("type", .text k.name) :: k.fields.zip values)

/-- The values of the members of a task.  The file is left out if there is none. -/
def taskValues (description : String) (agent : Agent) (body : List Json) (file : Option String) :
    List Json :=
  [.text description, .text agent.keyword, .array body] ++ (file.map Json.text).toList

mutual

/-- A statement as a JSON value. -/
def Statement.toJson : Statement → Json
  | .ask question => Kind.ask.toJson [question.toJson]
  | .confirm message => Kind.confirm.toJson [.text message]
  | .createFile filename content => Kind.createFile.toJson [.text filename, content.toJson]
  | .assign name value => Kind.assign.toJson [.text name, value.toJson]
  | .call name args => Kind.call.toJson [.text name, textsToJson args]
  | .ifThen condition body =>
    Kind.conditional.toJson [.text condition, .array (statementsToJson body)]
  | .ifElse condition body otherwise =>
    Kind.conditional.toJson
      [.text condition, .array (statementsToJson body), .array (statementsToJson otherwise)]
  | .whileLoop condition body =>
    Kind.whileLoop.toJson [.text condition, .array (statementsToJson body)]
  | .forEach item iterable body =>
    Kind.forEach.toJson [.text item, .text iterable, .array (statementsToJson body)]
  | .stop => Kind.stop.toJson []
  | .waitForResponse => Kind.waitForResponse.toJson []
  | .task ⟨description, agent, body, file⟩ =>
    Kind.task.toJson (taskValues description agent (statementsToJson body) file)
  | .parallel tasks => Kind.parallel.toJson [.array (tasksToJson tasks)]
  | .unknown kind => .record [("type", .text kind)]

/-- Statements as JSON values. -/
def statementsToJson : List Statement → List Json
  | [] => []
  | s :: rest => s.toJson :: statementsToJson rest

/-- A task as a JSON value. -/
def taskToJson : TaskOf Statement → Json
  | ⟨description, agent, body, file⟩ =>
    .record (taskFields.zip (taskValues description agent (statementsToJson body) file))

/-- Tasks as JSON values. -/
def tasksToJson : List (TaskOf Statement) → List Json
  | [] => []
  | t :: rest => taskToJson t :: tasksToJson rest

end

/-- A task as a JSON value. -/
def Task.toJson (t : Task) : Json := taskToJson t

/-- A command as a JSON value. -/
def Command.toJson (c : Command) : Json :=
  .record [("name", .text c.name), ("body", .array (statementsToJson c.body))]

end Playbook
