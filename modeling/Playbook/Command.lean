import Playbook.Text.Lines

/-!
# Commands

A command file describes an interactive workflow: a named list of statements that ask the user,
keep values, branch and loop, and hand work over to agents.  This module holds the tree of such a
command; every other part of the library reads or writes it.

A task is either written out where it stands or names another command file, whose statements take
the place of its body once the command is expanded.
-/

namespace Playbook

/-- The kinds of agent that work can be handed to. -/
inductive Agent
  | bash
  | explore
  | plan
  | general
  deriving DecidableEq, Repr, Inhabited

namespace Agent

/-- Every kind of agent. -/
def all : List Agent := [.bash, .explore, .plan, .general]

/-- The word that names an agent in a command file. -/
def keyword : Agent → String
  | .bash => "bash"
  | .explore => "explore"
  | .plan => "plan"
  | .general => "general"

/-- The name that instructions use for an agent. -/
def label : Agent → String
  | .bash => "Bash"
  | .explore => "Explore"
  | .plan => "Plan"
  | .general => "general-purpose"

/-- The agent with the given keyword. -/
def ofKeyword? (word : String) : Option Agent := all.find? (·.keyword == word)

/-- What is said about a word that names no agent. -/
def unknownMessage (word : String) : String := "unknown agent type '" ++ word ++ "'"

@[simp] theorem ofKeyword?_keyword (a : Agent) : ofKeyword? a.keyword = some a := by
  cases a <;> decide

end Agent

/-- An argument that is either a quoted string or a reference to a value held elsewhere. -/
inductive Phrase
  | literal (text : String)
  | reference (expression : String)
  deriving DecidableEq, Repr

/-- The text of a phrase, without the distinction of its kind. -/
def Phrase.text : Phrase → String
  | .literal text => text
  | .reference expression => expression

/-- The right-hand side of an assignment.  Expressions are kept as written. -/
inductive Value
  | str (text : String)
  | bool (b : Bool)
  | array (items : List String)
  | expr (expression : String)
  deriving DecidableEq, Repr

/-- A value as instructions show it. -/
def Value.display : Value → String
  | .str text => text
  | .bool b => if b then "true" else "false"
  | .array items => String.ofList (Text.joinWith [','] (items.map String.toList))
  | .expr expression => expression

/-- A unit of work for an agent, over the type of the statements in its body.  A task with a `file`
takes its body from there. -/
structure TaskOf (σ : Type) where
  description : String
  agent : Agent
  body : List σ
  file : Option String
  deriving Repr, DecidableEq

/-- The statements of a command. -/
inductive Statement
  | ask (question : Phrase)
  | confirm (message : String)
  | createFile (filename : String) (content : Phrase)
  | assign (name : String) (value : Value)
  | call (name : String) (args : List String)
  | ifThen (condition : String) (body : List Statement)
  | ifElse (condition : String) (body otherwise : List Statement)
  | whileLoop (condition : String) (body : List Statement)
  | forEach (item iterable : String) (body : List Statement)
  | stop
  | waitForResponse
  | task (t : TaskOf Statement)
  | parallel (tasks : List (TaskOf Statement))
  /-- A statement of a kind that this library does not know, kept by the name of its kind. -/
  | unknown (kind : String)
  deriving Repr

/-- A unit of work for an agent. -/
abbrev Task := TaskOf Statement

namespace Task

/-- A task written out where it stands. -/
def inline (description : String) (agent : Agent) (body : List Statement) : Task :=
  ⟨description, agent, body, none⟩

/-- A task that is described by another command file. -/
def fromFile (file : String) (agent : Agent) : Task := ⟨"", agent, [], some file⟩

/-- Whether a task names a file and carries nothing of its own yet. -/
def isUnresolved (t : Task) : Bool :=
  t.file.isSome && t.description.isEmpty && t.body.isEmpty

end Task

/-- A named list of statements. -/
structure Command where
  name : String
  body : List Statement
  deriving Repr

end Playbook
