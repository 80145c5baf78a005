import Playbook.Command.References
import Playbook.Library

/-!
# Expanding references to command files

A task that names a file gets the statements of that file as its body, and the name of the command
in it as its description unless it has one.  References inside that file are followed in the same
way, relative to the directory of the file they stand in.  A file may be used many times, but not
inside itself: the chain of files that leads to a reference must not already hold the file referred
to.

`expandStatements` walks over a tree, given a way to include files; `Library.inclusion` is that way.
Its counter bounds the length of the chain, and `Library.capacity` is always enough.
-/

namespace Playbook

namespace Expansion

/-- The name of an included command and its expanded statements. -/
structure Inclusion where
  name : String
  body : List Statement
  deriving Repr

/-- A way to include the file that a task names. -/
abbrev Includer := String → Except ExpansionError Inclusion

mutual

/-- Expands the tasks of a statement. -/
def expandStatement (includer : Includer) : Statement → Except ExpansionError Statement
  | .task t => (expandTask includer t).map .task
  | .parallel tasks => (expandTasks includer tasks).map .parallel
  | .ifThen condition body => (expandStatements includer body).map (.ifThen condition)
  | .ifElse condition body otherwise => do
    let body ← expandStatements includer body
    let otherwise ← expandStatements includer otherwise
    .ok (.ifElse condition body otherwise)
  | .whileLoop condition body => (expandStatements includer body).map (.whileLoop condition)
  | .forEach item iterable body => (expandStatements includer body).map (.forEach item iterable)
  | .ask question => .ok (.ask question)
  | .confirm message => .ok (.confirm message)
  | .createFile filename content => .ok (.createFile filename content)
  | .assign name value => .ok (.assign name value)
  | .call name args => .ok (.call name args)
  | .stop => .ok .stop
  | .waitForResponse => .ok .waitForResponse
  | .unknown kind => .ok (.unknown kind)

/-- Expands the tasks of a list of statements. -/
def expandStatements (includer : Includer) :
    List Statement → Except ExpansionError (List Statement)
  | [] => .ok []
  | s :: rest => do
    let s ← expandStatement includer s
    let rest ← expandStatements includer rest
    .ok (s :: rest)

/-- Expands a task: with a file it takes over the statements of the file, otherwise its own ones are
expanded. -/
def expandTask (includer : Includer) : TaskOf Statement → Except ExpansionError (TaskOf Statement)
  | ⟨description, agent, body, none⟩ => do
    let body ← expandStatements includer body
    .ok ⟨description, agent, body, none⟩
  | ⟨description, agent, _, some file⟩ => do
    let found ← includer file
    .ok ⟨if description.isEmpty then found.name else description, agent, found.body, some file⟩

/-- Expands a list of tasks. -/
def expandTasks (includer : Includer) :
    List (TaskOf Statement) → Except ExpansionError (List (TaskOf Statement))
  | [] => .ok []
  | t :: rest => do
    let t ← expandTask includer t
    let rest ← expandTasks includer rest
    .ok (t :: rest)

end

end Expansion

namespace Library

open Expansion

/-- Where a reference in a file of the given directory leads. -/
def target (directory : Path) (file : String) : Path := (directory.join ⟨file⟩).normalize

/-- The paths that the file at a path refers to. -/
def successors (lib : Library) (path : Path) : List Path :=
  match lib.command path with
  | .ok c => c.references.map (target path.directory)
  | .error _ => []

/-- Includes a file that is referred to from a directory, at the end of a chain of files.  The first
argument bounds the number of files that may still join the chain. -/
def inclusion (lib : Library) : Nat → List Path → Path → Includer
  | 0, _, directory, file => .error (.notFound (target directory file))
  | bound + 1, chain, directory, file =>
    let path := target directory file
    if path ∈ chain then .error (.circular file (chain ++ [path]))
    else do
      let found ← lib.command path
      let body ← expandStatements (lib.inclusion bound (chain ++ [path]) path.directory) found.body
      .ok ⟨found.name, body⟩

/-- Expands a command whose references start from the given directory. -/
def expand (lib : Library) (c : Command) (directory : Path) : Except ExpansionError Command := do
  let body ← expandStatements (lib.inclusion (lib.capacity + 1) [] directory) c.body
  .ok ⟨c.name, body⟩

/-- Reads and expands the command file at a path, which is itself the first of the chain. -/
def expandFile (lib : Library) (path : Path) : Except ExpansionError Command := do
  let path := path.normalize
  let c ← lib.command path
  let body ← expandStatements (lib.inclusion (lib.capacity + 1) [path] path.directory) c.body
  .ok ⟨c.name, body⟩

end Library

end Playbook
