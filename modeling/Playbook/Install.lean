import Playbook.Command.Instructions
import Playbook.Disk
import Playbook.Expansion
import Playbook.Failure

/-!
# Compiling and installing command files

A command file is installed by writing its instructions to `<name>.md` in the directory where the
assistant looks for commands.
-/

namespace Playbook

/-- The instructions of a command under its name. -/
structure Compiled where
  name : String
  markdown : String
  deriving DecidableEq, Repr

/-- A command and the file it was installed as. -/
structure Installed where
  name : String
  path : Path
  deriving DecidableEq, Repr

/-- A directory that commands are installed into. -/
structure Target where
  directory : Path
  deriving DecidableEq, Repr

namespace Target

/-- The commands of a project or of a user, by the directory that all else of theirs is in. -/
def inside (owner : Path) : Target := ⟨(owner.join ⟨".claude"⟩).join ⟨"commands"⟩⟩

/-- The file that a command is installed as. -/
def outputPath (t : Target) (name : String) : Path := t.directory.join ⟨name ++ ".md"⟩

end Target

/-- Refuses a path that does not have the expected extension. -/
def checkExtension (p : Path) (expected : String) : Except Failure Unit :=
  if p.extension? = some expected then .ok () else .error (.extension p expected)

/-- Compiles the command file at a path, with all that it refers to. -/
def compileFile (d : Disk) (p : Path) : Except Failure Compiled :=
  if d.isFile p then do
    let c ← (d.library.expandFile p).mapError .expansion
    .ok ⟨c.name, c.compile⟩
  else .error (.disk (.other ("File not found: " ++ p.text)))

/-- Writes a compiled command, and makes the directory if it is missing. -/
def writeCommand (d : Disk) (c : Compiled) (t : Target) : Disk × Except Failure Installed :=
  match d.makeDirectories t.directory with
  | (d, .error fault) => (d, .error (.disk fault))
  | (d, .ok ()) =>
    let path := t.outputPath c.name
    match d.writeText path c.markdown with
    | (d, .error fault) => (d, .error (.disk fault))
    | (d, .ok ()) => (d, .ok ⟨c.name, path⟩)

/-- Compiles the command file at a path and writes the result. -/
def installFile (d : Disk) (p : Path) (t : Target) : Disk × Except Failure Installed :=
  match compileFile d p with
  | .error failure => (d, .error failure)
  | .ok c => writeCommand d c t

end Playbook
