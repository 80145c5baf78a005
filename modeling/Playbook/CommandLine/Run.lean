import Playbook.CommandLine.Arguments
import Playbook.Command.Encoding
import Playbook.Install
import Playbook.Settings

/-!
# Running the program

`run` carries out what the arguments ask for on a disk.  It tells what the program prints, the code
it ends with, and the disk afterwards.  Files are installed one after the other, and those before a
failure stay installed.
-/

namespace Playbook.CommandLine

/-- What the program knows of its surroundings besides the disk. -/
structure Environment where
  /-- The home directory of the user. -/
  home : Option Path
  /-- The directory for commands, if the environment sets it. -/
  commandsDir : Option String
  deriving DecidableEq, Repr

/-- What is left behind by a run: what is printed, the code at the end, and the disk. -/
structure Outcome where
  output : String
  errors : String
  code : Nat
  disk : Disk

/-- What came of a run: `none` stands for arguments that were refused. -/
abbrev Result := Option Outcome

/-- The line that tells the version. -/
def versionLine : String := "stim 0.2.2\n"

/-- The outcome of work that printed something and then ended well or failed. -/
def Outcome.of (disk : Disk) (output : String) : Except Failure Unit → Outcome
  | .ok () => ⟨output, "", 0, disk⟩
  | .error failure => ⟨output, "Error: " ++ failure.message ++ "\n", failure.exitCode, disk⟩

/-- The path of the working directory. -/
def workingDirectory (d : Disk) : Path := Path.ofComponents (.root :: d.here.map .name)

/-- The target for commands of the user: the one asked for, the one set, or the usual one. -/
def userTarget (asked : Option Path) (settings : Settings) (home : Option Path) :
    Except Failure Target :=
  match asked <|> settings.commandsDir.map Path.mk with
  | some dir => .ok ⟨dir⟩
  | none =>
    match home with
    | some h => .ok (Target.inside h)
    | none => .error .noHome

/-- Compiles a file that has the extension of command files. -/
def compileChecked (d : Disk) (settings : Settings) (file : Path) : Except Failure Compiled := do
  checkExtension file settings.fileExtension
  compileFile d file

/-- What is printed about an installed file. -/
def announcement (file : Path) (installed : Installed) : String :=
  "Compiled " ++ file.fileName?.getD "" ++ " -> " ++ installed.path.text ++ "\nCommand: /" ++
    installed.name ++ "\n"

/-- Installs files, up to the first failure, after what has been printed so far. -/
def installAll (settings : Settings) (target : Target) : Disk → String → List Path → Outcome
  | d, printed, [] => Outcome.of d printed (.ok ())
  | d, printed, file :: rest =>
    match compileChecked d settings file with
    | .error failure => Outcome.of d printed (.error failure)
    | .ok compiled =>
      match writeCommand d compiled target with
      | (d, .error failure) => Outcome.of d printed (.error failure)
      | (d, .ok installed) =>
        installAll settings target d (printed ++ announcement file installed) rest

/-- Installs files into a target that may be unknown. -/
def installInto (d : Disk) (settings : Settings) (target : Except Failure Target)
    (files : List Path) : Outcome :=
  match target with
  | .error failure => Outcome.of d "" (.error failure)
  | .ok t => installAll settings t d "" files

/-- The outcome of work that prints its result and leaves the disk alone. -/
def printed (d : Disk) : Except Failure String → Outcome
  | .ok text => Outcome.of d (text ++ "\n") (.ok ())
  | .error failure => Outcome.of d "" (.error failure)

/-- The tree of a command file, as JSON. -/
def showTree (d : Disk) (settings : Settings) (file : Path) : Except Failure String := do
  checkExtension file settings.fileExtension
  let source ← (d.readText file).mapError .disk
  let c ← (Command.parse source).mapError .defect
  .ok c.toJson.pretty

/-- What is printed about a command file. -/
def shown (d : Disk) (settings : Settings) (file : Path) : Product → Except Failure String
  | .tree => showTree d settings file
  | .instructions => (compileChecked d settings file).map (·.markdown)

/-- The target that a destination stands for. -/
def Request.target (r : Request) (env : Environment) (settings : Settings) (d : Disk) :
    Destination → Except Failure Target
  | .directory dir => .ok ⟨dir⟩
  | .project => .ok (Target.inside (workingDirectory d))
  | .user => userTarget r.commandsDir settings env.home

/-- Carries out a request. -/
def Request.run (r : Request) (env : Environment) (d : Disk) : Outcome :=
  let settings := Settings.load d env.home
  match r.action with
  | .print product file => printed d (shown d settings file product)
  | .install files destination => installInto d settings (r.target env settings d destination) files

/-- Runs the program with the given arguments. -/
def run (env : Environment) (arguments : List String) (d : Disk) : Result :=
  match Request.read env.commandsDir arguments with
  | .error .usage => none
  | .error .version => some ⟨versionLine, "", 0, d⟩
  | .ok request => some (request.run env d)

end Playbook.CommandLine
