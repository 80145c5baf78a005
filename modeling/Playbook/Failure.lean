import Playbook.Library

/-!
# Failures

Everything that can keep a command from being compiled or installed, with its wording and the code
that the program ends with.
-/

namespace Playbook

/-- Why the work was given up. -/
inductive Failure
  /-- The command file has a defect. -/
  | defect (d : Defect)
  /-- A command file that is referred to, or the file itself as the first of the chain, could not be
  taken in. -/
  | expansion (e : ExpansionError)
  | disk (fault : DiskFault)
  /-- A text is not the JSON form of what it should hold. -/
  | json
  /-- A file does not have the extension of command files. -/
  | extension (path : Path) (expected : String)
  /-- It is not known where the user's files are. -/
  | noHome
  deriving DecidableEq, Repr

namespace Failure

/-- A failure in words. -/
def message : Failure → String
  | .defect d => d.report
  | .expansion e => e.message
  | .disk fault => "IO error: " ++ fault.message
  | .json => "JSON error"
  | .extension path expected => "Input file must have ." ++ expected ++ " extension: " ++ path.text
  | .noHome => "Could not determine home directory"

/-- The code that the program ends with: 2 for a defect of any command file, 3 for any other
failure to take one in, 1 for the rest. -/
def exitCode : Failure → Nat
  | .defect _ => 2
  | .expansion (.defective _ _) => 2
  | .expansion _ => 3
  | .disk _ => 1
  | .json => 1
  | .extension _ _ => 1
  | .noHome => 1

end Failure

end Playbook
