/-!
# Defects of a command file

Reading a command file stops at its first defect.  A `Defect` says what is wrong, on which line, and
quotes that line; the wording of every message is in `Defect.message`.
-/

namespace Playbook

/-- The forms of statement that can be malformed after their first words. -/
inductive Form
  | ask
  | confirm
  | createFile
  | waitForResponse
  | call
  | assignment
  | conditional
  | whileLoop
  | forLoop
  | task
  | taskFile
  deriving DecidableEq, Repr

/-- What is said about a malformed statement. -/
def Form.complaint : Form → String
  | .ask => "Invalid ask statement"
  | .confirm => "Invalid confirm statement"
  | .createFile => "Invalid create_file statement"
  | .waitForResponse => "Invalid wait_for_response statement"
  | .call => "Invalid function call"
  | .assignment => "Invalid assignment"
  | .conditional => "Invalid if statement"
  | .whileLoop => "Invalid while statement"
  | .forLoop => "Invalid for statement"
  | .task => "Invalid task statement"
  | .taskFile => "Invalid task file reference"

/-- What can be wrong with a command file. -/
inductive Cause
  /-- A string is not closed on its line. -/
  | unclosedString
  /-- There is nothing but layout. -/
  | emptyFile
  /-- The file does not start with a command declaration. -/
  | noHeader
  /-- A closing brace has no partner. -/
  | strayClose
  /-- An opening brace has no partner. -/
  | unclosedBlock
  /-- Something follows the body of the command. -/
  | contentAfterBody
  /-- No statement starts like this. -/
  | noStatement
  /-- Something follows a statement on its line. -/
  | trailingInput
  /-- A statement does not go on as its first words demand. -/
  | malformed (form : Form)
  /-- A parallel block holds a statement that is no task. -/
  | onlyTasks
  deriving DecidableEq, Repr

/-- A cause and the number of the line that it is reported for. -/
structure Fault where
  cause : Cause
  line : Nat
  deriving DecidableEq, Repr

/-- A fault with the trimmed text of its line. -/
structure Defect extends Fault where
  quoted : String
  deriving DecidableEq, Repr

namespace Defect

/-- What is wrong, in words. -/
def message (d : Defect) : String :=
  match d.cause with
  | .unclosedString => "Unterminated string: " ++ d.quoted
  | .emptyFile => "Expected command declaration: command <name> \x7b (empty command file)"
  | .noHeader =>
    "Expected command declaration: command <name> \x7b, found '" ++ d.quoted ++ "'"
  | .strayClose => "Unmatched braces: unexpected '\x7d': " ++ d.quoted
  | .unclosedBlock =>
    "Unmatched braces: '\x7b' opened on line " ++ toString d.line ++ " is never closed: " ++
      d.quoted
  | .contentAfterBody => "Unexpected content after command body: " ++ d.quoted
  | .noStatement => "Invalid statement: " ++ d.quoted
  | .trailingInput => "Unexpected trailing input: " ++ d.quoted
  | .malformed form => form.complaint ++ ": " ++ d.quoted
  | .onlyTasks => "parallel block may only contain task statements: " ++ d.quoted

/-- The message with the line that it is about. -/
def report (d : Defect) : String :=
  "Parse error at line " ++ toString d.line ++ ": " ++ d.message

end Defect

end Playbook
