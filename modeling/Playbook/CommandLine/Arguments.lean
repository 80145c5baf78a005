import Playbook.Path

/-!
# Command line arguments

The program takes options of its own, a subcommand, and then the options and files of that
subcommand. Options that apply to every subcommand may stand before or after it.  An option is
written `--name`, or `-n` with one letter; letters may be grouped.  A value follows its option as
the next argument, which must not look like an option, or after `=`, or right behind the letter.
After `--` there are only files.

At each of the two levels an option may be given once.  The arguments are read from left to right,
and the first fault decides; asking for the version ends the reading at once.
-/

namespace Playbook.CommandLine

/-- The options of the program. -/
inductive Switch
  | verbose
  | commandsDir
  | version
  | toStdout
  | output
  | projectOnly
  deriving DecidableEq, Repr

namespace Switch

/-- The name of an option. -/
def long : Switch → String
  | .verbose => "verbose"
  | .commandsDir => "commands-dir"
  | .version => "version"
  | .toStdout => "stdout"
  | .output => "output"
  | .projectOnly => "local"

/-- The letter of an option. -/
def short? : Switch → Option Char
  | .verbose => some 'v'
  | .version => some 'V'
  | .output => some 'o'
  | .commandsDir | .toStdout | .projectOnly => none

/-- Whether an option has a value. -/
def takesValue : Switch → Bool
  | .commandsDir | .output => true
  | .verbose | .version | .toStdout | .projectOnly => false

end Switch

/-- The subcommands. -/
inductive Subcommand
  | compile
  | install
  | parse
  deriving DecidableEq, Repr

namespace Subcommand

/-- Every subcommand. -/
def all : List Subcommand := [.compile, .install, .parse]

/-- The name of a subcommand. -/
def name : Subcommand → String
  | .compile => "compile"
  | .install => "install"
  | .parse => "parse"

/-- The options that may stand after a subcommand. -/
def switches : Subcommand → List Switch
  | .compile => [.verbose, .commandsDir, .toStdout, .output]
  | .install => [.verbose, .commandsDir, .projectOnly]
  | .parse => [.verbose, .commandsDir]

end Subcommand

/-- The options that may stand before the subcommand. -/
def globalSwitches : List Switch := [.verbose, .commandsDir, .version]

/-- Why reading the arguments ends early. -/
inductive Halt
  /-- The arguments are not as they should be. -/
  | usage
  /-- Only the version is asked for. -/
  | version
  deriving DecidableEq, Repr

/-- The options given at one level, with their values, and the words that are no options. -/
structure Given where
  switches : List (Switch × String)
  words : List String
  deriving DecidableEq, Repr

namespace Given

/-- Nothing is given yet. -/
def nothing : Given := ⟨[], []⟩

/-- Whether an option is given. -/
def has (g : Given) (s : Switch) : Bool := g.switches.any (·.1 == s)

/-- The value of an option. -/
def value? (g : Given) (s : Switch) : Option String := g.switches.lookup s

/-- One more option.  It must not be there already, and a value must not be empty. -/
def give (g : Given) (s : Switch) (value : String) : Except Halt Given :=
  if s = .version then .error .version
  else if g.has s || (s.takesValue && value.isEmpty) then .error .usage
  else .ok { g with switches := (s, value) :: g.switches }

/-- One more word. -/
def word (g : Given) (w : String) : Given := { g with words := g.words ++ [w] }

end Given

/-- Reads the letters of a group of options.  The last one may be left waiting for its value. -/
def readLetters (allowed : List Switch) (g : Given) :
    List Char → Except Halt (Given × Option Switch)
  | [] => .ok (g, none)
  | letter :: rest =>
    match allowed.find? (·.short? == some letter) with
    | none => .error .usage
    | some s =>
      if s.takesValue then
        match rest with
        | [] => .ok (g, some s)
        | '=' :: value => (g.give s (String.ofList value)).map (·, none)
        | value => (g.give s (String.ofList value)).map (·, none)
      else do
        let g ← g.give s ""
        readLetters allowed g rest

/-- Reads an option by its name, after the two dashes.  It may be left waiting for its value. -/
def readName (allowed : List Switch) (g : Given) (text : List Char) :
    Except Halt (Given × Option Switch) :=
  let name := String.ofList (text.takeWhile (· != '='))
  match allowed.find? (·.long == name), text.dropWhile (· != '=') with
  | none, _ => .error .usage
  | some s, [] => if s.takesValue then .ok (g, some s) else (g.give s "").map (·, none)
  | some s, _ :: value =>
    if s.takesValue then (g.give s (String.ofList value)).map (·, none) else .error .usage

/-- What an argument looks like. -/
inductive Shape
  /-- The mark after which there are only files. -/
  | endOfOptions
  | named (text : List Char)
  | letters (text : List Char)
  | word
  deriving DecidableEq, Repr

/-- Tells options from words; a single dash is a word. -/
def Shape.of (argument : String) : Shape :=
  match argument.toList with
  | ['-', '-'] => .endOfOptions
  | '-' :: '-' :: text => .named text
  | ['-'] => .word
  | '-' :: text => .letters text
  | _ => .word

/-- Reads the arguments of one level.  The words end the level if they name a subcommand; then the
arguments after it are left. -/
def readLevel (allowed : List Switch) (leaf : Bool) :
    Given → List String → Except Halt (Given × List String)
  | g, [] => .ok (g, [])
  | g, argument :: rest =>
    let proceed (read : Except Halt (Given × Option Switch)) : Except Halt (Given × List String) :=
      match read, rest with
      | .error halt, _ => .error halt
      | .ok (g, none), rest => readLevel allowed leaf g rest
      | .ok (_, some _), [] => .error .usage
      | .ok (g, some s), value :: rest =>
        if Shape.of value = .word then
          match g.give s value with
          | .ok g => readLevel allowed leaf g rest
          | .error halt => .error halt
        else .error .usage
    match Shape.of argument with
    | .endOfOptions => .ok (rest.foldl Given.word g, [])
    | .named text => proceed (readName allowed g text)
    | .letters text => proceed (readLetters allowed g text)
    | .word =>
      if leaf then readLevel allowed leaf (g.word argument) rest
      else .ok (g.word argument, rest)

/-- What can be printed about a command file. -/
inductive Product
  /-- Its tree, as JSON and with references as they are. -/
  | tree
  /-- Its instructions. -/
  | instructions
  deriving DecidableEq, Repr

/-- Where commands can be installed. -/
inductive Destination
  /-- In a directory. -/
  | directory (dir : Path)
  /-- For the project in the working directory. -/
  | project
  /-- For the user. -/
  | user
  deriving DecidableEq, Repr

/-- What the program is asked to do. -/
inductive Action
  | print (product : Product) (file : Path)
  | install (files : List Path) (destination : Destination)
  deriving DecidableEq, Repr

/-- The files that an action is about. -/
def Action.files : Action → List Path
  | .print _ file => [file]
  | .install files _ => files

/-- An action, and the directory for commands that is to be used with it. -/
structure Request where
  commandsDir : Option Path
  action : Action
  deriving DecidableEq, Repr

/-- The action of a subcommand with what is given after it. -/
def Subcommand.action? (c : Subcommand) (g : Given) : Option Action :=
  if g.words.any String.isEmpty then none
  else
    match c, g.words with
    | .compile, [file] =>
      match g.has .toStdout, g.value? .output with
      | true, some _ => none
      | true, none => some (.print .instructions ⟨file⟩)
      | false, some dir => some (.install [⟨file⟩] (.directory ⟨dir⟩))
      | false, none => some (.install [⟨file⟩] .user)
    | .install, file :: more =>
      some (.install ((file :: more).map Path.mk) (if g.has .projectOnly then .project else .user))
    | .parse, [file] => some (.print .tree ⟨file⟩)
    | _, _ => none

/-- The directory for commands: what stands after the subcommand goes before what stands in front
of it, and that before the environment.  The environment is looked at unless both are given, and
must not hold an empty value then. -/
def commandsDir? (before after : Given) (environment : Option String) :
    Except Halt (Option Path) :=
  match after.value? .commandsDir, before.value? .commandsDir with
  | some a, some _ => .ok (some ⟨a⟩)
  | a, b =>
    if environment = some "" then .error .usage
    else .ok ((a <|> b <|> environment).map Path.mk)

/-- Reads the arguments of the program, given the directory for commands that the environment sets.
-/
def Request.read (environment : Option String) (arguments : List String) : Except Halt Request := do
  let (before, rest) ← readLevel globalSwitches false Given.nothing arguments
  match before.words with
  | [name] =>
    match Subcommand.all.find? (·.name == name) with
    | none => .error .usage
    | some c =>
      let (after, _) ← readLevel c.switches true Given.nothing rest
      match c.action? after with
      | none => .error .usage
      | some action => do
        let dir ← commandsDir? before after environment
        .ok ⟨dir, action⟩
  | _ => .error .usage

end Playbook.CommandLine
