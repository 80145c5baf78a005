import Playbook.Command.Decoding
import Playbook.Disk
import Playbook.Failure
import Playbook.Json.Printer

/-!
# Settings

What a user has set once for all is kept as JSON in a directory of its own below the home directory.
Every setting is optional.  A file that is missing or cannot be understood counts as no settings at
all.
-/

namespace Playbook

/-- The settings of a user. -/
structure Settings where
  /-- The directory that commands are installed into. -/
  commandsDir : Option String
  /-- The extension of command files. -/
  extension : Option String
  deriving DecidableEq, Repr, Inhabited

namespace Settings

/-- No settings. -/
def unset : Settings := ⟨none, none⟩

/-- The extension of command files, if nothing else is set. -/
def defaultExtension : String := "stim"

/-- The extension of command files. -/
def fileExtension (s : Settings) : String := s.extension.getD defaultExtension

/-- The directory that settings are kept in. -/
def directory (home : Path) : Path := home.join ⟨".stim"⟩

/-- The file that settings are kept in. -/
def file (home : Path) : Path := (directory home).join ⟨"config.json"⟩

/-- The names of the settings, in order. -/
def fields : List String := ["commands_dir", "extension"]

/-- Settings as a JSON value, without those that are not set. -/
def toJson (s : Settings) : Json :=
  .record ((s.commandsDir.map fun dir => ("commands_dir", Json.text dir)).toList ++
    (s.extension.map fun ext => ("extension", Json.text ext)).toList)

/-- Reads settings. -/
def ofJson? (j : Json) : Option Settings := do
  match ← j.fields? fields with
  | [commandsDir, extension] =>
    let commandsDir ← Json.optional? Json.string? commandsDir
    let extension ← Json.optional? Json.string? extension
    some ⟨commandsDir, extension⟩
  | _ => none

/-- Reads settings from JSON text. -/
def ofText? (text : String) : Option Settings := (Json.read text).bind ofJson?

/-- The settings that are kept on a disk. -/
def load (d : Disk) (home : Option Path) : Settings :=
  match home.map fun h => d.readText (file h) with
  | some (.ok text) => (ofText? text).getD unset
  | _ => unset

/-- Keeps settings on a disk. -/
def save (s : Settings) (d : Disk) (home : Option Path) : Disk × Except Failure Unit :=
  match home with
  | none => (d, .error .noHome)
  | some h =>
    match d.makeDirectories (directory h) with
    | (d, .error fault) => (d, .error (.disk fault))
    | (d, .ok ()) =>
      let (d, written) := d.writeText (file h) s.toJson.pretty
      (d, written.mapError .disk)

end Settings

end Playbook
