import Playbook.CommandLine.Run

/-!
# The program

The work itself is done on a `Disk` in memory.  Before it, this outer layer looks at all places that
a request can depend on: the settings, the command files that are reached, and the directories on
the way to the target.  Afterwards it carries the changes over.
-/

namespace Playbook.Main

open CommandLine

/-- A place as the system has it written. -/
def written (place : Place) : String := (Path.ofComponents (.root :: place.map .name)).text

/-- Takes over what is at a place, below directories that are no links.  A link is one to where it
really leads; a path that can be opened but not read is a directory. -/
def look (d : Disk) (place : Place) : IO Disk := do
  if (d.get? place).isSome then return d
  try
    let really := toString (← IO.FS.realPath (written place))
    if really != written place then return d.put place (.link ⟨really⟩)
    let content ← IO.FS.readBinFile (written place)
    return d.put place (.file content)
  catch
    | .noFileOrDirectory _ _ _ => return d
    | _ => return d.put place .directory

/-- Takes over what is on the way along some segments. -/
partial def lookFrom (d : Disk) (place : Place) : List (List Char) → IO Disk
  | [] => return d
  | segment :: rest => do
    let next := place.step segment
    let d ← look d next
    match d.get? next with
    | some (.link target) => lookFrom d (target.origin place) (target.segments ++ rest)
    | _ => lookFrom d next rest

/-- Takes over what is on the way along a path. -/
def lookAlong (d : Disk) (p : Path) : IO Disk := lookFrom d (d.start p) p.segments

/-- Takes over the command files that are reached from some paths. -/
partial def gather (d : Disk) (seen : List Path) : List Path → IO Disk
  | [] => return d
  | path :: rest => do
    if path ∈ seen then gather d seen rest
    else
      let d ← lookAlong d path
      gather d (path :: seen) (d.library.successors path ++ rest)

/-- Takes over what is on the way to the results of a request. -/
def lookAtTarget (r : Request) (env : Environment) (d : Disk) : IO Disk := do
  let settings := Settings.load d env.home
  match r.action with
  | .print _ _ => return d
  | .install files destination =>
    match r.target env settings d destination with
    | .error _ => return d
    | .ok target =>
      let outputs := files.filterMap fun file =>
        (compileChecked d settings file).toOption.map fun c => target.outputPath c.name
      (target.directory :: outputs).foldlM lookAlong d

/-- Carries changes over, directories before what is in them. -/
def carryOver (before after : Disk) : IO Unit := do
  let changed := after.places.filter fun place => before.get? place != after.get? place
  for place in changed.mergeSort fun a b => a.length ≤ b.length do
    match after.get? place with
    | some .directory => IO.FS.createDir (written place)
    | some (.file content) => IO.FS.writeBinFile (written place) content
    | _ => pure ()

/-- Carries out a request in the working directory. -/
def perform (r : Request) (env : Environment) : IO UInt32 := do
  let way := Path.segments ⟨toString (← IO.currentDir)⟩
  let d ← lookFrom ⟨[], way.foldl Place.step []⟩ [] way
  let d ← (env.home.map Settings.file).toList.foldlM lookAlong d
  let d ← r.action.files.foldlM lookAlong d
  let d ← gather d [] (r.action.files.map Path.normalize)
  let d ← lookAtTarget r env d
  let outcome := r.run env d
  carryOver d outcome.disk
  IO.print outcome.output
  IO.eprint outcome.errors
  return outcome.code.toUInt32

end Playbook.Main

/-- The program. -/
def main (arguments : List String) : IO UInt32 := do
  let home := (← IO.getEnv "HOME").filter (!·.isEmpty)
  let env : Playbook.CommandLine.Environment :=
    ⟨home.map Playbook.Path.mk, ← IO.getEnv "STIM_COMMANDS_DIR"⟩
  match Playbook.CommandLine.Request.read env.commandsDir arguments with
  | .ok request =>
    try Playbook.Main.perform request env
    catch e =>
      IO.eprintln ("Error: IO error: " ++ toString e)
      return 1
  | .error .version =>
    IO.print Playbook.CommandLine.versionLine
    return 0
  | .error .usage =>
    IO.eprintln "Usage: stim [OPTIONS] <compile|install|parse> <FILES>"
    return 2
