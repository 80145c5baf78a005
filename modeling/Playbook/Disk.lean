import Playbook.Disk.Fault
import Playbook.Library
import Playbook.Path

/-!
# File systems

A `Disk` is a file system as the program sees it: directories, files and links below one top, and a
working directory.  A place on it is the list of names that leads there from the top.  A file can be
at several places, which are all names of it; what is written under one of them is read under all.

Paths are followed step by step, so every directory on the way must exist, also before a `..`.
Where a step leads to a link, the path that the link stands for is followed from there, and only
then the rest, so a `..` behind a link leads out of the directory that the link leads to.

Operations that write return the new state together with what happened, because some of them leave
traces even if they fail.  Things that keep nothing of what is written to them, such as devices, are
not told of, and neither is who may read or write.
-/

namespace Playbook

/-- The names that lead from the top to a place. -/
abbrev Place := List String

/-- The place that one segment of a path leads to. -/
def Place.step (place : Place) : List Char → Place
  | [] => place
  | ['.'] => place
  | ['.', '.'] => place.dropLast
  | name => place ++ [String.ofList name]

/-- What a place can hold. -/
inductive Entry
  | directory
  | file (content : ByteArray)
  /-- A link that stands for a path from the directory that it is in. -/
  | link (target : Path)
  deriving BEq, Inhabited

/-- Whether this is a directory. -/
def Entry.isDirectory : Entry → Bool
  | .directory => true
  | _ => false

/-- Whether this is a link. -/
def Entry.isLink : Entry → Bool
  | .link _ => true
  | _ => false

/-- A file system with a working directory. -/
structure Disk where
  /-- What there is below the top, with the places where it is.  Only a file has several of them. -/
  entries : List (List Place × Entry)
  here : Place
  deriving Inhabited

namespace Disk

/-- The length in bytes up to which names are supported. -/
def nameLimit : Nat := 255

/-- The length in bytes up to which paths are supported. -/
def pathLimit : Nat := 4095

/-- The number of links up to which a path is followed. -/
def linkLimit : Nat := 40

/-! ### What is where -/

/-- What is at a place among some entries. -/
def getIn (place : Place) (entries : List (List Place × Entry)) : Option Entry :=
  (entries.find? (place ∈ ·.1)).map (·.2)

/-- Puts something at a place among some entries, and so at all places where there is the same. -/
def putIn (place : Place) (e : Entry) : List (List Place × Entry) → List (List Place × Entry)
  | [] => [([place], e)]
  | (names, old) :: rest =>
    if place ∈ names then (names, e) :: rest else (names, old) :: putIn place e rest

/-- Whether two places are names of one entry, among some. -/
def areOneIn (place other : Place) : List (List Place × Entry) → Bool
  | [] => other = place
  | (names, _) :: rest =>
    if place ∈ names then other ∈ names
    else other ∉ names && areOneIn place other rest

/-- All entries, with the top, which is always a directory. -/
def all (d : Disk) : List (List Place × Entry) := ([[]], .directory) :: d.entries

/-- The places where there is something. -/
def places (d : Disk) : List Place := d.entries.flatMap (·.1)

/-- What is at a place. -/
def get? (d : Disk) (place : Place) : Option Entry := getIn place d.all

/-- Puts something at a place, instead of what is there. -/
def put (d : Disk) (place : Place) (e : Entry) : Disk :=
  { d with entries := putIn place e d.entries }

/-- Leaves nothing at a place. -/
def erase (d : Disk) (place : Place) : Disk :=
  { d with entries := d.entries.map fun (names, e) => (names.filter (· != place), e) }

/-- Two places are the same, or names of the same file. -/
def AreOne (d : Disk) (place other : Place) : Prop := areOneIn place other d.all = true

theorem getIn_putIn (entries : List (List Place × Entry)) (place other : Place) (e : Entry) :
    getIn other (putIn place e entries) =
      if areOneIn place other entries then some e else getIn other entries := by
  induction entries with
  | nil =>
    by_cases h : other = place <;> simp [getIn, putIn, areOneIn, h]
  | cons first rest ih =>
    obtain ⟨names, old⟩ := first
    by_cases hplace : place ∈ names
    · by_cases hother : other ∈ names <;> simp [getIn, putIn, areOneIn, hplace, hother]
    · by_cases hother : other ∈ names
      · simp [getIn, putIn, areOneIn, hplace, hother]
      · simpa [getIn, putIn, areOneIn, hplace, hother] using ih

instance (d : Disk) (place other : Place) : Decidable (d.AreOne place other) :=
  inferInstanceAs (Decidable (_ = true))

@[simp] theorem get?_nil (d : Disk) : d.get? [] = some .directory := rfl

theorem all_put (d : Disk) {place : Place} (h : place ≠ []) (e : Entry) :
    (d.put place e).all = putIn place e d.all := by
  simp [all, put, putIn, h]

/-- Where something was put there is that, and elsewhere what was there before. -/
theorem get?_put (d : Disk) {place : Place} (h : place ≠ []) (other : Place) (e : Entry) :
    (d.put place e).get? other = if d.AreOne place other then some e else d.get? other := by
  rw [get?, all_put d h]
  exact getIn_putIn d.all place other e

theorem areOneIn_self (place : Place) (entries : List (List Place × Entry)) :
    areOneIn place place entries = true := by
  induction entries with
  | nil => simp [areOneIn]
  | cons first rest ih => by_cases h : place ∈ first.1 <;> simp [areOneIn, h, ih]

/-- A place is a name of what is there. -/
@[simp] theorem areOne_self (d : Disk) (place : Place) : d.AreOne place place :=
  areOneIn_self place d.all

theorem get?_put_self (d : Disk) {place : Place} (h : place ≠ []) (e : Entry) :
    (d.put place e).get? place = some e := by
  rw [get?_put d h, if_pos (areOne_self d place)]

theorem areOneIn_putIn (entries : List (List Place × Entry)) (place first other : Place)
    (e : Entry) : areOneIn first other (putIn place e entries) = areOneIn first other entries := by
  induction entries with
  | nil => by_cases h : first = place <;> simp_all [areOneIn, putIn]
  | cons entry rest ih =>
    obtain ⟨names, old⟩ := entry
    by_cases h : place ∈ names
    · simp [putIn, areOneIn, h]
    · simp [putIn, areOneIn, h, ih]

/-- No file gains or loses a name when something is put at a place. -/
theorem areOne_put (d : Disk) {place : Place} (h : place ≠ []) (first other : Place) (e : Entry) :
    (d.put place e).AreOne first other ↔ d.AreOne first other := by
  rw [AreOne, AreOne, all_put d h, areOneIn_putIn]

theorem getIn_eq_of_areOneIn {place other : Place} {entries : List (List Place × Entry)}
    (h : areOneIn place other entries = true) : getIn other entries = getIn place entries := by
  induction entries with
  | nil =>
    rw [areOneIn, decide_eq_true_eq] at h
    rw [h]
  | cons first rest ih =>
    by_cases hplace : place ∈ first.1
    · have hother : other ∈ first.1 := by simpa [areOneIn, hplace] using h
      simp [getIn, hplace, hother]
    · have hrest : other ∉ first.1 ∧ areOneIn place other rest = true := by
        simpa [areOneIn, hplace] using h
      simpa [getIn, hplace, hrest.1] using ih hrest.2

/-- All names of a file have the same content. -/
theorem AreOne.get?_eq {d : Disk} {place other : Place} (h : d.AreOne place other) :
    d.get? other = d.get? place :=
  getIn_eq_of_areOneIn h

theorem areOneIn_iff_of_getIn {place other : Place} {entries : List (List Place × Entry)}
    (h : getIn place entries = none) : areOneIn place other entries = true ↔ other = place := by
  constructor
  · intro hone
    induction entries with
    | nil => simpa [areOneIn] using hone
    | cons first rest ih =>
      have hplace : place ∉ first.1 := by
        intro hmem
        simp [getIn, hmem] at h
      have hrest : getIn place rest = none := by simpa [getIn, hplace] using h
      refine ih hrest ?_
      have hone : other ∉ first.1 ∧ areOneIn place other rest = true := by
        simpa [areOneIn, hplace] using hone
      exact hone.2
  · rintro rfl
    exact areOneIn_self other entries

/-- What is put where there was nothing is at no other place. -/
theorem areOne_iff_of_get? {d : Disk} {place other : Place} (h : d.get? place = none) :
    d.AreOne place other ↔ other = place :=
  areOneIn_iff_of_getIn h

/-- Erasing one place does not affect another. -/
theorem get?_erase_of_ne (d : Disk) {place other : Place} (h : other ≠ place) :
    (d.erase place).get? other = d.get? other := by
  have hrest : getIn other (d.erase place).entries = getIn other d.entries := by
    simp [getIn, erase, List.find?_map, Function.comp_def, h]
  by_cases hnil : other = []
  · rw [hnil, get?_nil, get?_nil]
  · simpa [get?, all, getIn, hnil] using hrest

/-! ### Following paths -/

/-- Follows one segment of a path from a place, which must be a directory. -/
def enter (d : Disk) (place : Place) (segment : List Char) : Except DiskFault Place :=
  match d.get? place with
  | none => .error .notFound
  | some .directory =>
    if nameLimit < (String.ofList segment).utf8ByteSize then .error .nameTooLong
    else .ok (place.step segment)
  | some _ => .error .notDirectory

end Disk

/-- The place from which a path is followed that stands at another place. -/
def Path.origin (p : Path) (place : Place) : Place := if p.isAbsolute then [] else place

namespace Disk

/-- The place from which a path is followed. -/
def start (d : Disk) (p : Path) : Place := p.origin d.here

/-- Refuses a path that leads nowhere on any disk. -/
def checkPath (p : Path) : Except DiskFault Unit :=
  if p.text.toList.contains '\x00' then .error .zeroInPath
  else if p.text.isEmpty then .error .notFound
  else if pathLimit < p.text.utf8ByteSize then .error .nameTooLong
  else .ok ()

/-- Follows segments from a place, up to the first link.  What is to be followed from there is
handed over. -/
def followTo (d : Disk) (jump : Place → List (List Char) → Except DiskFault Place) :
    Place → List (List Char) → Except DiskFault Place
  | place, [] => .ok place
  | place, segment :: rest => do
    let next ← d.enter place segment
    match d.get? next with
    | some (.link target) => jump (target.origin place) (target.segments ++ rest)
    | _ => d.followTo jump next rest

/-- Follows segments from a place, over no more than the given number of links. -/
def followWithin (d : Disk) : Nat → Place → List (List Char) → Except DiskFault Place
  | 0 => d.followTo fun _ _ => .error .tooManyLinks
  | links + 1 => d.followTo (d.followWithin links)

/-- Follows a path segment by segment, and all links. -/
def follow (d : Disk) (p : Path) : Except DiskFault Place :=
  d.followWithin linkLimit (d.start p) p.segments

/-- Follows a path up to the place that it names, where there may be a link. -/
def followToName (d : Disk) (p : Path) : Except DiskFault Place := do
  let above ← d.followWithin linkLimit (d.start p) p.segments.dropLast
  d.enter above (p.segments.getLastD [])

/-- The place that a path leads to.  Everything on the way there must exist, but not the place
itself. -/
def locate (d : Disk) (p : Path) : Except DiskFault Place := do
  checkPath p
  d.follow p

/-- What a path leads to. -/
def find (d : Disk) (p : Path) : Except DiskFault Entry := do
  let place ← d.locate p
  match d.get? place with
  | some e => .ok e
  | none => .error .notFound

/-- Whether a path leads to a file. -/
def isFile (d : Disk) (p : Path) : Bool :=
  match d.find p with
  | .ok (.file _) => true
  | _ => false

/-- Whether a path leads to a directory. -/
def isDirectory (d : Disk) (p : Path) : Bool :=
  match d.find p with
  | .ok .directory => true
  | _ => false

/-! ### Reading -/

/-- The bytes of a file. -/
def readBytes (d : Disk) (p : Path) : Except DiskFault ByteArray := do
  match ← d.find p with
  | .file content => .ok content
  | .directory => .error .isDirectory
  | .link _ => .error .tooManyLinks

/-- The text of a file. -/
def readText (d : Disk) (p : Path) : Except DiskFault String := do
  let content ← d.readBytes p
  match String.fromUTF8? content with
  | some text => .ok text
  | none => .error .notText

/-- Fetches a command file.  What is no file is missing. -/
def fetch (d : Disk) (p : Path) : Fetched :=
  if d.isFile p then
    match d.readText p with
    | .ok text => .text text
    | .error fault => .failed fault
  else .missing

/-- The command files on a disk.  Links can make a file be found at any number of paths, but there
are no more paths than texts of the supported length. -/
def library (d : Disk) : Library where
  fetch := d.fetch
  capacity := Nat.pow 257 pathLimit

/-! ### Writing -/

/-- Whether a path ends in a slash, and so can only name a directory. -/
def endsInSlash (p : Path) : Bool := p.text.toList.getLast? == some '/'

/-- A path without the slashes at its end, unless it is nothing else. -/
def withoutEndSlashes (p : Path) : Path :=
  match p.text.toList.reverse.dropWhile (· == '/') with
  | [] => p
  | kept => ⟨String.ofList kept.reverse⟩

/-- The place that a path names; slashes at the end make no difference to it. -/
def locateName (d : Disk) (p : Path) : Except DiskFault Place := do
  checkPath p
  d.followToName (withoutEndSlashes p)

/-- The place where a file is written at a path.  A path with a slash at its end names no file. -/
def locateFile (d : Disk) (p : Path) : Except DiskFault Place :=
  if endsInSlash p then do
    let _ ← d.locateName p
    .error .isDirectory
  else d.locate p

/-- Writes a file, over one that is there already. -/
def writeBytes (d : Disk) (p : Path) (content : ByteArray) : Disk × Except DiskFault Unit :=
  match d.locateFile p with
  | .error fault => (d, .error fault)
  | .ok place =>
    if (d.get? place).any Entry.isDirectory then (d, .error .isDirectory)
    else (d.put place (.file content), .ok ())

/-- Writes a text file. -/
def writeText (d : Disk) (p : Path) (text : String) : Disk × Except DiskFault Unit :=
  d.writeBytes p text.toUTF8

/-- Makes one directory, in one that exists.  A link is not followed. -/
def makeDirectory (d : Disk) (p : Path) : Disk × Except DiskFault Unit :=
  match d.locateName p with
  | .error fault => (d, .error fault)
  | .ok place =>
    match d.get? place with
    | some _ => (d, .error .alreadyExists)
    | none => (d.put place .directory, .ok ())

/-- Makes a directory, where it does not matter that it is there already. -/
def ensureDirectory (d : Disk) (p : Path) : Disk × Except DiskFault Unit :=
  match d.makeDirectory p with
  | (d, .ok ()) => (d, .ok ())
  | (d, .error fault) => if d.isDirectory p then (d, .ok ()) else (d, .error fault)

/-- Makes a directory and those above it, for a path with at most the given number of steps.  What
is above it is made only when something on the way is missing. -/
def makeDirectoriesWithin : Nat → Disk → Path → Disk × Except DiskFault Unit
  | 0, d, _ => (d, .ok ())
  | steps + 1, d, p =>
    match d.makeDirectory p with
    | (d, .error .notFound) =>
      match p.parent? with
      | none => (d, .error .notFound)
      | some above =>
        match makeDirectoriesWithin steps d above with
        | (d, .ok ()) => d.ensureDirectory p
        | (d, .error fault) => (d, .error fault)
    | (d, .error fault) => if d.isDirectory p then (d, .ok ()) else (d, .error fault)
    | (d, .ok ()) => (d, .ok ())

/-- Makes a directory and those above it, as far as they are missing. -/
def makeDirectories (d : Disk) (p : Path) : Disk × Except DiskFault Unit :=
  makeDirectoriesWithin p.components.length d p

/-- Removes a file from a directory, or a link. -/
def removeFile (d : Disk) (p : Path) : Disk × Except DiskFault Unit :=
  match d.locateName p with
  | .error fault => (d, .error fault)
  | .ok place =>
    match d.get? place with
    | none => (d, .error .notFound)
    | some .directory => (d, .error .isDirectory)
    | some _ =>
      if endsInSlash p then (d, .error .notDirectory) else (d.erase place, .ok ())

end Disk

end Playbook
