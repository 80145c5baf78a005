import Playbook.Command.Parser
import Playbook.Disk.Fault
import Playbook.Path

/-!
# Libraries of command files

Tasks refer to command files by path.  A `Library` is whatever such files are fetched from; it comes
with a bound on the number of files that can be fetched, so that following references has a bound
too.  A `Shelf` is a library held in memory, where files are kept under normalized paths.
-/

namespace Playbook

/-- What fetching a file gives. -/
inductive Fetched
  | text (source : String)
  | missing
  | failed (fault : DiskFault)
  deriving DecidableEq, Repr

/-- A source of command files. -/
structure Library where
  /-- Fetches the file at a path. -/
  fetch : Path → Fetched
  /-- A bound on the number of normalized paths at which there is something to fetch. -/
  capacity : Nat

/-- Why a reference could not be expanded. -/
inductive ExpansionError
  | notFound (path : Path)
  /-- A file refers back to one that leads to it; the chain lists the files from the outermost one
  to the repeated one. -/
  | circular (file : String) (chain : List Path)
  | unreadable (path : Path) (fault : DiskFault)
  | defective (path : Path) (defect : Defect)
  deriving DecidableEq, Repr

/-- The paths of a chain of references, joined by arrows. -/
def showChain (chain : List Path) : String :=
  String.ofList (Text.joinWith " -> ".toList (chain.map (·.text.toList)))

/-- An error in words. -/
def ExpansionError.message : ExpansionError → String
  | .notFound path => "Task file not found: " ++ path.text
  | .circular file chain =>
    "Circular task file reference detected: " ++ file ++ " (" ++ showChain chain ++ ")"
  | .unreadable path fault => "Failed to read task file " ++ path.text ++ ": " ++ fault.message
  | .defective path defect => "In task file '" ++ path.text ++ "': " ++ defect.report

/-- The command in the file at a path. -/
def Library.command (lib : Library) (path : Path) : Except ExpansionError Command :=
  match lib.fetch path with
  | .text source => (Command.parse source).mapError (.defective path)
  | .missing => .error (.notFound path)
  | .failed fault => .error (.unreadable path fault)

/-- Removing the pairs with one key leaves what is under another key. -/
theorem lookup_filter_ne {α β : Type} [BEq α] [LawfulBEq α] {a b : α} (h : b ≠ a)
    (pairs : List (α × β)) : (pairs.filter (·.1 != a)).lookup b = pairs.lookup b := by
  induction pairs with
  | nil => rfl
  | cons pair rest ih =>
    obtain ⟨k, v⟩ := pair
    by_cases hk : k = a
    · subst hk
      have hb : (b == k) = false := by simpa using h
      simp [List.lookup_cons, hb, ih]
    · by_cases hb : b = k
      · subst hb
        simp [hk]
      · have hb : (b == k) = false := by simpa using hb
        simp [List.lookup_cons, hk, hb, ih]

/-- Command files in memory, each under its normalized path. -/
structure Shelf where
  files : List (Path × String)
  deriving Repr, Inhabited

namespace Shelf

/-- A shelf without files. -/
def empty : Shelf := ⟨[]⟩

/-- Puts a file on the shelf, in the place of one that is already under its path. -/
def insert (shelf : Shelf) (path : Path) (source : String) : Shelf :=
  let key := path.normalize
  ⟨(key, source) :: shelf.files.filter (·.1 != key)⟩

/-- The file under a path. -/
def get? (shelf : Shelf) (path : Path) : Option String := shelf.files.lookup path.normalize

@[simp] theorem get?_empty (path : Path) : empty.get? path = none := rfl

/-- A file is found under every spelling of its path, and no other file is affected. -/
theorem get?_insert (shelf : Shelf) (path other : Path) (source : String) :
    (shelf.insert path source).get? other =
      if other.normalize = path.normalize then some source else shelf.get? other := by
  unfold get? insert
  by_cases h : other.normalize = path.normalize
  · simp [h]
  · have hb : (other.normalize == path.normalize) = false := by simpa using h
    simp [List.lookup_cons, hb, h, lookup_filter_ne h]

/-- The library of the files on a shelf.  Fetching fails at the given paths, whether there is a file
or not. -/
def library (shelf : Shelf) (failing : List (Path × DiskFault)) : Library where
  fetch path :=
    match failing.find? fun (p, _) => p.components == path.components with
    | some (_, fault) => .failed fault
    | none =>
      match shelf.get? path with
      | some source => .text source
      | none => .missing
  capacity := shelf.files.length + failing.length

end Shelf

end Playbook
