/-!
# Faults of the file system

The ways in which looking up, reading or writing a file can fail, and how each is reported.
-/

namespace Playbook

/-- Why an operation on files failed. -/
inductive DiskFault
  | notFound
  | alreadyExists
  | notDirectory
  | isDirectory
  | nameTooLong
  /-- Links on the way lead to links again and again. -/
  | tooManyLinks
  /-- The file is not a text in UTF-8. -/
  | notText
  /-- A path holds the character with code zero. -/
  | zeroInPath
  /-- A failure that is told in words only. -/
  | other (text : String)
  deriving DecidableEq, Repr

/-- A fault in words. -/
def DiskFault.message : DiskFault → String
  | .notFound => "No such file or directory (os error 2)"
  | .alreadyExists => "File exists (os error 17)"
  | .notDirectory => "Not a directory (os error 20)"
  | .isDirectory => "Is a directory (os error 21)"
  | .nameTooLong => "File name too long (os error 36)"
  | .tooManyLinks => "Too many levels of symbolic links (os error 40)"
  | .notText => "stream did not contain valid UTF-8"
  | .zeroInPath => "file name contained an unexpected NUL byte"
  | .other text => text

end Playbook
