import Playbook.Proofs.Disk.Tree

/-!
# What an expansion does not depend on

Nothing but the files that a file reaches has a say in what it expands to.  Another library that
gives the same for these gives the same command or the same error, and so do more files on a shelf,
whatever they hold and refer to, as long as none of them is put where references lead.
-/

namespace Playbook

namespace Shelf

variable {shelf : Shelf} {files : List (Path × String)} {failing : List (Path × DiskFault)}
  {path : Path}

theorem fetch_insertAll_of_ne (h : ∀ file ∈ files, path.normalize ≠ file.1.normalize) :
    ((shelf.insertAll files).library failing).fetch path = (shelf.library failing).fetch path := by
  simp only [library, get?_insertAll_of_ne h]

/-- Files that are put where no reference leads leave everything as it is that a path reaches. -/
theorem agreeFrom_insertAll
    (h : ∀ file ∈ files, ¬(shelf.library failing).Reaches path.normalize file.1.normalize) :
    (shelf.library failing).AgreeFrom ((shelf.insertAll files).library failing) path.normalize := by
  intro q hq
  refine (fetch_insertAll_of_ne fun file hfile he => h file hfile ?_).symm
  rw [← he, Library.normalize_of_reaches hq]
  exact hq

end Shelf

namespace Library

/-- A file expands alike in two libraries that give the same for everything it reaches: within any
bound on the nesting of files, whatever is answered where it is used up, and so with the same result
or the same error if the expansion comes to an end.  In particular, files that are put on a shelf
where no reference leads change nothing. -/
theorem expandFile_eq_of_reached :
    (∀ (lib lib' : Library) (path : Path),
      (∀ q, lib.Reaches path.normalize q → lib.fetch q = lib'.fetch q) →
        (∀ exhausted bound, lib.expandFileWithin exhausted bound path =
          lib'.expandFileWithin exhausted bound path) ∧
        (lib.EndsFile path → lib'.EndsFile path → lib.expandFile path = lib'.expandFile path)) ∧
    ∀ (shelf : Shelf) (failing : List (Path × DiskFault)) (files : List (Path × String))
      (path : Path),
      (∀ file ∈ files, ¬(shelf.library failing).Reaches path.normalize file.1.normalize) →
        ((shelf.insertAll files).library failing).expandFile path =
          (shelf.library failing).expandFile path := by
  refine ⟨fun lib lib' path h => ?_, fun shelf failing files path h => ?_⟩
  · have hagree : lib.AgreeFrom lib' path.normalize := h
    exact ⟨fun exhausted bound => hagree.expandFileWithin_eq, hagree.expandFile_eq_of_endsFile⟩
  · have hagree := Shelf.agreeFrom_insertAll h
    exact (hagree.expandFile_eq (shelf.bounded_library failing) (Shelf.bounded_library _ _)).symm

/-- Files that no reference leads to: one that holds no command, and one that refers to others. -/
def strays : List (Path × String) :=
  [(⟨"x/./c"⟩, "command"), (⟨"n"⟩, "command n \x7b\ntask(\"m\")\n\x7d")]

/-- More files, and a path that fails to be read, make no difference to a cycle that is found
without them. -/
theorem expandFile_eq_of_reached_strays :
    (winding.library []).expandFile ⟨"./m"⟩ =
        .error (.circular "../x/./a" [⟨"m"⟩, ⟨"x/a"⟩, ⟨"x/b"⟩, ⟨"x/a"⟩]) ∧
      ((winding.insertAll strays).library []).expandFile ⟨"./m"⟩ =
        .error (.circular "../x/./a" [⟨"m"⟩, ⟨"x/a"⟩, ⟨"x/b"⟩, ⟨"x/a"⟩]) ∧
      ((winding.insertAll strays).library [(⟨"n"⟩, .notText)]).expandFile ⟨"./m"⟩ =
        .error (.circular "../x/./a" [⟨"m"⟩, ⟨"x/a"⟩, ⟨"x/b"⟩, ⟨"x/a"⟩]) := by
  let paths : List Path := [⟨"m"⟩, ⟨"x/a"⟩, ⟨"x/b"⟩]
  have hclosed : ∀ a ∈ paths, ∀ b ∈ (winding.library []).successors a, b ∈ paths := by
    decide +kernel
  have hreached : ∀ q, (winding.library []).Reaches (Path.mk "./m").normalize q → q ∈ paths :=
    fun q hq => Disk.mem_of_reaches hclosed (by decide +kernel) hq
  have hsame : ∀ q ∈ paths, (winding.library []).fetch q =
      ((winding.insertAll strays).library [(⟨"n"⟩, .notText)]).fetch q := by
    decide +kernel
  have haway : ∀ file ∈ strays, file.1.normalize ∉ paths := by decide +kernel
  have herror : (winding.library []).expandFile ⟨"./m"⟩ =
      .error (.circular "../x/./a" [⟨"m"⟩, ⟨"x/a"⟩, ⟨"x/b"⟩, ⟨"x/a"⟩]) :=
    Outcome.map_eq_error_iff (f := fun _ => ()).1 (by decide +kernel)
  refine ⟨herror, ?_, ?_⟩
  · rw [expandFile_eq_of_reached.2 winding [] strays _ fun file hfile hq =>
      haway file hfile (hreached _ hq), herror]
  · have hboth := (expandFile_eq_of_reached.1 (winding.library []) _ ⟨"./m"⟩ fun q hq =>
      hsame q (hreached q hq)).2 ((winding.bounded_library _).endsFile _)
      ((Shelf.bounded_library _ _).endsFile _)
    rw [← hboth, herror]

end Library

end Playbook
