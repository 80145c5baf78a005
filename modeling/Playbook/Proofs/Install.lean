import Playbook.Install
import Playbook.Proofs.Disk.Normalized
import Playbook.Proofs.Disk.Writing
import Playbook.Proofs.Expansion.Graph
import Playbook.Proofs.Parser.WellFormed

/-!
# Installing stays inside the target

The file that a command is installed as is named by the text of the source file.  The name is one
word of letters, digits and underscores, so joined to the directory it is a single step, and the
file lies in that directory whatever the directory is called.  Apart from this file, the disk only
gains the directories that lead to it.

The source file is the one at the normalized path.  It is the one at the path itself unless a link
is met on the way (`installFile_detoured`).  A link under the name that is written to is followed,
so then the file lies where the link leads.
-/

namespace Playbook

/-- A source text begins with the declaration of a command of the given name. -/
def Declares (source name : String) : Prop :=
  ∃ scanned inner, scan source.toList = .ok scanned ∧
    Parser.header? (Token.skipBreaks scanned.tokens) = some (name.toList, inner)

/-- A command file at a path was installed: what is reported, and what has become of the disk. -/
structure Installs (d : Disk) (p : Path) (t : Target) (d' : Disk) (i : Installed) : Prop where
  isName : isName i.name.toList = true
  declares : ∃ source, d.readText p.normalize = .ok source ∧ Declares source i.name ∧
    (d.LinkFree → d.readText p = .ok source)
  path : i.path = t.directory.join ⟨i.name ++ ".md"⟩
  parent : ∃ above, i.path.parent? = some above ∧ above.components = t.directory.components
  fileName : i.path.fileName? = some (i.name ++ ".md")
  /-- What is stored are the instructions as they are compiled on the disk from before. -/
  stored : ∃ c file, d.library.expandFile p = .ok c ∧
    d.Stored t.directory (i.name ++ ".md") c.compile file d'

/-! ### The name -/

/-- A text declares one name only. -/
theorem Declares.unique {source name name' : String} (h : Declares source name)
    (h' : Declares source name') : name = name' := by
  obtain ⟨scanned, inner, hscan, hheader⟩ := h
  obtain ⟨scanned', inner', hscan', hheader'⟩ := h'
  cases hscan.symm.trans hscan'
  have hsame := Option.some.inj (hheader.symm.trans hheader')
  exact String.toList_inj.1 (congrArg Prod.fst hsame)

/-- The name of a command is declared at the front of its source. -/
theorem declares_of_parse {source : String} {c : Command} (h : Command.parse source = .ok c) :
    Declares source c.name := by
  obtain ⟨scanned, hscan, hc⟩ := Command.parse_eq_ok_iff.1 h
  obtain ⟨first, more, name, inner, body, _, hskip, hheader, -, -, -, rfl⟩ :=
    Parser.command_eq_ok_iff.1 hc
  exact ⟨scanned, inner, hscan, by rw [hskip, hheader, String.toList_ofList]⟩

theorem isName_of_parse {source : String} {c : Command} (h : Command.parse source = .ok c) :
    isName c.name.toList = true := by
  obtain ⟨scanned, hscan, hc⟩ := Command.parse_eq_ok_iff.1 h
  exact isName_of_isNameIn hscan (Parser.isNameIn_of_command hc)

/-- The name of a command with an ending is a name in a directory: it holds no slash, and is none of
the segments that stand for other steps. -/
theorem Path.isName_append {name : String} (h : isName name.toList = true) :
    Path.IsName (name ++ ".md") := by
  rw [isName, Bool.and_eq_true, List.all_eq_true] at h
  have hslash : '/' ∉ name.toList := by
    intro hmem
    exact absurd (h.2 _ hmem) (by decide)
  have hlength : 3 ≤ (name ++ ".md").toList.length := by simp
  refine ⟨by simpa using hslash, ?_, ?_, ?_⟩ <;> intro heq <;> simp [heq] at hlength

/-! ### Compiling -/

section

variable {d d' : Disk} {p : Path} {t : Target}

theorem compileFile_eq_ok {c : Compiled} (h : compileFile d p = .ok c) :
    d.isFile p = true ∧ ∃ found, d.library.expandFile p = .ok found ∧
      c = ⟨found.name, found.compile⟩ := by
  unfold compileFile at h
  split at h
  · next hfile =>
    obtain ⟨found, hfound, hc⟩ := Outcome.bind_eq_ok_iff.1 h
    exact ⟨hfile, found, Outcome.mapError_eq_ok_iff.1 hfound, (Except.ok.inj hc).symm⟩
  · cases h

/-- A file that expands is read from the normalized path.  Without links this is the file at the
path as it was given. -/
theorem exists_parse_of_expandFile {result : Command} (hfile : d.isFile p = true)
    (h : d.library.expandFile p = .ok result) :
    ∃ source c, d.readText p.normalize = .ok source ∧ Command.parse source = .ok c ∧
      result.name = c.name ∧ (d.LinkFree → d.readText p = .ok source) := by
  obtain ⟨c, hc, hname, -⟩ := Library.expandFile_eq_ok_iff.1 h
  obtain ⟨source, hsource, hparse⟩ := Library.command_eq_ok_iff.1 hc
  have hread : d.readText p.normalize = .ok source := Disk.fetch_eq_text_iff.1 hsource
  refine ⟨source, c, hread, hparse, hname, fun hl => ?_⟩
  obtain ⟨content, hfind⟩ := Disk.isFile_iff.1 hfile
  have hnormal := Disk.find_normalize hl hfind
  rw [Disk.readText_eq_ok_iff.1 hread] at hnormal
  cases hnormal
  exact Disk.readText_eq_ok_iff.2 hfind

/-! ### Writing the result -/

theorem writeCommand_eq_ok {c : Compiled} {i : Installed}
    (h : writeCommand d c t = (d', .ok i)) :
    ∃ made, d.makeDirectories t.directory = (made, .ok ()) ∧
      made.writeText (t.outputPath c.name) c.markdown = (d', .ok ()) ∧
      i = ⟨c.name, t.outputPath c.name⟩ := by
  unfold writeCommand at h
  split at h
  · cases h
  · next made hmade =>
    dsimp only at h
    split at h
    · cases h
    · next d'' hwritten =>
      cases h
      exact ⟨made, hmade, hwritten, rfl⟩

/-- Installing a command file stores its instructions in the directory of the target, under the
declared name; nothing else changes but that missing directories are made.  If the file cannot be
compiled, this is reported and nothing changes at all. -/
theorem installFile_inside (d : Disk) (p : Path) (t : Target) :
    (∀ d' i, installFile d p t = (d', .ok i) → Installs d p t d' i) ∧
      ∀ failure, compileFile d p = .error failure →
        installFile d p t = (d, .error failure) := by
  constructor
  · intro d' i h
    unfold installFile at h
    split at h
    · cases h
    · next c hcompiled =>
      obtain ⟨hfile, found, hfound, rfl⟩ := compileFile_eq_ok hcompiled
      obtain ⟨source, parsed, hsource, hparse, hname, hsame⟩ :=
        exists_parse_of_expandFile hfile hfound
      obtain ⟨made, hmade, hwritten, rfl⟩ := writeCommand_eq_ok h
      have hisName : isName found.name.toList = true := hname ▸ isName_of_parse hparse
      have hstep : Path.IsName (found.name ++ ".md") := Path.isName_append hisName
      obtain ⟨file, hstored⟩ := Disk.stored_of_writeText hstep hmade hwritten
      exact
        { isName := hisName
          declares := ⟨source, hsource, hname ▸ declares_of_parse hparse, hsame⟩
          path := rfl
          parent := t.directory.exists_parent?_join_name hstep
          fileName := t.directory.fileName?_join_name hstep
          stored := ⟨found, file, hfound, hstored⟩ }
  · intro failure h
    rw [installFile, h]

/-- A disk with a command file that refers to one in the directory where its own instructions go,
under the same name.  A link leads to this directory. -/
def overwritten : Disk where
  entries :=
    [([["w"]], .directory), ([["srv"]], .directory), ([["srv", "c"]], .directory),
      ([["out"]], .link ⟨"srv/c"⟩),
      ([["w", "a"]], .file "command m \x7b\ntask(\"../out/m.md\")\n\x7d".toUTF8),
      ([["w", "b"]], .file "command ../m \x7b\n\x7d".toUTF8),
      ([["srv", "c", "m.md"], ["w", "n"]], .file "command n \x7b\nbreak\n\x7d".toUTF8)]
  here := []

/-- The file that is referred to gives way to the instructions that it became part of, and the
missing directory in front of a `..` is made.  A name with a slash in it is no name, and leaves the
disk as it was. -/
theorem installFile_inside_overwritten :
    (∃ d', installFile overwritten ⟨"w/a"⟩ ⟨⟨"q/../out/"⟩⟩ = (d', .ok ⟨"m", ⟨"q/../out/m.md"⟩⟩) ∧
      Installs overwritten ⟨"w/a"⟩ ⟨⟨"q/../out/"⟩⟩ d' ⟨"m", ⟨"q/../out/m.md"⟩⟩ ∧
      overwritten.get? ["q"] = none ∧ (∃ place, d'.HasDirectory ⟨"q"⟩ place) ∧
      overwritten.readText ⟨"out/m.md"⟩ = .ok "command n \x7b\nbreak\n\x7d") ∧
    ∃ failure, compileFile overwritten ⟨"w/b"⟩ = .error failure ∧
      installFile overwritten ⟨"w/b"⟩ ⟨⟨"out"⟩⟩ = (overwritten, .error failure) := by
  constructor
  · have hdone : (installFile overwritten ⟨"w/a"⟩ ⟨⟨"q/../out/"⟩⟩).2.toOption =
        some ⟨"m", ⟨"q/../out/m.md"⟩⟩ := by decide +kernel
    obtain ⟨d', hd'⟩ := Outcome.exists_state_of_toOption hdone
    have hinstalls := (installFile_inside _ _ _).1 d' _ hd'
    obtain ⟨c, file, -, hstored⟩ := hinstalls.stored
    have habove : (Path.mk "q/../out/").Ancestor ⟨"q"⟩ :=
      .head (show _ = some ⟨"q/.."⟩ by decide +kernel) (.single (by decide +kernel))
    exact ⟨d', hd', hinstalls, rfl, hstored.directories _ habove, by decide +kernel⟩
  · obtain ⟨failure, hfailure⟩ : ∃ failure, compileFile overwritten ⟨"w/b"⟩ = .error failure := by
      cases hrun : compileFile overwritten ⟨"w/b"⟩ with
      | error failure => exact ⟨failure, rfl⟩
      | ok c =>
        have hno : (compileFile overwritten ⟨"w/b"⟩).isOk = false := by decide +kernel
        rw [hrun] at hno
        cases hno
    exact ⟨failure, hfailure, (installFile_inside _ _ ⟨⟨"out"⟩⟩).2 failure hfailure⟩

/-- A disk with a link to the working directory, and another directory that is called as the
link. -/
def detoured : Disk where
  entries :=
    [([["proc"]], .directory), ([["proc", "self"]], .directory),
      ([["proc", "self", "cwd"]], .link ⟨"/tmp/w"⟩), ([["tmp"]], .directory),
      ([["tmp", "w"]], .directory),
      ([["tmp", "w", "a.md"]], .file "command inner \x7b\n\x7d".toUTF8),
      ([["tmp", "cwd"]], .directory),
      ([["tmp", "cwd", "a.md"]], .file "command outer \x7b\n\x7d".toUTF8)]
  here := ["tmp", "w"]

/-- The `..` behind the link leads to another file than the normalized path, and what is installed
is not what the file at the path declares. -/
theorem installFile_detoured :
    ∃ d' i source,
      installFile detoured ⟨"/proc/self/cwd/../cwd/a.md"⟩ ⟨⟨"out"⟩⟩ = (d', .ok i) ∧
        detoured.readText ⟨"/proc/self/cwd/../cwd/a.md"⟩ = .ok source ∧
        Declares source "outer" ∧ ¬Declares source i.name := by
  have hdone : (installFile detoured ⟨"/proc/self/cwd/../cwd/a.md"⟩ ⟨⟨"out"⟩⟩).2.toOption =
      some ⟨"inner", ⟨"out/inner.md"⟩⟩ := by decide +kernel
  have hdeclares : Declares "command outer \x7b\n\x7d" "outer" := by
    have hname : ((Command.parse "command outer \x7b\n\x7d").toOption.map (·.name)) =
        some "outer" := by decide +kernel
    obtain ⟨c, hc, hname⟩ := Option.map_eq_some_iff.1 hname
    rw [← hname]
    exact declares_of_parse (Outcome.toOption_eq_some_iff.1 hc)
  obtain ⟨d', hd'⟩ := Outcome.exists_state_of_toOption hdone
  refine ⟨d', _, _, hd', by decide +kernel, hdeclares, fun hinner => ?_⟩
  exact absurd (hdeclares.unique hinner) (by decide)

end

end Playbook
