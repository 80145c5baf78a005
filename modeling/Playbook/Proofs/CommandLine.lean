import Playbook.CommandLine.Run
import Playbook.Proofs.Disk.Normalized

/-!
# The codes that the program ends with

A command file can be shown as a tree, as it stands, or as instructions, with all that it refers to.
What is wrong with the file itself is found either way, in the arguments, in its name, on the disk
or in its text, and on a disk without links the program ends with the same code
(`code_compile_of_code_parse`).  Links are left out because the file is shown from its path as it is
given, but compiled from the normalized one.

There is one exception.  A file that is not text is a fault of the disk to the one, which ends with
1, and a reference that could not be taken in to the other, which ends with 3 (`brokenText`).
-/

namespace Playbook.CommandLine

/-- The code that a run ends with, which is 2 for arguments that are refused. -/
def Result.code : Result → Nat
  | none => 2
  | some outcome => outcome.code

/-! ### Options -/

/-- The words stay the given ones while options are read, which stops only for the usage. -/
def KeepsWords {α : Type} (words : List String) : Except Halt (Given × α) → Prop
  | .error halt => halt = .usage
  | .ok (g, _) => g.words = words

variable {g : Given} {allowed : List Switch}

theorem keepsWords_give {α : Type} {s : Switch} (hs : s ≠ .version) (value : String) (a : α) :
    KeepsWords g.words ((g.give s value).map (·, a)) := by
  unfold Given.give
  rw [if_neg hs]
  split
  · rfl
  · rfl

theorem ne_version_of_find? (hversion : .version ∉ allowed) {wanted : Switch → Bool} {s : Switch}
    (h : allowed.find? wanted = some s) : s ≠ .version :=
  fun he => hversion (he ▸ List.mem_of_find?_eq_some h)

theorem keepsWords_readName (hversion : .version ∉ allowed) (text : List Char) :
    KeepsWords g.words (readName allowed g text) := by
  unfold readName
  dsimp only
  split
  · rfl
  · rename_i s hs _
    split
    · rfl
    · exact keepsWords_give (ne_version_of_find? hversion hs) "" none
  · rename_i hs _
    split
    · exact keepsWords_give (ne_version_of_find? hversion hs) _ none
    · rfl

theorem keepsWords_readLetters (hversion : .version ∉ allowed) (letters : List Char) :
    KeepsWords g.words (readLetters allowed g letters) := by
  induction letters generalizing g with
  | nil => rfl
  | cons letter rest ih =>
    unfold readLetters
    split
    · rfl
    · rename_i s hs
      have hne := ne_version_of_find? hversion hs
      split
      · split
        · rfl
        · exact keepsWords_give hne _ none
        · exact keepsWords_give hne _ none
      · have hgive := keepsWords_give (g := g) hne "" ()
        cases hnext : g.give s "" with
        | error halt =>
          rw [hnext] at hgive
          exact hgive
        | ok next =>
          rw [hnext] at hgive
          have hrest : KeepsWords next.words (readLetters allowed next rest) := ih
          rwa [hgive] at hrest

/-- A last argument that is no word adds none. -/
theorem keepsWords_readLevel (hversion : .version ∉ allowed) {argument : String}
    (h : Shape.of argument ≠ .word) :
    KeepsWords g.words (readLevel allowed true g [argument]) := by
  cases hshape : Shape.of argument with
  | word => exact absurd hshape h
  | endOfOptions =>
    rw [readLevel, hshape]
    rfl
  | named text =>
    have hread := keepsWords_readName (g := g) hversion text
    rw [readLevel, hshape]
    dsimp only
    generalize readName allowed g text = read at hread ⊢
    rcases read with halt | ⟨after, _ | s⟩
    · exact hread
    · exact hread
    · rfl
  | letters text =>
    have hread := keepsWords_readLetters (g := g) hversion text
    rw [readLevel, hshape]
    dsimp only
    generalize readLetters allowed g text = read at hread ⊢
    rcases read with halt | ⟨after, _ | s⟩
    · exact hread
    · exact hread
    · rfl

/-! ### Requests -/

theorem readLevel_word (g : Given) {argument : String} (h : Shape.of argument = .word) (leaf : Bool)
    (rest : List String) : readLevel allowed leaf g (argument :: rest) =
      if leaf then readLevel allowed leaf (g.word argument) rest
      else .ok (g.word argument, rest) := by
  rw [readLevel, h]

/-- Reads what stands behind the name of a subcommand. -/
def Subcommand.request (environment : Option String) (c : Subcommand) (rest : List String) :
    Except Halt Request := do
  let (after, _) ← readLevel c.switches true Given.nothing rest
  match c.action? after with
  | none => .error .usage
  | some action => do
    let dir ← commandsDir? (Given.nothing.word c.name) after environment
    .ok ⟨dir, action⟩

/-- After the name of a subcommand, everything is read for that. -/
theorem read_subcommand (environment : Option String) (c : Subcommand) (rest : List String) :
    Request.read environment (c.name :: rest) = c.request environment rest := by
  have hword : Shape.of c.name = .word := by cases c <;> decide +kernel
  have hfind : Subcommand.all.find? (·.name == c.name) = some c := by cases c <;> decide +kernel
  rw [Request.read, readLevel_word _ hword, if_neg Bool.false_ne_true]
  dsimp only [bind, Except.bind, Given.word, Given.nothing, List.nil_append]
  rewrite [hfind]
  rfl

theorem version_not_mem_switches (c : Subcommand) : .version ∉ c.switches := by
  cases c <;> decide

theorem readLevel_toStdout (rest : List String) :
    readLevel Subcommand.compile.switches true Given.nothing ("--stdout" :: rest) =
      readLevel Subcommand.compile.switches true ⟨[(.toStdout, "")], []⟩ rest := by
  have hshape : Shape.of "--stdout" = .named "stdout".toList := by decide +kernel
  have hread : readName Subcommand.compile.switches Given.nothing "stdout".toList =
      .ok (⟨[(.toStdout, "")], []⟩, none) := by with_unfolding_all rfl
  rw [readLevel, hshape]
  dsimp only
  rw [hread]

section Subcommand

variable (environment : Option String) (c : Subcommand) {rest left : List String} {after : Given}

theorem read_of_action?_eq_none
    (h : readLevel c.switches true Given.nothing rest = .ok (after, left))
    (haction : c.action? after = none) :
    Request.read environment (c.name :: rest) = .error .usage := by
  rw [read_subcommand, Subcommand.request, h]
  simp [bind, Except.bind, haction]

/-- A subcommand without a word is refused. -/
theorem read_of_keepsWords (h : KeepsWords [] (readLevel c.switches true Given.nothing rest)) :
    Request.read environment (c.name :: rest) = .error .usage := by
  cases hread : readLevel c.switches true Given.nothing rest with
  | error halt =>
    rw [hread] at h
    rw [read_subcommand, Subcommand.request, hread, show halt = .usage from h]
    rfl
  | ok read =>
    rw [hread] at h
    have hwords : read.1.words = [] := h
    refine read_of_action?_eq_none environment c hread ?_
    cases c <;> simp [Subcommand.action?, hwords]

/-- A subcommand that can be carried out, without a directory for commands. -/
theorem read_of_action?_eq_some {action : Action}
    (h : readLevel c.switches true Given.nothing rest = .ok (after, left))
    (haction : c.action? after = some action) (hdir : after.value? .commandsDir = none) :
    Request.read environment (c.name :: rest) =
      if environment = some "" then .error .usage
      else .ok ⟨environment.map Path.mk, action⟩ := by
  have hbefore : (Given.nothing.word c.name).value? .commandsDir = none := rfl
  rw [read_subcommand, Subcommand.request, h]
  simp only [bind, Except.bind, haction, commandsDir?, hdir, hbefore]
  by_cases henvironment : environment = some ""
  · simp only [if_pos henvironment]
  · simp only [if_neg henvironment]
    rfl

end Subcommand

/-- The same file is asked for, or neither is accepted. -/
theorem read_parse_or (environment : Option String) (file : String) :
    (Request.read environment ["parse", file] = .error .usage ∧
      Request.read environment ["compile", "--stdout", file] = .error .usage) ∨
    ∃ dir, Request.read environment ["parse", file] = .ok ⟨dir, .print .tree ⟨file⟩⟩ ∧
      Request.read environment ["compile", "--stdout", file] =
        .ok ⟨dir, .print .instructions ⟨file⟩⟩ := by
  by_cases hword : Shape.of file = .word
  · have hparse : readLevel Subcommand.parse.switches true Given.nothing [file] =
        .ok (⟨[], [file]⟩, []) := by
      rw [readLevel_word _ hword]
      rfl
    have hcompile : readLevel Subcommand.compile.switches true Given.nothing ["--stdout", file] =
        .ok (⟨[(.toStdout, "")], [file]⟩, []) := by
      rw [readLevel_toStdout, readLevel_word _ hword]
      rfl
    have hstdout : Given.has ⟨[(.toStdout, "")], [file]⟩ .toStdout = true := rfl
    have houtput : Given.value? ⟨[(.toStdout, "")], [file]⟩ .output = none := rfl
    cases hempty : file.isEmpty with
    | true =>
      left
      constructor
      · exact read_of_action?_eq_none environment .parse hparse
          (by simp [Subcommand.action?, hempty])
      · exact read_of_action?_eq_none environment .compile hcompile
          (by simp [Subcommand.action?, hempty])
    | false =>
      have htree : Subcommand.parse.action? ⟨[], [file]⟩ = some (.print .tree ⟨file⟩) := by
        simp [Subcommand.action?, hempty]
      have hinstructions : Subcommand.compile.action? ⟨[(.toStdout, "")], [file]⟩ =
          some (.print .instructions ⟨file⟩) := by
        simp [Subcommand.action?, hempty, hstdout, houtput]
      have hparse := read_of_action?_eq_some environment .parse hparse htree rfl
      have hcompile := read_of_action?_eq_some environment .compile hcompile hinstructions rfl
      by_cases henvironment : environment = some ""
      · rw [if_pos henvironment] at hparse hcompile
        exact .inl ⟨hparse, hcompile⟩
      · rw [if_neg henvironment] at hparse hcompile
        exact .inr ⟨_, hparse, hcompile⟩
  · left
    constructor
    · exact read_of_keepsWords environment .parse
        (keepsWords_readLevel (version_not_mem_switches .parse) hword)
    · refine read_of_keepsWords environment .compile ?_
      rw [readLevel_toStdout]
      exact keepsWords_readLevel (version_not_mem_switches .compile) hword

/-! ### Files -/

variable {d : Disk} {p : Path}

theorem readText_of_find {content : ByteArray} (h : d.find p = .ok (.file content)) :
    d.readText p =
      match String.fromUTF8? content with
      | some text => .ok text
      | none => .error .notText := by
  rw [Disk.readText, Disk.readBytes, h]
  rfl

theorem compileFile_of_not_isFile (h : ¬d.isFile p = true) :
    ∃ fault, compileFile d p = .error (.disk fault) :=
  ⟨_, if_neg h⟩

/-- A file is taken in from the normalized path as it is found at the path. -/
theorem compileFile_of_find {content : ByteArray} (h : d.find p = .ok (.file content))
    {e : ExpansionError} (he : d.library.command p.normalize = .error e) :
    compileFile d p = .error (.expansion e) := by
  have hfile : d.isFile p = true := Disk.isFile_iff.2 ⟨content, h⟩
  rw [compileFile, if_pos hfile, Library.expandFile, he]
  rfl

theorem command_normalize (hl : d.LinkFree) {content : ByteArray}
    (h : d.find p = .ok (.file content)) :
    d.library.command p.normalize =
      match Disk.fetchedAs content with
      | .text source => (Command.parse source).mapError (.defective p.normalize)
      | .missing => .error (.notFound p.normalize)
      | .failed fault => .error (.unreadable p.normalize fault) := by
  have hlibrary : d.library.fetch = d.fetch := rfl
  rewrite [Library.command, hlibrary, Disk.fetch_of_find (Disk.find_normalize hl h)]
  cases Disk.fetchedAs content <;> rfl

/-- A file that cannot be shown cannot be compiled, and ends the program with the same code unless
it is no text. -/
theorem compileChecked_of_showTree (hl : d.LinkFree) {settings : Settings} {failure : Failure}
    (h : showTree d settings p = .error failure) :
    ∃ other, compileChecked d settings p = .error other ∧
      (other.exitCode = failure.exitCode ∨
        d.readText p = .error .notText ∧ failure.exitCode = 1 ∧ other.exitCode = 3) := by
  rw [compileChecked]
  rcases Outcome.bind_eq_error_iff.1 h with h | ⟨⟨⟩, hextension, h⟩
  · rw [h]
    exact ⟨failure, rfl, .inl rfl⟩
  · rw [hextension]
    show ∃ other, compileFile d p = .error other ∧ _
    rcases Outcome.bind_eq_error_iff.1 h with h | ⟨source, hsource, h⟩
    · obtain ⟨fault, hfault, rfl⟩ := Outcome.mapError_eq_error_iff.1 h
      by_cases hfile : d.isFile p = true
      · obtain ⟨content, hfind⟩ := Disk.isFile_iff.1 hfile
        have hread := readText_of_find hfind
        have hcommand := command_normalize hl hfind
        rw [Disk.fetchedAs] at hcommand
        cases htext : String.fromUTF8? content with
        | some text =>
          rw [hfault, htext] at hread
          cases hread
        | none =>
          rw [htext] at hread hcommand
          exact ⟨_, compileFile_of_find hfind hcommand, .inr ⟨hread, rfl, rfl⟩⟩
      · obtain ⟨other, hother⟩ := compileFile_of_not_isFile hfile
        exact ⟨_, hother, .inl rfl⟩
    · have hfind := Disk.readText_eq_ok_iff.1 (Outcome.mapError_eq_ok_iff.1 hsource)
      rcases Outcome.bind_eq_error_iff.1 h with h | ⟨c, -, h⟩
      · obtain ⟨defect, hdefect, rfl⟩ := Outcome.mapError_eq_error_iff.1 h
        have hcommand : d.library.command p.normalize = .error (.defective p.normalize defect) := by
          rw [command_normalize hl hfind, Disk.fetchedAs, fromUTF8?_eq_some_iff.2 rfl]
          dsimp only
          rw [hdefect]
          rfl
        exact ⟨_, compileFile_of_find hfind hcommand, .inl rfl⟩
      · cases h

/-! ### Runs -/

theorem code_of_shown (env : Environment) (dir : Option Path) (product : Product) (file : Path)
    (d : Disk) : (Request.run ⟨dir, .print product file⟩ env d).code =
      match shown d (Settings.load d env.home) file product with
      | .ok _ => 0
      | .error failure => failure.exitCode := by
  rw [Request.run]
  dsimp only
  cases shown d (Settings.load d env.home) file product <;> rfl

/-- On a disk without links, a file that cannot be shown as a tree cannot be compiled, and both end
with the same code unless the file is no text. -/
theorem code_compile_of_code_parse {env : Environment} {file : String} {d : Disk}
    (hl : d.LinkFree) (h : (run env ["parse", file] d).code ≠ 0) :
    (run env ["compile", "--stdout", file] d).code = (run env ["parse", file] d).code ∨
      d.readText ⟨file⟩ = .error .notText ∧ (run env ["parse", file] d).code = 1 ∧
        (run env ["compile", "--stdout", file] d).code = 3 := by
  rcases read_parse_or env.commandsDir file with ⟨hparse, hcompile⟩ | ⟨dir, hparse, hcompile⟩
  · rw [run, run, hparse, hcompile]
    exact .inl rfl
  · have htree : (run env ["parse", file] d).code =
        (Request.run ⟨dir, .print .tree ⟨file⟩⟩ env d).code := by
      rw [run, hparse]
      rfl
    have hinstructions : (run env ["compile", "--stdout", file] d).code =
        (Request.run ⟨dir, .print .instructions ⟨file⟩⟩ env d).code := by
      rw [run, hcompile]
      rfl
    rw [htree, code_of_shown] at h ⊢
    rw [hinstructions, code_of_shown]
    cases hshown : shown d (Settings.load d env.home) ⟨file⟩ .tree with
    | ok text =>
      rw [hshown] at h
      exact absurd rfl h
    | error failure =>
      obtain ⟨other, hother, hcode⟩ := compileChecked_of_showTree hl hshown
      rw [shown, hother]
      exact hcode

/-- A directory, and a file that does not start as it should. -/
def headlessFile : Disk where
  entries := [([["drafts"]], .directory), ([["a.stim"]], .file "comand a".toUTF8)]
  here := []

theorem code_compile_of_code_parse_headlessFile :
    headlessFile.LinkFree ∧
      (run ⟨none, none⟩ ["parse", "drafts/../a.stim"] headlessFile).code = 2 ∧
      (run ⟨none, none⟩ ["compile", "--stdout", "drafts/../a.stim"] headlessFile).code = 2 := by
  have hl : headlessFile.LinkFree := Disk.linkFree_of_all rfl
  have hparse : (run ⟨none, none⟩ ["parse", "drafts/../a.stim"] headlessFile).code = 2 := by
    decide +kernel
  have hne : (run ⟨none, none⟩ ["parse", "drafts/../a.stim"] headlessFile).code ≠ 0 := by
    rw [hparse]
    decide
  rcases code_compile_of_code_parse hl hne with h | ⟨-, h, -⟩
  · exact ⟨hl, hparse, h.trans hparse⟩
  · rw [hparse] at h
    cases h

/-- A file of one byte that no text is written with. -/
def brokenText : Disk where
  entries := [([["bad.stim"]], .file ⟨#[0xff]⟩)]
  here := []

/-- The codes differ for a file that is no text. -/
theorem brokenText_codes :
    (run ⟨none, none⟩ ["parse", "bad.stim"] brokenText).code = 1 ∧
      (run ⟨none, none⟩ ["compile", "--stdout", "bad.stim"] brokenText).code = 3 := by
  constructor
  · decide +kernel
  · decide +kernel

end Playbook.CommandLine
