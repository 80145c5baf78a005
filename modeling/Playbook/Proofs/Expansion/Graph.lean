import Mathlib.Logic.Relation
import Playbook.Proofs.Expansion.Walk
import Playbook.Proofs.Library.Capacity

/-!
# The graph of references

The files of a library form a graph: a file refers to those that the tasks in it name.  Following
the references of a file succeeds exactly if every file that it reaches holds a command and none of
them reaches itself, however often files are shared.

The chain that `Library.inclusion` carries is a path of this graph.  A file on the chain that is
referred to again closes a cycle, and without cycles the chain never repeats a file, so a capacity
that counts the files is never used up.
-/

namespace Playbook.Library

open Expansion Relation

variable (lib : Library)

/-- The file at one path refers to that at another: it holds a command in which a task names the
other one. -/
def Refers (a b : Path) : Prop :=
  ∃ c file, lib.command a = .ok c ∧ c.Names file ∧ b = target a.directory file

/-- Following references, none included, leads from one path to another. -/
def Reaches : Path → Path → Prop := ReflTransGen lib.Refers

/-- Following references, at least one, leads back to the path. -/
def IsCyclic (path : Path) : Prop := TransGen lib.Refers path path

variable {lib}

theorem refers_iff_mem_successors {a b : Path} : lib.Refers a b ↔ b ∈ lib.successors a := by
  unfold Refers successors
  cases lib.command a with
  | error e => simp
  | ok c => simp [Command.mem_references_iff, eq_comm]

@[simp] theorem normalize_target (directory : Path) (file : String) :
    (target directory file).normalize = target directory file :=
  Path.normalize_normalize _

/-! ### One step of an inclusion -/

/-- What it takes to include a file: it is not on the chain, holds a command, and the statements of
that command expand at the end of the longer chain. -/
theorem inclusion_succ_eq_ok_iff {bound : Nat} {chain : List Path} {directory : Path}
    {file : String} {found : Inclusion} :
    lib.inclusion (bound + 1) chain directory file = .ok found ↔
      target directory file ∉ chain ∧ ∃ c, lib.command (target directory file) = .ok c ∧
        found.name = c.name ∧
        expandStatements (lib.inclusion bound (chain ++ [target directory file])
          (target directory file).directory) c.body = .ok found.body := by
  rw [inclusion]
  split
  · next h => simp [h]
  · next h =>
    simp only [h, not_false_eq_true, true_and, Outcome.bind_eq_ok_iff, Except.ok.injEq]
    constructor
    · rintro ⟨c, hc, body, hbody, rfl⟩
      exact ⟨c, hc, rfl, hbody⟩
    · rintro ⟨c, hc, hname, hbody⟩
      exact ⟨c, hc, found.body, hbody, by rw [← hname]⟩

/-! ### What success means -/

/-- A path holds a command, is not on the chain, and is on no cycle. -/
def IsClear (lib : Library) (chain : List Path) (q : Path) : Prop :=
  (∃ c, lib.command q = .ok c) ∧ q ∉ chain ∧ ¬lib.IsCyclic q

/-- If all that the references of a file reach is clear of a chain with that file on it, the file
itself is on no cycle. -/
theorem reaches_cases_of_clear {chain : List Path} {path : Path} {c : Command}
    (hc : lib.command path = .ok c) (hmem : path ∈ chain)
    (hclear : ∀ file, c.Names file → ∀ q, lib.Reaches (target path.directory file) q →
      lib.IsClear chain q) {q : Path} (hq : lib.Reaches path q) :
    (q = path ∧ ¬lib.IsCyclic path) ∨ lib.IsClear chain q := by
  have hnext : ∀ b, lib.Refers path b → ∀ q, lib.Reaches b q → lib.IsClear chain q := by
    rintro b ⟨c', file, hc', hf, rfl⟩
    obtain rfl : c = c' := Except.ok.inj (hc.symm.trans hc')
    exact hclear file hf
  rcases ReflTransGen.cases_head hq with rfl | ⟨b, hb, hbq⟩
  · -- a cycle would lead to the path again, clear of the chain that it is on
    refine Or.inl ⟨rfl, fun hcycle => ?_⟩
    obtain ⟨b, hb, hback⟩ := TransGen.head'_iff.1 hcycle
    exact (hnext b hb _ hback).2.1 hmem
  · exact Or.inr (hnext b hb q hbq)

/-- An inclusion that succeeds has seen everything that the file reaches, and it is all clear of the
chain. -/
theorem isClear_of_inclusion {bound : Nat} {chain : List Path} {directory : Path} {file : String}
    {found : Inclusion} (h : lib.inclusion bound chain directory file = .ok found) {q : Path}
    (hq : lib.Reaches (target directory file) q) : lib.IsClear chain q := by
  induction bound generalizing chain directory file found q with
  | zero => cases h
  | succ bound ih =>
    obtain ⟨hchain, c, hc, -, hbody⟩ := inclusion_succ_eq_ok_iff.1 h
    have hsupply := expandStatements_succeeds_iff.1 ⟨_, hbody⟩
    -- every reference is included at the end of the longer chain
    have hclear : ∀ f, c.Names f → ∀ q, lib.Reaches (target (target directory file).directory f) q →
        lib.IsClear (chain ++ [target directory file]) q := by
      intro f hf q hq
      obtain ⟨found', hfound'⟩ := hsupply f (Command.mem_references_iff.2 hf)
      exact ih hfound' hq
    have hcases := reaches_cases_of_clear hc (by simp) hclear hq
    rcases hcases with ⟨rfl, hacyclic⟩ | ⟨hcmd, hoff, hacyclic⟩
    · exact ⟨⟨c, hc⟩, hchain, hacyclic⟩
    · exact ⟨hcmd, fun hmem => hoff (List.mem_append_left _ hmem), hacyclic⟩

/-! ### What it takes to succeed -/

/-- Everything that a path reaches holds a command, and none of it is cyclic. -/
def Sound (lib : Library) (path : Path) : Prop :=
  (∀ q, lib.Reaches path q → ∃ c, lib.command q = .ok c) ∧
    ∀ q, lib.Reaches path q → ¬lib.IsCyclic q

theorem Sound.of_refers {a b : Path} (h : lib.Sound a) (hab : lib.Refers a b) : lib.Sound b :=
  ⟨fun q hq => h.1 q (.head hab hq), fun q hq => h.2 q (.head hab hq)⟩

/-- A chain that leads to a path along references, without repetition, through files that hold
commands. -/
structure IsChain (lib : Library) (chain : List Path) (path : Path) : Prop where
  nodup : chain.Nodup
  holds : ∀ a ∈ chain, a.normalize = a ∧ ∃ c, lib.command a = .ok c
  leads : ∀ a ∈ chain, TransGen lib.Refers a path

/-- Without cycles the end of a chain is not on it. -/
theorem IsChain.not_mem {chain : List Path} {path : Path} (h : lib.IsChain chain path)
    (hs : lib.Sound path) : path ∉ chain :=
  fun hmem => hs.2 path .refl (h.leads path hmem)

/-- A chain grows by the file it leads to. -/
theorem IsChain.extend {chain : List Path} {path next : Path} (h : lib.IsChain chain path)
    (hs : lib.Sound path) (hnorm : path.normalize = path) (hnext : lib.Refers path next) :
    lib.IsChain (chain ++ [path]) next where
  nodup := by
    refine List.nodup_append.2 ⟨h.nodup, List.nodup_singleton _, ?_⟩
    rintro a ha b hb rfl
    exact h.not_mem hs (List.mem_singleton.1 hb ▸ ha)
  holds := by
    intro a ha
    rcases List.mem_append.1 ha with ha | ha
    · exact h.holds a ha
    · rw [List.mem_singleton.1 ha]
      exact ⟨hnorm, hs.1 path .refl⟩
  leads := by
    intro a ha
    rcases List.mem_append.1 ha with ha | ha
    · exact (h.leads a ha).tail hnext
    · rw [List.mem_singleton.1 ha]
      exact .single hnext

/-- At the end of a chain a file that reaches no defect and no cycle can be included, if the bound
and the length of the chain exceed the capacity together. -/
theorem inclusion_succeeds (hb : lib.Bounded) {bound : Nat} {chain : List Path} {directory : Path}
    {file : String} (hbound : lib.capacity < bound + chain.length)
    (hchain : lib.IsChain chain (target directory file))
    (hs : lib.Sound (target directory file)) :
    ∃ found, lib.inclusion bound chain directory file = .ok found := by
  induction bound generalizing chain directory file with
  | zero =>
    -- the chain alone would hold more files than there are
    have := hb.length_le hchain.nodup hchain.holds
    omega
  | succ bound ih =>
    obtain ⟨c, hc⟩ := hs.1 _ .refl
    have hsupply : Supplies (lib.inclusion bound (chain ++ [target directory file])
        (target directory file).directory) (statementsReferences c.body) := by
      intro f hf
      have hrefers : lib.Refers (target directory file)
          (target (target directory file).directory f) :=
        ⟨c, f, hc, Command.mem_references_iff.1 hf, rfl⟩
      -- the bound falls by one and the chain grows by one
      refine ih ?_ (hchain.extend hs (normalize_target _ _) hrefers) (hs.of_refers hrefers)
      rw [List.length_append, List.length_singleton]
      omega
    obtain ⟨body, hbody⟩ := expandStatements_succeeds_iff.2 hsupply
    exact ⟨⟨c.name, body⟩,
      inclusion_succ_eq_ok_iff.2 ⟨hchain.not_mem hs, c, hc, rfl, hbody⟩⟩

/-! ### Whole files -/

theorem expandFile_eq_ok_iff {path : Path} {result : Command} :
    lib.expandFile path = .ok result ↔
      ∃ c, lib.command path.normalize = .ok c ∧ result.name = c.name ∧
        expandStatements (lib.inclusion (lib.capacity + 1) [path.normalize]
          path.normalize.directory) c.body = .ok result.body := by
  simp only [expandFile, Outcome.bind_eq_ok_iff, Except.ok.injEq]
  constructor
  · rintro ⟨c, hc, body, hbody, rfl⟩
    exact ⟨c, hc, rfl, hbody⟩
  · rintro ⟨c, hc, hname, hbody⟩
    exact ⟨c, hc, result.body, hbody, by rw [← hname]⟩

theorem sound_of_expandFile {path : Path} {result : Command}
    (h : lib.expandFile path = .ok result) : lib.Sound path.normalize := by
  obtain ⟨c, hc, -, hbody⟩ := expandFile_eq_ok_iff.1 h
  have hsupply := expandStatements_succeeds_iff.1 ⟨_, hbody⟩
  have hcases : ∀ q, lib.Reaches path.normalize q →
      (q = path.normalize ∧ ¬lib.IsCyclic path.normalize) ∨ lib.IsClear [path.normalize] q := by
    intro q hq
    refine reaches_cases_of_clear hc (by simp) (fun file hf q hq => ?_) hq
    obtain ⟨found, hfound⟩ := hsupply file (Command.mem_references_iff.2 hf)
    exact isClear_of_inclusion hfound hq
  constructor
  · intro q hq
    rcases hcases q hq with ⟨rfl, -⟩ | hclear
    · exact ⟨c, hc⟩
    · exact hclear.1
  · intro q hq
    rcases hcases q hq with ⟨rfl, hacyclic⟩ | hclear
    · exact hacyclic
    · exact hclear.2.2

theorem expandFile_of_sound (hb : lib.Bounded) {path : Path} (hs : lib.Sound path.normalize) :
    ∃ result, lib.expandFile path = .ok result := by
  obtain ⟨c, hc⟩ := hs.1 _ .refl
  have hempty : lib.IsChain [] path.normalize := ⟨List.nodup_nil, by simp, by simp⟩
  have hsupply : Supplies (lib.inclusion (lib.capacity + 1) [path.normalize]
      path.normalize.directory) (statementsReferences c.body) := by
    intro file hf
    have hrefers : lib.Refers path.normalize (target path.normalize.directory file) :=
      ⟨c, file, hc, Command.mem_references_iff.1 hf, rfl⟩
    refine inclusion_succeeds hb ?_ (hempty.extend hs (Path.normalize_normalize _) hrefers)
      (hs.of_refers hrefers)
    omega
  obtain ⟨body, hbody⟩ := expandStatements_succeeds_iff.2 hsupply
  exact ⟨⟨c.name, body⟩, expandFile_eq_ok_iff.2 ⟨c, hc, rfl, hbody⟩⟩

/-- A command file expands exactly if every file that it reaches, itself included, holds a command,
and none of them is on a cycle of references. -/
theorem expandFile_succeeds_iff (lib : Library) (hb : lib.Bounded) (path : Path) :
    (∃ result, lib.expandFile path = .ok result) ↔
      (∀ q, lib.Reaches path.normalize q → ∃ c, lib.command q = .ok c) ∧
        ∀ q, lib.Reaches path.normalize q → ¬lib.IsCyclic q :=
  ⟨fun ⟨_, h⟩ => sound_of_expandFile h, fun hs => expandFile_of_sound hb hs⟩

/-- A shelf on which two files use a third one, under two spellings. -/
def sharedFile : Shelf :=
  (((Shelf.empty.insert ⟨"main"⟩ "command main \x7b\ntask(\"l\")\ntask(\"./x/../r\")\n\x7d").insert
    ⟨"l"⟩ "command l \x7b\nif (a) \x7b\ntask(\"end\")\n\x7d\n\x7d").insert
    ⟨"r"⟩ "command r \x7b\nparallel \x7b\ntask(\"./end\", plan)\n\x7d\n\x7d").insert
    ⟨"end"⟩ "command end \x7b\nbreak\n\x7d"

/-- The same files, but the one that is shared refers to a file that is missing. -/
def lost : Library :=
  (sharedFile.insert ⟨"end"⟩ "command end \x7b\ntask(\"gone\")\n\x7d").library []

/-- The same files, but the one that is shared does not end. -/
def torn : Library := (sharedFile.insert ⟨"end"⟩ "command end \x7b\nbreak").library []

/-- The same files, but the one that is shared refers back. -/
def looping : Library :=
  (sharedFile.insert ⟨"end"⟩ "command end \x7b\ntask(\"l\")\n\x7d").library []

/-- A shared file is no cycle.  If it leads to a missing file, is defective, or leads back, the file
from which it is reached does not expand. -/
theorem expandFile_succeeds_iff_sharedFile :
    ((sharedFile.library []).Bounded ∧
      (∃ result, (sharedFile.library []).expandFile ⟨"./main"⟩ = .ok result) ∧
      (∀ q, (sharedFile.library []).Reaches (Path.mk "./main").normalize q →
        ∃ c, (sharedFile.library []).command q = .ok c) ∧
      ∀ q, (sharedFile.library []).Reaches (Path.mk "./main").normalize q →
        ¬(sharedFile.library []).IsCyclic q) ∧
    (lost.Reaches (Path.mk "./main").normalize ⟨"gone"⟩ ∧ lost.fetch ⟨"gone"⟩ = .missing ∧
      ¬∃ result, lost.expandFile ⟨"./main"⟩ = .ok result) ∧
    (torn.Reaches (Path.mk "./main").normalize ⟨"end"⟩ ∧
      torn.fetch ⟨"end"⟩ = .text "command end \x7b\nbreak" ∧
      (Command.parse "command end \x7b\nbreak").isOk = false ∧
      ¬∃ result, torn.expandFile ⟨"./main"⟩ = .ok result) ∧
    looping.Reaches (Path.mk "./main").normalize ⟨"l"⟩ ∧ looping.IsCyclic ⟨"l"⟩ ∧
      ¬∃ result, looping.expandFile ⟨"./main"⟩ = .ok result := by
  refine ⟨?_, ?_, ?_, ?_⟩
  · have hb := sharedFile.bounded_library []
    have hok : ∃ result, (sharedFile.library []).expandFile ⟨"./main"⟩ = .ok result :=
      Outcome.exists_ok_of_isOk (by decide +kernel)
    exact ⟨hb, hok, (expandFile_succeeds_iff _ hb _).1 hok⟩
  · have hmain : lost.Refers (Path.mk "./main").normalize ⟨"l"⟩ :=
      refers_iff_mem_successors.2 (by decide +kernel)
    have hl : lost.Refers ⟨"l"⟩ ⟨"end"⟩ := refers_iff_mem_successors.2 (by decide +kernel)
    have hend : lost.Refers ⟨"end"⟩ ⟨"gone"⟩ := refers_iff_mem_successors.2 (by decide +kernel)
    have hreaches := ReflTransGen.head hmain (.head hl (.single hend))
    have hmissing : lost.fetch ⟨"gone"⟩ = .missing := by decide +kernel
    refine ⟨hreaches, hmissing, fun hok => ?_⟩
    have hb : lost.Bounded := Shelf.bounded_library _ _
    obtain ⟨c, hc⟩ := ((expandFile_succeeds_iff lost hb _).1 hok).1 _ hreaches
    obtain ⟨source, hsource, -⟩ := command_eq_ok_iff.1 hc
    rw [hmissing] at hsource
    cases hsource
  · have hmain : torn.Refers (Path.mk "./main").normalize ⟨"l"⟩ :=
      refers_iff_mem_successors.2 (by decide +kernel)
    have hl : torn.Refers ⟨"l"⟩ ⟨"end"⟩ := refers_iff_mem_successors.2 (by decide +kernel)
    have hreaches := ReflTransGen.head hmain (.single hl)
    have htext : torn.fetch ⟨"end"⟩ = .text "command end \x7b\nbreak" := by decide +kernel
    have hdefect : (Command.parse "command end \x7b\nbreak").isOk = false := by decide +kernel
    refine ⟨hreaches, htext, hdefect, fun hok => ?_⟩
    have hb : torn.Bounded := Shelf.bounded_library _ _
    obtain ⟨c, hc⟩ := ((expandFile_succeeds_iff torn hb _).1 hok).1 _ hreaches
    obtain ⟨source, hsource, hparse⟩ := command_eq_ok_iff.1 hc
    cases htext.symm.trans hsource
    rw [hparse] at hdefect
    cases hdefect
  · have hmain : looping.Refers (Path.mk "./main").normalize ⟨"l"⟩ :=
      refers_iff_mem_successors.2 (by decide +kernel)
    have hl : looping.Refers ⟨"l"⟩ ⟨"end"⟩ := refers_iff_mem_successors.2 (by decide +kernel)
    have hend : looping.Refers ⟨"end"⟩ ⟨"l"⟩ := refers_iff_mem_successors.2 (by decide +kernel)
    have hreaches := ReflTransGen.single hmain
    have hcycle : looping.IsCyclic ⟨"l"⟩ := .head hl (.single hend)
    refine ⟨hreaches, hcycle, fun hok => ?_⟩
    have hb : looping.Bounded := Shelf.bounded_library _ _
    exact ((expandFile_succeeds_iff looping hb _).1 hok).2 _ hreaches hcycle

end Playbook.Library
