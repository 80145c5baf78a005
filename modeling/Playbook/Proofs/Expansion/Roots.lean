import Playbook.Proofs.Expansion.Position

/-!
# Starting from a file or from its command

The expansion of a file has that file as the first of its chain, the expansion of the command in it
starts with an empty chain.  Both succeed in the same cases and with the same result.

A shorter chain only makes inclusions easier, so what the file expands to, its command expands to.
Conversely, a command that expands has been followed to everything it reaches, and none of that is
on a cycle.  If a reference led back to the file of the command, the file would be among what is
reached and on a cycle, so the file can be put on the chain as well.
-/

namespace Playbook.Library

open Expansion Relation

variable {lib : Library}

theorem command_of_fetch {path : Path} {source : String} (hs : lib.fetch path = .text source)
    {c : Command} (hc : Command.parse source = .ok c) : lib.command path = .ok c := by
  simp [command, hs, hc, Except.mapError]

theorem expand_eq_ok_iff {c result : Command} {directory : Path} :
    lib.expand c directory = .ok result ↔
      result.name = c.name ∧
        expandStatements (lib.inclusion (lib.capacity + 1) [] directory) c.body =
          .ok result.body := by
  simp only [expand, Outcome.bind_eq_ok_iff, Except.ok.injEq]
  constructor
  · rintro ⟨body, hbody, rfl⟩
    exact ⟨rfl, hbody⟩
  · rintro ⟨hname, hbody⟩
    exact ⟨result.body, hbody, by rw [← hname]⟩

/-- What a file expands to, the command in it expands to. -/
theorem expand_of_expandFile {path : Path} {c result : Command}
    (hc : lib.command path.normalize = .ok c) (h : lib.expandFile path = .ok result) :
    lib.expand c path.normalize.directory = .ok result := by
  obtain ⟨c', hc', hname, hbody⟩ := expandFile_eq_ok_iff.1 h
  obtain rfl : c = c' := Except.ok.inj (hc.symm.trans hc')
  refine expand_eq_ok_iff.2 ⟨hname, expandStatements_mono (fun file _ found hfound => ?_) hbody⟩
  exact inclusion_mono le_rfl (List.nil_subset _) hfound

/-- A file is sound if the command in it expands: every cycle through the file passes one of the
references that were followed. -/
theorem sound_of_expand {path : Path} {c result : Command} (hc : lib.command path = .ok c)
    (h : lib.expand c path.directory = .ok result) : lib.Sound path := by
  have hsupply := expandStatements_succeeds_iff.1 ⟨_, (expand_eq_ok_iff.1 h).2⟩
  have hnext : ∀ b, lib.Refers path b → ∀ q, lib.Reaches b q → lib.IsClear [] q := by
    rintro b ⟨c', file, hc', hfile, rfl⟩ q hq
    obtain rfl : c = c' := Except.ok.inj (hc.symm.trans hc')
    obtain ⟨found, hfound⟩ := hsupply file (Command.mem_references_iff.2 hfile)
    exact isClear_of_inclusion hfound hq
  have hcases : ∀ q, lib.Reaches path q → q = path ∨ lib.IsClear [] q := by
    intro q hq
    rcases ReflTransGen.cases_head hq with rfl | ⟨b, hb, hbq⟩
    · exact Or.inl rfl
    · exact Or.inr (hnext b hb q hbq)
  constructor
  · intro q hq
    rcases hcases q hq with rfl | hclear
    · exact ⟨c, hc⟩
    · exact hclear.1
  · intro q hq hcycle
    rcases hcases q hq with rfl | hclear
    · -- the cycle leaves the file by a reference and comes back to it
      obtain ⟨b, hb, hback⟩ := TransGen.head'_iff.1 hcycle
      exact (hnext b hb q hback).2.2 hcycle
    · exact hclear.2.2 hcycle

/-- A file expands exactly if the command in it does, from the directory of the file, and to the
same command. -/
theorem expandFile_eq_ok_iff_expand (lib : Library) (hb : lib.Bounded) {path : Path}
    {source : String} (hs : lib.fetch path.normalize = .text source) {c : Command}
    (hc : Command.parse source = .ok c) (result : Command) :
    lib.expandFile path = .ok result ↔
      lib.expand c path.normalize.directory = .ok result := by
  have hcommand := command_of_fetch hs hc
  constructor
  · exact expand_of_expandFile hcommand
  · intro h
    obtain ⟨other, hother⟩ := expandFile_of_sound hb (sound_of_expand hcommand h)
    have hsame := expand_of_expandFile hcommand hother
    rw [hother, ← hsame, h]

/-- A shelf with a file that refers to another one, which holds the given statement. -/
def pairedWith (statement : String) : Shelf :=
  (Shelf.empty.insert ⟨"x/a"⟩ "command a \x7b\ntask(\"b\")\n\x7d").insert
    ⟨"x/b"⟩ ("command b \x7b\n" ++ statement ++ "\n\x7d")

/-- The command in the first file. -/
def firstOfPair : Command := ⟨"a", [.task (Task.fromFile "b" .general)]⟩

/-- If the second file does not refer back, both ways give the same command.  If it does, neither
succeeds, and the cycle is found at different references. -/
theorem expandFile_eq_ok_iff_expand_pairedWith :
    (∃ result, ((pairedWith "break").library []).expandFile ⟨"./x/a"⟩ = .ok result ∧
      ((pairedWith "break").library []).expand firstOfPair ⟨"x"⟩ = .ok result) ∧
    ((pairedWith "task(\"a\")").library []).expandFile ⟨"./x/a"⟩ =
      .error (.circular "a" [⟨"x/a"⟩, ⟨"x/b"⟩, ⟨"x/a"⟩]) ∧
    ((pairedWith "task(\"a\")").library []).expand firstOfPair ⟨"x"⟩ =
      .error (.circular "b" [⟨"x/b"⟩, ⟨"x/a"⟩, ⟨"x/b"⟩]) := by
  have hparse : Command.parse "command a \x7b\ntask(\"b\")\n\x7d" = .ok firstOfPair := by
    with_unfolding_all rfl
  have hdirectory : (Path.mk "./x/a").normalize.directory = ⟨"x"⟩ := by decide +kernel
  obtain ⟨result, hresult⟩ : ∃ result,
      ((pairedWith "break").library []).expandFile ⟨"./x/a"⟩ = .ok result :=
    Outcome.exists_ok_of_isOk (by decide +kernel)
  have hsame := (expandFile_eq_ok_iff_expand ((pairedWith "break").library [])
    (Shelf.bounded_library _ _) (by decide +kernel) hparse result).1 hresult
  rw [hdirectory] at hsame
  exact ⟨⟨result, hresult, hsame⟩,
    Outcome.map_eq_error_iff (f := fun _ => ()).1 (by decide +kernel),
    Outcome.map_eq_error_iff (f := fun _ => ()).1 (by decide +kernel)⟩

end Playbook.Library
