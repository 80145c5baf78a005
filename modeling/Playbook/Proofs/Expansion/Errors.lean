import Playbook.Proofs.Expansion.Termination

/-!
# What the errors of an expansion say

An expansion that fails does so for a reason that can be checked in the library.  A circular chain
leads from a root along references, each of them in the file before it, and its last reference leads
back to a file on the chain; the other errors name a file that a root reaches, and say of it what
fetching and reading it gives (`Library.Justifies`).

An error arises at some call of the expansion, and the chain of that call is the evidence.  This is
so in every library in which the expansion ends by itself and not because the capacity is used up;
in a library with a bound on its files it always does (`Library.Bounded.ends`).
-/

namespace Playbook.Library

open Expansion

variable (lib : Library)

/-- The expansion of a command comes to its end: the outcome does not depend on what is answered
where the capacity is used up. -/
def Ends (c : Command) (directory : Path) : Prop :=
  ∀ exhausted, lib.expandWithin exhausted (lib.capacity + 1) c directory = lib.expand c directory

/-- The expansion of a command file comes to its end. -/
def EndsFile (path : Path) : Prop :=
  ∀ exhausted, lib.expandFileWithin exhausted (lib.capacity + 1) path = lib.expandFile path

theorem Bounded.ends {lib : Library} (hb : lib.Bounded) (c : Command) (directory : Path) :
    lib.Ends c directory :=
  fun _ => expandWithin_eq hb.holdsAtMost le_rfl (Nat.lt_succ_self _) c directory

theorem Bounded.endsFile {lib : Library} (hb : lib.Bounded) (path : Path) : lib.EndsFile path :=
  fun _ => expandFileWithin_eq hb.holdsAtMost le_rfl (Nat.lt_succ_self _) path

/-- A normalized path that references lead to from some root. -/
def IsMet (IsRoot : Path → Prop) (path : Path) : Prop :=
  path.normalize = path ∧ ∃ root, IsRoot root ∧ lib.Reaches root path

/-- What an error says about a library and the roots that an expansion started from. -/
def Justifies (IsRoot : Path → Prop) : ExpansionError → Prop
  | .circular file chain =>
    ∃ links repeated, chain = links ++ [repeated] ∧ links.Nodup ∧ repeated ∈ links ∧
      (∃ root ∈ links.head?, IsRoot root) ∧ chain.IsChain lib.Refers ∧
      ∃ last ∈ links.getLast?, ∃ c, lib.command last = .ok c ∧ c.Names file ∧
        repeated = target last.directory file
  | .notFound path => lib.IsMet IsRoot path ∧ lib.fetch path = .missing
  | .unreadable path fault => lib.IsMet IsRoot path ∧ lib.fetch path = .failed fault
  | .defective path defect => lib.IsMet IsRoot path ∧
    ∃ source, lib.fetch path = .text source ∧ Command.parse source = .error defect

variable {lib} {IsRoot : Path → Prop} {e : ExpansionError}

/-- A path without a command is named by the error, with what is wrong about it. -/
theorem IsMet.justifies {path : Path} (h : lib.IsMet IsRoot path)
    (he : lib.command path = .error e) : lib.Justifies IsRoot e := by
  unfold command at he
  cases hfetch : lib.fetch path with
  | missing =>
    rw [hfetch] at he
    cases he
    exact ⟨h, hfetch⟩
  | failed fault =>
    rw [hfetch] at he
    cases he
    exact ⟨h, hfetch⟩
  | text source =>
    rw [hfetch] at he
    dsimp only at he
    cases hparse : Command.parse source with
    | ok c =>
      rw [hparse] at he
      cases he
    | error defect =>
      rw [hparse] at he
      cases he
      exact ⟨h, source, hfetch, hparse⟩

namespace Call

variable {call : Call}

/-- The chain of a call justifies the errors that arise there. -/
theorem Follows.justifies (h : call.Follows lib IsRoot) (he : lib.Raises call e) :
    lib.Justifies IsRoot e := by
  cases he with
  | @circular file hfile hmem =>
    have hne : call.chain ≠ [] := List.ne_nil_of_mem hmem
    have hlast := List.getLast_mem_getLast? hne
    obtain ⟨c, hc, hnames, htarget⟩ := h.exists_names hfile hlast
    refine ⟨call.chain, _, rfl, h.nodup, hmem, ?_, h.linked_append hfile, _, hlast, c, hc, hnames,
      htarget⟩
    exact ⟨_, List.head_mem_head? hne, h.starts _ (List.head_mem_head? hne)⟩
  | @command file _ hfile he =>
    exact IsMet.justifies ⟨normalize_target _ _, h.reaches hfile⟩ he

/-- An error of a call whose chain starts at a root is justified, unless the bound is used up. -/
theorem Follows.justifies_of_run (h : call.Follows lib IsRoot) {bound : Nat}
    (he : call.run lib (fun _ _ _ => .ok ⟨"", []⟩) bound = .error e) : lib.Justifies IsRoot e := by
  obtain ⟨origin, hleads, hraises⟩ := exists_raises_of_run he fun _ _ _ => nofun
  exact (h.leads hleads).justifies hraises

end Call

theorem justifies_of_expand {c : Command} {directory : Path} (hends : lib.Ends c directory)
    (he : lib.expand c directory = .error e) :
    lib.Justifies (fun root => ∃ file, c.Names file ∧ root = target directory file) e := by
  rw [← hends fun _ _ _ => .ok ⟨"", []⟩, expandWithin] at he
  exact (Call.follows_ofCommand c directory).justifies_of_run (Outcome.map_eq_error_iff.1 he)

theorem justifies_of_expandFile {path : Path} (hends : lib.EndsFile path)
    (he : lib.expandFile path = .error e) : lib.Justifies (· = path.normalize) e := by
  rw [← hends fun _ _ _ => .ok ⟨"", []⟩, expandFileWithin] at he
  have hnorm := Path.normalize_normalize path
  rcases Outcome.bind_eq_error_iff.1 he with he | ⟨c, hc, he⟩
  · -- the file itself cannot be taken in
    exact IsMet.justifies ⟨hnorm, path.normalize, rfl, .refl⟩ he
  · exact (Call.follows_ofFile hnorm hc).justifies_of_run (Outcome.map_eq_error_iff.1 he)

/-- Every error of an expansion is justified by the files that references lead to: from those that
the command names, or from the file itself. -/
theorem error_justified (lib : Library) :
    (∀ c directory e, lib.Ends c directory → lib.expand c directory = .error e →
      lib.Justifies (fun root => ∃ file, c.Names file ∧ root = target directory file) e) ∧
    ∀ path e, lib.EndsFile path → lib.expandFile path = .error e →
      lib.Justifies (· = path.normalize) e :=
  ⟨fun _ _ _ => justifies_of_expand, fun _ _ => justifies_of_expandFile⟩

/-- A shelf on which a file leads to two others that refer to each other. -/
def winding : Shelf :=
  ((Shelf.empty.insert ⟨"m"⟩ "command m \x7b\ntask(\"x/a\")\n\x7d").insert
    ⟨"x/a"⟩ "command a \x7b\nif (y) \x7b\ntask(\"b\")\n\x7d\n\x7d").insert
    ⟨"x/b"⟩ "command b \x7b\ntask(\"../x/./a\")\n\x7d"

/-- The cycle starts in the middle of the chain, and a command can name a file that is not there. -/
theorem error_justified_winding :
    (winding.library []).Bounded ∧
      (winding.library []).expandFile ⟨"./m"⟩ =
        .error (.circular "../x/./a" [⟨"m"⟩, ⟨"x/a"⟩, ⟨"x/b"⟩, ⟨"x/a"⟩]) ∧
      (winding.library []).Justifies (· = (Path.mk "./m").normalize)
        (.circular "../x/./a" [⟨"m"⟩, ⟨"x/a"⟩, ⟨"x/b"⟩, ⟨"x/a"⟩]) ∧
      (winding.library []).expand ⟨"c", [.task ⟨"", .general, [], some "../n"⟩]⟩ ⟨"x"⟩ =
        .error (.notFound ⟨"n"⟩) ∧
      (winding.library []).Justifies (fun root => ∃ file,
          (Command.mk "c" [.task ⟨"", .general, [], some "../n"⟩]).Names file ∧
            root = target ⟨"x"⟩ file) (.notFound ⟨"n"⟩) := by
  have hb := winding.bounded_library []
  have hfile : (winding.library []).expandFile ⟨"./m"⟩ =
      .error (.circular "../x/./a" [⟨"m"⟩, ⟨"x/a"⟩, ⟨"x/b"⟩, ⟨"x/a"⟩]) :=
    Outcome.map_eq_error_iff (f := fun _ => ()).1 (by decide +kernel)
  have hcommand : (winding.library []).expand ⟨"c", [.task ⟨"", .general, [], some "../n"⟩]⟩ ⟨"x"⟩ =
      .error (.notFound ⟨"n"⟩) :=
    Outcome.map_eq_error_iff (f := fun _ => ()).1 (by decide +kernel)
  exact ⟨hb, hfile, (error_justified _).2 _ _ (hb.endsFile _) hfile, hcommand,
    (error_justified _).1 _ _ _ (hb.ends _ _) hcommand⟩

end Playbook.Library
