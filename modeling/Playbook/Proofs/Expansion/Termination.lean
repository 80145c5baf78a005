import Playbook.Proofs.Expansion.Calls

/-!
# Expansion ends

Whatever the files of a library refer to, themselves and each other included, expansion ends: the
chain of each call holds different files, so the calls are nested no deeper than there are files
that hold commands.  `Library.HoldsAtMost` bounds their number, and any larger bound on the nesting
gives the same outcome, whatever is answered where it is used up (`Call.Follows.run_eq`).

`Shelf.expansion_ends` says this for a library held in memory, in terms of the number of its files.
-/

namespace Playbook

open Expansion Relation

namespace Library

variable {lib : Library} {n bound bound' : Nat} {exhausted exhausted' : List Path → Path → Includer}

/-- No more than the given number of normalized paths hold commands. -/
def HoldsAtMost (lib : Library) (n : Nat) : Prop :=
  ∀ paths : List Path, paths.Nodup →
    (∀ p ∈ paths, p.normalize = p ∧ ∃ c, lib.command p = .ok c) → paths.length ≤ n

theorem Bounded.holdsAtMost (hb : lib.Bounded) : lib.HoldsAtMost lib.capacity :=
  fun _ hnodup hall => hb.length_le hnodup hall

namespace Call

variable {call : Call} {IsRoot : Path → Prop}

theorem Follows.length_le (h : call.Follows lib IsRoot) (hn : lib.HoldsAtMost n) :
    call.chain.length ≤ n :=
  hn _ h.nodup h.holds

theorem length_of_makes {next : Call} (h : lib.Makes call next) :
    next.chain.length = call.chain.length + 1 := by
  cases h
  simp

/-- Bounds that exceed the number of files, together with the length of the chain, are never used
up: they give the same outcome. -/
theorem Follows.run_eq (hn : lib.HoldsAtMost n) (h : call.Follows lib IsRoot)
    (hb : n < bound + call.chain.length) (hb' : n < bound' + call.chain.length) :
    call.run lib exhausted bound = call.run lib exhausted' bound' := by
  induction bound generalizing bound' call with
  | zero =>
    have := h.length_le hn
    omega
  | succ bound ih =>
    cases bound' with
    | zero =>
      have := h.length_le hn
      omega
    | succ bound' =>
      refine run_congr fun next hnext => ?_
      -- the bounds fall by one and the chain grows by one
      have hlength := length_of_makes hnext
      exact ih (h.makes hnext) (by omega) (by omega)

end Call

/-- The calls that expansions start with. -/
inductive Starts (lib : Library) : Call → Prop
  | command (c : Command) (directory : Path) : Starts lib (.ofCommand c directory)
  | file (path : Path) {c : Command} (hc : lib.command path.normalize = .ok c) :
      Starts lib (.ofFile path.normalize c)

theorem Starts.exists_follows {start : Call} (h : lib.Starts start) :
    ∃ IsRoot, start.Follows lib IsRoot := by
  cases h with
  | command c directory => exact ⟨_, Call.follows_ofCommand c directory⟩
  | file path hc => exact ⟨_, Call.follows_ofFile (Path.normalize_normalize path) hc⟩

/-- A bound above the number of files gives the expansion of a command. -/
theorem expandWithin_eq (hn : lib.HoldsAtMost n) (hcapacity : n ≤ lib.capacity) (hb : n < bound)
    (c : Command) (directory : Path) :
    lib.expandWithin exhausted bound c directory = lib.expand c directory := by
  have hrun : (Call.ofCommand c directory).run lib exhausted bound =
      (Call.ofCommand c directory).run lib missing (lib.capacity + 1) :=
    (Call.follows_ofCommand c directory).run_eq hn (by omega) (by omega)
  rw [expand_eq_expandWithin, expandWithin, hrun]
  rfl

/-- A bound above the number of files gives the expansion of a command file. -/
theorem expandFileWithin_eq (hn : lib.HoldsAtMost n) (hcapacity : n ≤ lib.capacity)
    (hb : n < bound) (path : Path) :
    lib.expandFileWithin exhausted bound path = lib.expandFile path := by
  rw [expandFile_eq_expandFileWithin, expandFileWithin, expandFileWithin]
  cases hc : lib.command path.normalize with
  | error e => rfl
  | ok c =>
    have hfollows := Call.follows_ofFile (Path.normalize_normalize path) hc
    have hrun : (Call.ofFile path.normalize c).run lib exhausted bound =
        (Call.ofFile path.normalize c).run lib missing (lib.capacity + 1) :=
      hfollows.run_eq hn (by omega) (by omega)
    show Except.map _ _ = Except.map _ _
    rw [hrun]

end Library

namespace Shelf

open Library

/-- The paths at which a shelf holds commands are no more than its files. -/
theorem holdsAtMost_library (shelf : Shelf) (failing : List (Path × DiskFault)) :
    (shelf.library failing).HoldsAtMost shelf.files.length := by
  intro paths hnodup hall
  have hsub : paths ⊆ shelf.files.map Prod.fst := by
    intro p hp
    obtain ⟨hnorm, c, hc⟩ := hall p hp
    obtain ⟨source, hsource, -⟩ := command_eq_ok_iff.1 hc
    exact mem_files_of_fetch hnorm hsource
  have hle := (List.subperm_of_subset hnodup hsub).length_le
  rwa [List.length_map] at hle

/-- Expansion from a shelf ends.  The chain of every call that it leads to holds different files of
the shelf under their normalized paths, and so no more than there are.  What a call gives depends on
the calls that it makes and on nothing else, and the outcome is the same within any bound above the
number of files, whatever is answered where that bound is used up. -/
theorem expansion_ends (shelf : Shelf) (failing : List (Path × DiskFault)) :
    (∀ start call, (shelf.library failing).Starts start →
      ReflTransGen (shelf.library failing).Makes start call →
        call.chain.Nodup ∧
          (∀ p ∈ call.chain, p.normalize = p ∧ p ∈ shelf.files.map Prod.fst) ∧
          call.chain.length ≤ shelf.files.length) ∧
    (∀ call exhausted exhausted' bound bound',
      (∀ next, (shelf.library failing).Makes call next →
        next.run (shelf.library failing) exhausted bound =
          next.run (shelf.library failing) exhausted' bound') →
      call.run (shelf.library failing) exhausted (bound + 1) =
        call.run (shelf.library failing) exhausted' (bound' + 1)) ∧
    ∀ exhausted bound, shelf.files.length < bound →
      (∀ c directory, (shelf.library failing).expandWithin exhausted bound c directory =
        (shelf.library failing).expand c directory) ∧
      ∀ path, (shelf.library failing).expandFileWithin exhausted bound path =
        (shelf.library failing).expandFile path := by
  have hn := shelf.holdsAtMost_library failing
  have hcapacity : shelf.files.length ≤ (shelf.library failing).capacity :=
    Nat.le_add_right _ _
  refine ⟨?_, fun call exhausted exhausted' bound bound' => Call.run_congr, ?_⟩
  · intro start call hstart hleads
    obtain ⟨IsRoot, hfollows⟩ := hstart.exists_follows
    have hcall := hfollows.leads hleads
    refine ⟨hcall.nodup, fun p hp => ?_, hcall.length_le hn⟩
    obtain ⟨hnorm, c, hc⟩ := hcall.holds p hp
    obtain ⟨source, hsource, -⟩ := command_eq_ok_iff.1 hc
    exact ⟨hnorm, mem_files_of_fetch hnorm hsource⟩
  · intro exhausted bound hbound
    exact ⟨expandWithin_eq hn hcapacity hbound, expandFileWithin_eq hn hcapacity hbound⟩

/-- A shelf on which one file refers to itself and to another one, which refers back. -/
def entangled : Shelf :=
  (Shelf.empty.insert ⟨"a"⟩
    "command a \x7b\nif (x) \x7b\ntask(\"d/b\")\n\x7d\ntask(\"d/../a\")\n\x7d").insert
    ⟨"./d/b"⟩ "command b \x7b\ntask(\"../a\")\n\x7d"

/-- Two files, and never more than two on a chain. -/
theorem expansion_ends_entangled :
    entangled.files.length = 2 ∧
      (entangled.library []).expandFileWithin (fun _ _ _ => .ok ⟨"", []⟩) 3 ⟨"./a"⟩ =
        (entangled.library []).expandFile ⟨"./a"⟩ ∧
      ∀ c directory call,
        ReflTransGen (entangled.library []).Makes (.ofCommand c directory) call →
          call.chain.length ≤ 2 :=
  ⟨by decide +kernel, ((expansion_ends entangled []).2.2 _ 3 (by decide +kernel)).2 _,
    fun c directory call h => ((expansion_ends entangled []).1 _ call (.command c directory) h).2.2⟩

end Shelf

end Playbook
