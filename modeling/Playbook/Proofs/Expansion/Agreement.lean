import Playbook.Proofs.Expansion.Errors

/-!
# Libraries that agree

What a file expands to depends on the files that it reaches and on nothing else.  Two libraries in
which these hold the same give the same outcome, the same error included, however much their
capacities differ: within one bound on the nesting every call has the same outcome in both, and an
expansion that ends within the capacity gives the same within every larger bound.
-/

namespace Playbook.Library

open Expansion

variable {lib lib' : Library} {exhausted : List Path → Path → Includer} {bound : Nat}

/-- The two libraries give the same for everything that a path reaches in the first one. -/
def AgreeFrom (lib lib' : Library) (path : Path) : Prop :=
  ∀ q, lib.Reaches path q → lib.fetch q = lib'.fetch q

theorem AgreeFrom.command_eq {path : Path} (h : lib.AgreeFrom lib' path) :
    lib.command path = lib'.command path := by
  rw [command, command, h path .refl]

theorem AgreeFrom.of_refers {a b : Path} (h : lib.AgreeFrom lib' a) (hab : lib.Refers a b) :
    lib.AgreeFrom lib' b :=
  fun q hq => h q (.head hab hq)

/-- A call has the same outcome in both libraries if they agree from all that its statements
name. -/
theorem Call.run_eq_of_agreeFrom {call : Call}
    (h : ∀ file, call.Names file → lib.AgreeFrom lib' (target call.directory file)) :
    call.run lib exhausted bound = call.run lib' exhausted bound := by
  induction bound generalizing call with
  | zero => rfl
  | succ bound ih =>
    refine expandStatements_congr fun file hf => ?_
    have hfile : call.Names file := Command.mem_references_iff (c := ⟨"", call.body⟩).1 hf
    have hagree := h file hfile
    rw [inclusionOr_succ, inclusionOr_succ, ← hagree.command_eq]
    generalize target call.directory file = path at hagree ⊢
    by_cases hmem : path ∈ call.chain
    · simp [hmem]
    · cases hc : lib.command path with
      | error e => rfl
      | ok c =>
        -- the references of the included file start from that file
        have hrun : (call.enter path c).run lib exhausted bound =
            (call.enter path c).run lib' exhausted bound :=
          ih fun inner hinner => hagree.of_refers ⟨c, inner, hc, hinner, rfl⟩
        rw [if_neg hmem, if_neg hmem]
        show Except.map _ _ = Except.map _ _
        rw [hrun]

theorem AgreeFrom.expandFileWithin_eq {path : Path} (h : lib.AgreeFrom lib' path.normalize) :
    lib.expandFileWithin exhausted bound path = lib'.expandFileWithin exhausted bound path := by
  rw [expandFileWithin, expandFileWithin, ← h.command_eq]
  cases hc : lib.command path.normalize with
  | error e => rfl
  | ok c =>
    have hrun : (Call.ofFile path.normalize c).run lib exhausted bound =
        (Call.ofFile path.normalize c).run lib' exhausted bound :=
      Call.run_eq_of_agreeFrom fun file hfile => h.of_refers ⟨c, file, hc, hfile, rfl⟩
    show Except.map _ _ = Except.map _ _
    rw [hrun]

/-! ### Larger bounds -/

/-- To include files within a larger bound is to go on, where the smaller one is used up, with what
is left. -/
theorem inclusionOr_add (more : Nat) (chain : List Path) (directory : Path) (file : String) :
    lib.inclusionOr exhausted (bound + more) chain directory file =
      lib.inclusionOr (lib.inclusionOr exhausted more) bound chain directory file := by
  induction bound generalizing chain directory file with
  | zero => rw [Nat.zero_add, inclusionOr]
  | succ bound ih =>
    have hsame : lib.inclusionOr exhausted (bound + more) =
        lib.inclusionOr (lib.inclusionOr exhausted more) bound := by
      funext chain directory file
      exact ih chain directory file
    rw [Nat.add_right_comm, inclusionOr, inclusionOr, hsame]

theorem expandFileWithin_add (more : Nat) (path : Path) :
    lib.expandFileWithin exhausted (bound + more) path =
      lib.expandFileWithin (lib.inclusionOr exhausted more) bound path := by
  have hsame : lib.inclusionOr exhausted (bound + more) =
      lib.inclusionOr (lib.inclusionOr exhausted more) bound := by
    funext chain directory file
    exact inclusionOr_add more chain directory file
  simp only [expandFileWithin, Call.run, hsame]

/-- An expansion that ends within the capacity gives the same within every larger bound. -/
theorem EndsFile.expandFileWithin_eq {path : Path} (h : lib.EndsFile path)
    (hbound : lib.capacity < bound) : lib.expandFileWithin exhausted bound path =
      lib.expandFile path := by
  obtain ⟨more, rfl⟩ : ∃ more, bound = lib.capacity + 1 + more := Nat.exists_eq_add_of_le hbound
  rw [expandFileWithin_add]
  exact h _

/-- A file expands alike, with the same result or the same error, in libraries that agree on what it
reaches, if it comes to an end there. -/
theorem AgreeFrom.expandFile_eq_of_endsFile {path : Path} (h : lib.AgreeFrom lib' path.normalize)
    (hends : lib.EndsFile path) (hends' : lib'.EndsFile path) :
    lib.expandFile path = lib'.expandFile path := by
  let bound := max lib.capacity lib'.capacity + 1
  calc lib.expandFile path
    _ = lib.expandFileWithin missing bound path := (hends.expandFileWithin_eq (by omega)).symm
    _ = lib'.expandFileWithin missing bound path := h.expandFileWithin_eq
    _ = lib'.expandFile path := hends'.expandFileWithin_eq (by omega)

theorem AgreeFrom.expandFile_eq (hb : lib.Bounded) (hb' : lib'.Bounded) {path : Path}
    (h : lib.AgreeFrom lib' path.normalize) : lib.expandFile path = lib'.expandFile path :=
  h.expandFile_eq_of_endsFile (hb.endsFile path) (hb'.endsFile path)

end Playbook.Library
