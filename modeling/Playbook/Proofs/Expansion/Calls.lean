import Mathlib.Data.List.Chain
import Playbook.Proofs.Expansion.Graph

/-!
# The calls of an expansion

Expanding statements calls itself for the statements of every file that is included, with that file
at the end of the chain.  `Call` is what such a call is given, and `Library.Makes` says which calls
a call makes: one for each file that its statements name, is not on the chain and holds a command.
The outcome of a call depends on nothing but the outcomes of these (`Call.run_congr`), and an error
of a call is an error that arises at some call it leads to (`Call.exists_raises_of_run`).

Every call that expansion leads to has a chain of different files, each referring to the next
(`Call.Follows`).  So the calls are nested no deeper than there are files, and a bound above their
number is never used up: `Call.run` may answer anything in that case.
-/

namespace Playbook

open Relation

namespace Library

open Expansion

/-! ### Calls -/

/-- What a call of the expansion is given: the chain of files that leads to it, the directory that
references start from, and the statements to expand. -/
structure Call where
  chain : List Path
  directory : Path
  body : List Statement

namespace Call

/-- The call for the statements of a command whose references start from the given directory. -/
def ofCommand (c : Command) (directory : Path) : Call := ⟨[], directory, c.body⟩

/-- The call for the command in the file at a path, which is itself the first of the chain. -/
def ofFile (path : Path) (c : Command) : Call := ⟨[path], path.directory, c.body⟩

/-- A task at some depth of the statements of a call names the given file. -/
def Names (file : String) (call : Call) : Prop := ∃ s ∈ call.body, s.Names file

/-- The call for the command in the file at a path, at the end of the chain of another call. -/
def enter (call : Call) (path : Path) (c : Command) : Call :=
  ⟨call.chain ++ [path], path.directory, c.body⟩

@[simp] theorem enter_chain (call : Call) (path : Path) (c : Command) :
    (call.enter path c).chain = call.chain ++ [path] := rfl

@[simp] theorem enter_directory (call : Call) (path : Path) (c : Command) :
    (call.enter path c).directory = path.directory := rfl

@[simp] theorem enter_body (call : Call) (path : Path) (c : Command) :
    (call.enter path c).body = c.body := rfl

end Call

variable (lib : Library)

/-- One call makes another: for a file that its statements name, unless that file is on the chain or
holds no command. -/
inductive Makes : Call → Call → Prop
  | intro {call : Call} {file : String} {c : Command} (hfile : call.Names file)
      (hnew : target call.directory file ∉ call.chain)
      (hc : lib.command (target call.directory file) = .ok c) :
      Makes call (call.enter (target call.directory file) c)

/-- Includes files as `inclusion` does, but answers as it is told once the bound is used up. -/
def inclusionOr (exhausted : List Path → Path → Includer) : Nat → List Path → Path → Includer
  | 0, chain, directory, file => exhausted chain directory file
  | bound + 1, chain, directory, file =>
    let path := target directory file
    if path ∈ chain then .error (.circular file (chain ++ [path]))
    else do
      let found ← lib.command path
      let body ← expandStatements
        (inclusionOr exhausted bound (chain ++ [path]) path.directory) found.body
      .ok ⟨found.name, body⟩

/-- The outcome of a call, within a bound on the number of files that may still join the chain. -/
def Call.run (exhausted : List Path → Path → Includer) (bound : Nat) (call : Call) :
    Except ExpansionError (List Statement) :=
  expandStatements (lib.inclusionOr exhausted bound call.chain call.directory) call.body

/-- Expands a command as `expand` does, within the given bound. -/
def expandWithin (exhausted : List Path → Path → Includer) (bound : Nat) (c : Command)
    (directory : Path) : Except ExpansionError Command :=
  ((Call.ofCommand c directory).run lib exhausted bound).map (Command.mk c.name)

/-- Expands a command file as `expandFile` does, within the given bound. -/
def expandFileWithin (exhausted : List Path → Path → Includer) (bound : Nat) (path : Path) :
    Except ExpansionError Command := do
  let c ← lib.command path.normalize
  ((Call.ofFile path.normalize c).run lib exhausted bound).map (Command.mk c.name)

/-- What `inclusion` answers once its bound is used up. -/
def missing (_ : List Path) (directory : Path) : Includer :=
  fun file => .error (.notFound (target directory file))

variable {lib}

theorem inclusion_eq_inclusionOr (bound : Nat) (chain : List Path) (directory : Path)
    (file : String) :
    lib.inclusion bound chain directory file =
      lib.inclusionOr missing bound chain directory file := by
  induction bound generalizing chain directory file with
  | zero => rfl
  | succ bound ih =>
    have hsame : lib.inclusion bound = lib.inclusionOr missing bound := by
      funext chain directory file
      exact ih chain directory file
    rw [inclusion, inclusionOr, hsame]

theorem expand_eq_expandWithin (c : Command) (directory : Path) :
    lib.expand c directory = lib.expandWithin missing (lib.capacity + 1) c directory := by
  have hsame : lib.inclusion (lib.capacity + 1) [] directory =
      lib.inclusionOr missing (lib.capacity + 1) [] directory :=
    funext (inclusion_eq_inclusionOr _ _ _)
  rw [expand, hsame]
  rfl

theorem expandFile_eq_expandFileWithin (path : Path) :
    lib.expandFile path = lib.expandFileWithin missing (lib.capacity + 1) path := by
  have hsame : lib.inclusion (lib.capacity + 1) [path.normalize] path.normalize.directory =
      lib.inclusionOr missing (lib.capacity + 1) [path.normalize] path.normalize.directory :=
    funext (inclusion_eq_inclusionOr _ _ _)
  rw [expandFile, hsame]
  rfl

/-! ### What a call depends on -/

variable {exhausted exhausted' : List Path → Path → Includer} {bound bound' : Nat} {call : Call}
  {e : ExpansionError}

/-- One step of an inclusion, in terms of the call that it makes. -/
theorem inclusionOr_succ (call : Call) (file : String) :
    lib.inclusionOr exhausted (bound + 1) call.chain call.directory file =
      if target call.directory file ∈ call.chain then
        .error (.circular file (call.chain ++ [target call.directory file]))
      else lib.command (target call.directory file) >>= fun c =>
        ((call.enter (target call.directory file) c).run lib exhausted bound).map
          (Inclusion.mk c.name) := by
  rw [inclusionOr]
  -- where the reference leads does not matter
  generalize target call.directory file = path
  split
  · rfl
  · cases lib.command path with
    | error e => rfl
    | ok c => exact Outcome.bind_ok_eq_map

/-- The outcome of a call depends on nothing but the outcomes of the calls that it makes. -/
theorem Call.run_congr
    (h : ∀ next, lib.Makes call next →
      next.run lib exhausted bound = next.run lib exhausted' bound') :
    call.run lib exhausted (bound + 1) = call.run lib exhausted' (bound' + 1) := by
  refine expandStatements_congr fun file hf => ?_
  have hfile : call.Names file := Command.mem_references_iff (c := ⟨"", call.body⟩).1 hf
  rw [inclusionOr_succ, inclusionOr_succ]
  split
  · rfl
  · next hnew =>
    cases hc : lib.command (target call.directory file) with
    | error e => rfl
    | ok c =>
      show Except.map _ _ = Except.map _ _
      rw [h _ (.intro hfile hnew hc)]

variable (lib) in
/-- An error arises at a call: a file that its statements name is on the chain already, or it holds
no command. -/
inductive Raises (call : Call) : ExpansionError → Prop
  | circular {file : String} (hfile : call.Names file)
      (hmem : target call.directory file ∈ call.chain) :
      Raises call (.circular file (call.chain ++ [target call.directory file]))
  | command {file : String} {e : ExpansionError} (hfile : call.Names file)
      (he : lib.command (target call.directory file) = .error e) : Raises call e

/-- An error of a call arises at some call that it leads to, unless the bound is used up. -/
theorem Call.exists_raises_of_run (hrun : call.run lib exhausted bound = .error e)
    (hne : ∀ chain directory file, exhausted chain directory file ≠ .error e) :
    ∃ origin, ReflTransGen lib.Makes call origin ∧ lib.Raises origin e := by
  induction bound generalizing call with
  | zero =>
    obtain ⟨s, -, file, -, he⟩ := expandStatements_error hrun
    exact absurd he (hne _ _ _)
  | succ bound ih =>
    obtain ⟨s, hs, file, hnames, he⟩ := expandStatements_error hrun
    have hfile : call.Names file := ⟨s, hs, hnames⟩
    rw [inclusionOr_succ] at he
    split at he
    · next hmem =>
      cases he
      exact ⟨call, .refl, .circular hfile hmem⟩
    · next hnew =>
      rcases Outcome.bind_eq_error_iff.1 he with he | ⟨c, hc, he⟩
      · exact ⟨call, .refl, .command hfile he⟩
      · obtain ⟨origin, hleads, hraises⟩ := ih (Outcome.map_eq_error_iff.1 he)
        exact ⟨origin, .head (.intro hfile hnew hc) hleads, hraises⟩

/-! ### The chain of a call -/

/-- The chain of a call is a way along references: it starts at a root, repeats no file, and ends
with the file whose statements the call expands.  A call with an empty chain expands statements that
refer to roots. -/
structure Call.Follows (lib : Library) (IsRoot : Path → Prop) (call : Call) : Prop where
  nodup : call.chain.Nodup
  holds : ∀ p ∈ call.chain, p.normalize = p ∧ ∃ c, lib.command p = .ok c
  linked : call.chain.IsChain lib.Refers
  starts : ∀ first ∈ call.chain.head?, IsRoot first
  opens : call.chain = [] → ∀ file, call.Names file → IsRoot (target call.directory file)
  ends : ∀ last ∈ call.chain.getLast?, call.directory = last.directory ∧
    ∃ c, lib.command last = .ok c ∧ c.body = call.body

namespace Call

variable {IsRoot : Path → Prop} {file : String}

/-- What the statements of a call name is referred to by the last file of its chain. -/
theorem Follows.exists_names (h : call.Follows lib IsRoot) (hfile : call.Names file) {last : Path}
    (hlast : last ∈ call.chain.getLast?) :
    ∃ c, lib.command last = .ok c ∧ c.Names file ∧
      target call.directory file = target last.directory file := by
  obtain ⟨hdirectory, c, hc, hbody⟩ := h.ends last hlast
  refine ⟨c, hc, ?_, by rw [hdirectory]⟩
  rw [Command.Names, hbody]
  exact hfile

/-- The chain of a call can be continued by what its statements name. -/
theorem Follows.linked_append (h : call.Follows lib IsRoot) (hfile : call.Names file) :
    (call.chain ++ [target call.directory file]).IsChain lib.Refers := by
  refine List.isChain_append.2 ⟨h.linked, List.isChain_singleton _, ?_⟩
  intro last hlast next hnext
  obtain rfl : target call.directory file = next := Option.some.inj hnext
  obtain ⟨c, hc, hnames, htarget⟩ := h.exists_names hfile hlast
  exact ⟨c, file, hc, hnames, htarget⟩

theorem Follows.starts_append (h : call.Follows lib IsRoot) (hfile : call.Names file) :
    ∀ first ∈ (call.chain ++ [target call.directory file]).head?, IsRoot first := by
  intro first hfirst
  cases hchain : call.chain with
  | nil =>
    rw [hchain] at hfirst
    obtain rfl : target call.directory file = first := Option.some.inj hfirst
    exact h.opens hchain file hfile
  | cons start rest =>
    rw [hchain] at hfirst
    refine h.starts first ?_
    rw [hchain]
    exact hfirst

/-- What a call keeps when it makes another one. -/
theorem Follows.makes {next : Call} (h : call.Follows lib IsRoot) (hnext : lib.Makes call next) :
    next.Follows lib IsRoot := by
  cases hnext with
  | @intro file c hfile hnew hc =>
    constructor
    · refine List.nodup_append.2 ⟨h.nodup, List.nodup_singleton _, ?_⟩
      rintro a ha b hb rfl
      exact hnew (List.mem_singleton.1 hb ▸ ha)
    · refine List.forall_mem_append.2 ⟨h.holds, List.forall_mem_singleton.2 ?_⟩
      exact ⟨normalize_target _ _, c, hc⟩
    · exact h.linked_append hfile
    · exact h.starts_append hfile
    · intro hnil
      simp at hnil
    · intro last hlast
      obtain rfl : target call.directory file = last := by simpa using hlast
      exact ⟨enter_directory .., c, hc, (enter_body ..).symm⟩

/-- What holds of the first call holds of every call that it leads to. -/
theorem Follows.leads {next : Call} (h : call.Follows lib IsRoot)
    (hnext : ReflTransGen lib.Makes call next) : next.Follows lib IsRoot := by
  induction hnext with
  | refl => exact h
  | tail _ hmakes ih => exact ih.makes hmakes

theorem follows_ofCommand (c : Command) (directory : Path) :
    (ofCommand c directory).Follows lib
      fun root => ∃ file, c.Names file ∧ root = target directory file where
  nodup := List.nodup_nil
  holds := by simp [ofCommand]
  linked := List.isChain_nil
  starts := by simp [ofCommand]
  opens := fun _ file hfile => ⟨file, hfile, rfl⟩
  ends := by simp [ofCommand]

theorem follows_ofFile {path : Path} (hnorm : path.normalize = path) {c : Command}
    (hc : lib.command path = .ok c) : (ofFile path c).Follows lib (· = path) where
  nodup := List.nodup_singleton path
  holds := List.forall_mem_singleton.2 ⟨hnorm, c, hc⟩
  linked := List.isChain_singleton path
  starts := by simp [ofFile]
  opens := fun hnil => absurd hnil (List.cons_ne_nil _ _)
  ends := by simp [ofFile, hc]

/-- What the statements of a call name is reached from a root. -/
theorem Follows.reaches (h : call.Follows lib IsRoot) (hfile : call.Names file) :
    ∃ root, IsRoot root ∧ lib.Reaches root (target call.directory file) := by
  have hne : call.chain ++ [target call.directory file] ≠ [] := by simp
  refine ⟨(call.chain ++ [target call.directory file]).head hne,
    h.starts_append hfile _ (List.head_mem_head? hne), ?_⟩
  have hreaches := List.relationReflTransGen_of_exists_isChain _ (h.linked_append hfile) hne
  rwa [List.getLast_concat] at hreaches

end Call

end Library

end Playbook
