import Playbook.Proofs.Expansion.Graph

/-!
# What is included at a position

A position is a way down a tree: which statement of a body, which of an `else` block, which task of
a parallel block.  Expansion keeps positions, and what it puts in the place of a task that names a
file is the expansion of that file on its own: it does not depend on the chain of files that leads
there, nor on where the task stands.
-/

namespace Playbook

/-! ### Positions -/

/-- A step from a statement to one that stands in it. -/
inductive Descent
  /-- To a statement of its body. -/
  | body (i : Nat)
  /-- To a statement of its `else` block. -/
  | otherwise (i : Nat)
  /-- To one of the tasks that run side by side. -/
  | branch (i : Nat)
  deriving DecidableEq, Repr

/-- The statement that one step leads to. -/
def Statement.child? : Statement → Descent → Option Statement
  | .ifThen _ body, .body i => body[i]?
  | .ifElse _ body _, .body i => body[i]?
  | .ifElse _ _ otherwise, .otherwise i => otherwise[i]?
  | .whileLoop _ body, .body i => body[i]?
  | .forEach _ _ body, .body i => body[i]?
  | .task t, .body i => t.body[i]?
  | .parallel tasks, .branch i => tasks[i]?.map .task
  | _, _ => none

/-- The statement at a position below another one. -/
def Statement.below? (s : Statement) : List Descent → Option Statement
  | [] => some s
  | step :: rest => (s.child? step).bind (·.below? rest)

/-- The statement at a position of a command. -/
def Command.statementAt? (c : Command) (i : Nat) (position : List Descent) : Option Statement :=
  c.body[i]?.bind (·.below? position)

/-- The file that a statement names, if it is a task that does. -/
def Statement.file? : Statement → Option String
  | .task t => t.file
  | _ => none

/-- No task that names a file is passed on the way down to a position. -/
def Statement.Outside (s : Statement) : List Descent → Prop
  | [] => True
  | step :: rest => s.file? = none ∧ ∀ inner, s.child? step = some inner → inner.Outside rest

/-- A position of a command that does not lie inside the body of a task that names a file. -/
def Command.Outside (c : Command) (i : Nat) (position : List Descent) : Prop :=
  ∀ s, c.body[i]? = some s → s.Outside position

namespace Expansion

variable {inc : Includer}

theorem expandStatements_getElem? {body result : List Statement}
    (h : expandStatements inc body = .ok result) {i : Nat} {s : Statement}
    (hs : body[i]? = some s) : ∃ r, result[i]? = some r ∧ expandStatement inc s = .ok r := by
  rw [expandStatements_eq_mapM] at h
  exact Outcome.getElem?_of_mapM h hs

/-- Expanding a statement expands what stands in it, at the same positions. -/
theorem expandStatement_child? {s result : Statement} (h : expandStatement inc s = .ok result)
    (hfile : s.file? = none) {step : Descent} {inner : Statement}
    (hinner : s.child? step = some inner) :
    ∃ r, result.child? step = some r ∧ expandStatement inc inner = .ok r := by
  -- one case for each way down, in the order in which `child?` lists them
  unfold Statement.child? at hinner
  split at hinner
  · obtain ⟨body, hbody, rfl⟩ := Outcome.map_eq_ok_iff.1 h
    exact expandStatements_getElem? hbody hinner
  · rw [expandStatement] at h
    obtain ⟨body, hbody, h⟩ := Outcome.bind_eq_ok_iff.1 h
    obtain ⟨otherwise, -, h⟩ := Outcome.bind_eq_ok_iff.1 h
    cases h
    exact expandStatements_getElem? hbody hinner
  · rw [expandStatement] at h
    obtain ⟨body, -, h⟩ := Outcome.bind_eq_ok_iff.1 h
    obtain ⟨otherwise, hotherwise, h⟩ := Outcome.bind_eq_ok_iff.1 h
    cases h
    exact expandStatements_getElem? hotherwise hinner
  · obtain ⟨body, hbody, rfl⟩ := Outcome.map_eq_ok_iff.1 h
    exact expandStatements_getElem? hbody hinner
  · obtain ⟨body, hbody, rfl⟩ := Outcome.map_eq_ok_iff.1 h
    exact expandStatements_getElem? hbody hinner
  · rw [expandStatement, expandTask_of_inline hfile] at h
    obtain ⟨t, ht, rfl⟩ := Outcome.map_eq_ok_iff.1 h
    obtain ⟨body, hbody, rfl⟩ := Outcome.map_eq_ok_iff.1 ht
    exact expandStatements_getElem? hbody hinner
  · obtain ⟨t, ht, rfl⟩ := Option.map_eq_some_iff.1 hinner
    rw [expandStatement, expandTasks_eq_mapM] at h
    obtain ⟨tasks, htasks, rfl⟩ := Outcome.map_eq_ok_iff.1 h
    obtain ⟨r, hr, hexpand⟩ := Outcome.getElem?_of_mapM htasks ht
    exact ⟨.task r, by simp [Statement.child?, hr], by rw [expandStatement, hexpand]; rfl⟩
  · cases hinner

/-- At the position of a task that names a file stands, after expansion, the task with what the
includer gives for that file. -/
theorem expandStatement_below? {s result : Statement} (h : expandStatement inc s = .ok result)
    {position : List Descent} (hout : s.Outside position) {t : Task}
    (ht : s.below? position = some (.task t)) {file : String} (hfile : t.file = some file) :
    ∃ found, inc file = .ok found ∧ result.below? position =
      some (.task ⟨if t.description.isEmpty then found.name else t.description, t.agent, found.body,
        some file⟩) := by
  induction position generalizing s result with
  | nil =>
    obtain rfl : s = .task t := Option.some.inj ht
    rw [expandStatement, expandTask_of_file hfile] at h
    obtain ⟨r, hr, rfl⟩ := Outcome.map_eq_ok_iff.1 h
    obtain ⟨found, hfound, rfl⟩ := Outcome.map_eq_ok_iff.1 hr
    exact ⟨found, hfound, rfl⟩
  | cons step rest ih =>
    obtain ⟨hnone, hout⟩ := hout
    obtain ⟨inner, hinner, ht⟩ := Option.bind_eq_some_iff.1 ht
    obtain ⟨r, hr, hexpand⟩ := expandStatement_child? h hnone hinner
    obtain ⟨found, hfound, hresult⟩ := ih hexpand (hout inner hinner) ht
    exact ⟨found, hfound, by rw [Statement.below?, hr]; exact hresult⟩

end Expansion

namespace Library

open Expansion

variable {lib : Library}

/-- A file that can be included at the end of a chain can be included, with the same result, at the
end of any chain of fewer files and within any larger bound. -/
theorem inclusion_mono {bound bound' : Nat} {chain chain' : List Path} {directory : Path}
    {file : String} {found : Inclusion} (hbound : bound ≤ bound') (hchain : chain' ⊆ chain)
    (h : lib.inclusion bound chain directory file = .ok found) :
    lib.inclusion bound' chain' directory file = .ok found := by
  induction bound generalizing bound' chain chain' directory file found with
  | zero => cases h
  | succ bound ih =>
    obtain ⟨more, rfl⟩ : ∃ more, bound' = more + 1 := ⟨bound' - 1, by omega⟩
    obtain ⟨hoff, c, hc, hname, hbody⟩ := inclusion_succ_eq_ok_iff.1 h
    refine inclusion_succ_eq_ok_iff.2 ⟨fun hmem => hoff (hchain hmem), c, hc, hname, ?_⟩
    refine expandStatements_mono (fun f _ found' hf => ?_) hbody
    -- both chains grow by the same file
    refine ih (by omega) ?_ hf
    exact List.append_subset.2 ⟨List.subset_append_of_subset_left _ hchain,
      List.subset_append_right _ _⟩

/-- A file that a command includes expands on its own to what was included. -/
theorem expandFile_of_inclusion {bound : Nat} {directory : Path} {file : String}
    {found : Inclusion} (hbound : bound ≤ lib.capacity + 2)
    (h : lib.inclusion bound [] directory file = .ok found) :
    lib.expandFile (target directory file) = .ok ⟨found.name, found.body⟩ := by
  cases bound with
  | zero => cases h
  | succ bound =>
    obtain ⟨-, c, hc, hname, hbody⟩ := inclusion_succ_eq_ok_iff.1 h
    refine expandFile_eq_ok_iff.2 ⟨c, ?_, hname, ?_⟩
    · rw [normalize_target, hc]
    · rw [normalize_target]
      refine expandStatements_mono (fun f _ found' hf => ?_) hbody
      exact inclusion_mono (by omega) (List.Subset.refl _) hf

/-- What stands after expansion in the place of a task that names a file is the expansion of that
file by itself, under the description of the task or, if it has none, the name of the command in the
file. -/
theorem expand_statementAt? (lib : Library) {c result : Command} {directory : Path}
    (h : lib.expand c directory = .ok result) {i : Nat} {position : List Descent}
    (hout : c.Outside i position) {t : Task} (ht : c.statementAt? i position = some (.task t))
    {file : String} (hfile : t.file = some file) :
    ∃ k, lib.expandFile (directory.join ⟨file⟩).normalize = .ok k ∧
      result.statementAt? i position =
        some (.task ⟨if t.description.isEmpty then k.name else t.description, t.agent, k.body,
          some file⟩) := by
  obtain ⟨body, hbody, h⟩ := Outcome.bind_eq_ok_iff.1 h
  obtain rfl := Except.ok.inj h
  obtain ⟨s, hs, ht⟩ := Option.bind_eq_some_iff.1 ht
  obtain ⟨r, hr, hexpand⟩ := expandStatements_getElem? hbody hs
  obtain ⟨found, hfound, hresult⟩ := expandStatement_below? hexpand (hout s hs) ht hfile
  refine ⟨⟨found.name, found.body⟩, expandFile_of_inclusion (by omega) hfound, ?_⟩
  rw [Command.statementAt?, hr]
  exact hresult

/-- A command with a task that names a file inside the `else` block of a parallel task. -/
def nestedTask : Command :=
  ⟨"c", [.stop, .parallel [Task.inline "d" .bash
    [.ifElse "x" [] [.task (Task.fromFile "../l" .plan)]]]]⟩

/-- The file is expanded from its own directory, two levels above the task. -/
theorem expand_statementAt?_nestedTask :
    ∃ result k, (sharedFile.library []).expand nestedTask ⟨"sub"⟩ = .ok result ∧
      (sharedFile.library []).expandFile ((Path.mk "sub").join ⟨"../l"⟩).normalize = .ok k ∧
      result.statementAt? 1 [.branch 0, .body 0, .otherwise 0] =
        some (.task ⟨k.name, .plan, k.body, some "../l"⟩) := by
  obtain ⟨result, h⟩ : ∃ result, (sharedFile.library []).expand nestedTask ⟨"sub"⟩ = .ok result :=
    Outcome.exists_ok_of_isOk (by decide +kernel)
  have hout : nestedTask.Outside 1 [.branch 0, .body 0, .otherwise 0] := by
    intro s hs
    cases hs
    refine ⟨rfl, fun inner h₁ => ?_⟩
    cases h₁
    refine ⟨rfl, fun inner h₂ => ?_⟩
    cases h₂
    exact ⟨rfl, fun inner h₃ => trivial⟩
  have ht : nestedTask.statementAt? 1 [.branch 0, .body 0, .otherwise 0] =
      some (.task (Task.fromFile "../l" .plan)) := rfl
  obtain ⟨k, hk, hr⟩ := expand_statementAt? _ h hout ht rfl
  exact ⟨result, k, h, hk, hr⟩

end Library

end Playbook
