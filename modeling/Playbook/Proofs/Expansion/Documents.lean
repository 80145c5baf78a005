import Playbook.Command.Instructions
import Playbook.Proofs.Expansion.Graph
import Playbook.Proofs.Parser.WellFormed

/-!
# Documents of expanded commands

Once a command is expanded, its document says nothing of the files that were included: it is the
document of the command in which every included one is written out in place.

The file of a task shows in a document only if the task has no description.  Expanding gives a
description to every task with a file, the name of the included command where there is none, and
that name is not empty because it was read.  This holds of the tasks in included files as well, so
it is shown of every inclusion by induction on the number of files that may still join the chain.
-/

namespace Playbook

/-! ### Commands without files -/

mutual

/-- A statement with the files of all tasks in it removed. -/
def Statement.withoutFiles : Statement → Statement
  | .task t => .task (taskWithoutFile t)
  | .parallel tasks => .parallel (tasksWithoutFiles tasks)
  | .ifThen condition body => .ifThen condition (statementsWithoutFiles body)
  | .ifElse condition body otherwise =>
    .ifElse condition (statementsWithoutFiles body) (statementsWithoutFiles otherwise)
  | .whileLoop condition body => .whileLoop condition (statementsWithoutFiles body)
  | .forEach item iterable body => .forEach item iterable (statementsWithoutFiles body)
  | .ask question => .ask question
  | .confirm message => .confirm message
  | .createFile filename content => .createFile filename content
  | .assign name value => .assign name value
  | .call name args => .call name args
  | .stop => .stop
  | .waitForResponse => .waitForResponse
  | .unknown kind => .unknown kind

/-- Statements with the files of all tasks in them removed. -/
def statementsWithoutFiles : List Statement → List Statement
  | [] => []
  | s :: rest => s.withoutFiles :: statementsWithoutFiles rest

/-- A task without its file, and with the files of all tasks in it removed. -/
def taskWithoutFile : TaskOf Statement → TaskOf Statement
  | ⟨description, agent, body, _⟩ => ⟨description, agent, statementsWithoutFiles body, none⟩

/-- Tasks without their files, and with the files of all tasks in them removed. -/
def tasksWithoutFiles : List (TaskOf Statement) → List (TaskOf Statement)
  | [] => []
  | t :: rest => taskWithoutFile t :: tasksWithoutFiles rest

end

/-- A command with the files of all tasks in it removed. -/
def Command.withoutFiles (c : Command) : Command := ⟨c.name, statementsWithoutFiles c.body⟩

theorem statementsWithoutFiles_eq_map (body : List Statement) :
    statementsWithoutFiles body = body.map Statement.withoutFiles := by
  induction body with
  | nil => rfl
  | cons s rest ih => rw [statementsWithoutFiles, ih, List.map_cons]

/-- A task that does not need its file for a description. -/
def Task.IsDescribed (t : Task) : Prop := t.file ≠ none → t.description ≠ ""

/-- A statement that is no task, or one that does not need its file for a description. -/
def Statement.IsDescribed (s : Statement) : Prop := ∀ t, s = .task t → Task.IsDescribed t

theorem Task.IsDescribed.isUnresolved {t : Task} (h : Task.IsDescribed t) :
    Task.isUnresolved t = false := by
  cases hf : t.file with
  | none => simp [Task.isUnresolved, hf]
  | some file =>
    have hd : t.description ≠ "" := h (by simp [hf])
    simp [Task.isUnresolved, hd]

/-! ### Instructions -/

namespace Instructions

theorem ofStatements_withoutFiles {body : List Statement}
    (ih : ∀ s ∈ body, ofStatement s.withoutFiles = ofStatement s) :
    ofStatements (statementsWithoutFiles body) = ofStatements body := by
  rw [statementsWithoutFiles_eq_map, ofStatements_eq_map, ofStatements_eq_map, List.map_map]
  exact List.map_congr_left ih

/-- The file of a task with a description does not show. -/
theorem ofTask_withoutFile {t : Task} (h : Task.IsDescribed t)
    (ih : ∀ s ∈ t.body, ofStatement s.withoutFiles = ofStatement s) :
    ofTask (taskWithoutFile t) = ofTask t := by
  obtain ⟨description, agent, body, file⟩ := t
  rw [taskWithoutFile, ofTask, ofTask, ofStatements_withoutFiles ih]
  cases file with
  | none => rfl
  | some file =>
    have hd : description ≠ "" := h (Option.some_ne_none file)
    simp [title, prompt, hd]

theorem sections_withoutFiles {tasks : List Task} (number : Nat)
    (ih : ∀ t ∈ tasks, ofTask (taskWithoutFile t) = ofTask t) :
    sections number (tasksWithoutFiles tasks) = sections number tasks := by
  induction tasks generalizing number with
  | nil => rfl
  | cons t rest ihr =>
    rw [List.forall_mem_cons] at ih
    show _ ++ ofTask (taskWithoutFile t) ++ sections (number + 1) (tasksWithoutFiles rest) = _
    rw [ih.1, ihr (number + 1) ih.2]
    rfl

theorem length_tasksWithoutFiles (tasks : List Task) :
    (tasksWithoutFiles tasks).length = tasks.length := by
  induction tasks with
  | nil => rfl
  | cons t rest ih => rw [tasksWithoutFiles, List.length_cons, List.length_cons, ih]

/-- If every task has a description of its own, files do not show. -/
theorem ofStatement_withoutFiles {s : Statement} (h : s.Everywhere Statement.IsDescribed) :
    ofStatement s.withoutFiles = ofStatement s := by
  induction s with
  | ifThen condition body ih | whileLoop condition body ih | forEach item iterable body ih =>
    exact congrArg (bulleted _) (ofStatements_withoutFiles fun s hs => ih s hs (h.inside s hs))
  | ifElse condition body otherwise ihb iho =>
    obtain ⟨hbody, hotherwise⟩ := List.forall_mem_append.1 h.inside
    show bulleted _ (ofStatements (statementsWithoutFiles body)) ++ "\n\n".toList ++
      bulleted _ (ofStatements (statementsWithoutFiles otherwise)) = _
    rw [ofStatements_withoutFiles fun s hs => ihb s hs (hbody s hs),
      ofStatements_withoutFiles fun s hs => iho s hs (hotherwise s hs)]
    rfl
  | task t ih =>
    exact ofTask_withoutFile (h.here t rfl) fun s hs => ih s hs (h.inside s hs)
  | parallel tasks ih =>
    have htask : ∀ t ∈ tasks, ofTask (taskWithoutFile t) = ofTask t := by
      intro t ht
      have hin := h.inside _ (List.mem_map_of_mem ht)
      exact ofTask_withoutFile (hin.here t rfl) fun s hs => ih t ht s hs (hin.inside s hs)
    show _ ++ (toString (tasksWithoutFiles tasks).length).toList ++ _ ++
      sections 1 (tasksWithoutFiles tasks) = _
    rw [length_tasksWithoutFiles, sections_withoutFiles 1 htask]
    rfl
  | ask | confirm | createFile | assign | call | stop | waitForResponse | unknown => rfl

end Instructions

theorem Command.Everywhere.compile_withoutFiles {c : Command}
    (h : c.Everywhere Statement.IsDescribed) : c.withoutFiles.compile = c.compile := by
  rw [Command.compile, Command.compile, Command.withoutFiles,
    Instructions.ofStatements_withoutFiles fun s hs =>
      Instructions.ofStatement_withoutFiles (h s hs)]

/-! ### Expansion -/

namespace Expansion

/-- An includer that gives named commands in which every task has a description. -/
def Describes (inc : Includer) : Prop :=
  ∀ ⦃file found⦄, inc file = .ok found →
    found.name ≠ "" ∧ ∀ s ∈ found.body, s.Everywhere Statement.IsDescribed

variable {inc : Includer}

theorem isDescribed_of_expandStatements {body results : List Statement}
    (ih : ∀ s ∈ body, ∀ r, expandStatement inc s = .ok r → r.Everywhere Statement.IsDescribed)
    (h : expandStatements inc body = .ok results) :
    ∀ r ∈ results, r.Everywhere Statement.IsDescribed := by
  rw [expandStatements_eq_mapM] at h
  intro r hr
  obtain ⟨s, hs, hr⟩ := Outcome.exists_mem_of_mapM_eq_ok h r hr
  exact ih s hs r hr

theorem isDescribed_of_expandTask (hinc : Describes inc) {t r : Task}
    (ih : ∀ s ∈ t.body, ∀ r, expandStatement inc s = .ok r → r.Everywhere Statement.IsDescribed)
    (h : expandTask inc t = .ok r) : (Statement.task r).Everywhere Statement.IsDescribed := by
  cases hf : t.file with
  | some file =>
    rw [expandTask_of_file hf] at h
    obtain ⟨found, hfound, rfl⟩ := Outcome.map_eq_ok_iff.1 h
    obtain ⟨hname, hbody⟩ := hinc hfound
    refine .intro ?_ hbody
    rintro _ ⟨⟩ -
    dsimp only
    split
    · exact hname
    · rename_i hd
      simpa using hd
  | none =>
    rw [expandTask_of_inline hf] at h
    obtain ⟨body, hbody, rfl⟩ := Outcome.map_eq_ok_iff.1 h
    refine .intro ?_ (isDescribed_of_expandStatements ih hbody)
    rintro _ ⟨⟩ hfile
    exact absurd hf hfile

/-- In an expanded statement every task has a description, at any depth. -/
theorem isDescribed_of_expandStatement (hinc : Describes inc) {s r : Statement}
    (h : expandStatement inc s = .ok r) : r.Everywhere Statement.IsDescribed := by
  induction s generalizing r with
  | task t ih =>
    obtain ⟨t', ht', rfl⟩ := Outcome.map_eq_ok_iff.1 h
    exact isDescribed_of_expandTask hinc (fun s hs r hr => ih s hs hr) ht'
  | parallel tasks ih =>
    obtain ⟨tasks', htasks', rfl⟩ := Outcome.map_eq_ok_iff.1 h
    refine .intro nofun (List.forall_mem_map.2 fun t' ht' => ?_)
    rw [expandTasks_eq_mapM] at htasks'
    obtain ⟨t, ht, hr⟩ := Outcome.exists_mem_of_mapM_eq_ok htasks' t' ht'
    exact isDescribed_of_expandTask hinc (fun s hs r hr => ih t ht s hs hr) hr
  | ifThen condition body ih | whileLoop condition body ih | forEach item iterable body ih =>
    obtain ⟨body', hbody', rfl⟩ := Outcome.map_eq_ok_iff.1 h
    exact .intro nofun (isDescribed_of_expandStatements (fun s hs r hr => ih s hs hr) hbody')
  | ifElse condition body otherwise ihb iho =>
    obtain ⟨body', hbody', h⟩ := Outcome.bind_eq_ok_iff.1 h
    obtain ⟨otherwise', hotherwise', h⟩ := Outcome.bind_eq_ok_iff.1 h
    cases h
    exact .intro nofun (List.forall_mem_append.2
      ⟨isDescribed_of_expandStatements (fun s hs r hr => ihb s hs hr) hbody',
        isDescribed_of_expandStatements (fun s hs r hr => iho s hs hr) hotherwise'⟩)
  | ask | confirm | createFile | assign | call | stop | waitForResponse | unknown =>
    cases h
    exact .of_leaf nofun rfl

end Expansion

/-! ### Libraries -/

theorem Command.name_ne_empty_of_parse {source : String} {c : Command}
    (h : Command.parse source = .ok c) : c.name ≠ "" := by
  obtain ⟨scanned, -, hc⟩ := Command.parse_eq_ok_iff.1 h
  obtain ⟨t, -, -, hname⟩ := Parser.isNameIn_of_command hc
  intro hempty
  rw [hempty] at hname
  cases hname

namespace Library

open Expansion

variable {lib : Library}

theorem name_ne_empty_of_command {path : Path} {c : Command} (h : lib.command path = .ok c) :
    c.name ≠ "" := by
  obtain ⟨source, -, hparse⟩ := command_eq_ok_iff.1 h
  exact Command.name_ne_empty_of_parse hparse

/-- Included commands are named, and so every task in them has a description. -/
theorem describes_inclusion (bound : Nat) (chain : List Path) (directory : Path) :
    Describes (lib.inclusion bound chain directory) := by
  induction bound generalizing chain directory with
  | zero => nofun
  | succ bound ih =>
    intro file found h
    obtain ⟨-, c, hc, hname, hbody⟩ := inclusion_succ_eq_ok_iff.1 h
    refine ⟨by rw [hname]; exact name_ne_empty_of_command hc, ?_⟩
    exact isDescribed_of_expandStatements
      (fun s _ r hr => isDescribed_of_expandStatement (ih _ _) hr) hbody

/-- After expansion every task with a file has a description, no task is left unresolved, and the
document is the one that the command has without any files. -/
theorem expand_compile_withoutFiles {c result : Command} {directory : Path}
    (h : lib.expand c directory = .ok result) :
    (result.Everywhere fun s => ∀ t, s = .task t →
      (t.file ≠ none → t.description ≠ "") ∧ Task.isUnresolved t = false) ∧
      result.compile = result.withoutFiles.compile := by
  obtain ⟨body, hbody, he⟩ := Outcome.bind_eq_ok_iff.1 h
  cases he
  have hdescribed : Command.Everywhere Statement.IsDescribed ⟨c.name, body⟩ :=
    isDescribed_of_expandStatements
      (fun s _ r hr => isDescribed_of_expandStatement (describes_inclusion _ _ _) hr) hbody
  refine ⟨hdescribed.imp fun s hs t ht => ⟨hs t ht, (hs t ht).isUnresolved⟩, ?_⟩
  exact hdescribed.compile_withoutFiles.symm

/-- A shelf with a command that has an empty body, and one that uses it. -/
def emptyBody : Shelf :=
  (Shelf.empty.insert ⟨"x/use"⟩ "command use \x7b\nif (a) \x7b\ntask(\"none\")\n\x7d\n\x7d").insert
    ⟨"x/none"⟩ "command none \x7b\n\x7d"

/-- A command with a file that is described and one that is not. -/
def usesEmptyBody : Command :=
  ⟨"c", [Statement.task ⟨"do it", .plan, [], some "use"⟩,
    .ifThen "b" [.parallel [Task.fromFile "none" .bash]]]⟩

theorem expand_compile_withoutFiles_emptyBody :
    ∃ result, (emptyBody.library []).expand usesEmptyBody ⟨"x"⟩ = .ok result ∧
      (result.Everywhere fun s => ∀ t, s = .task t →
        (t.file ≠ none → t.description ≠ "") ∧ Task.isUnresolved t = false) ∧
      result.compile = result.withoutFiles.compile := by
  obtain ⟨result, h⟩ : ∃ result, (emptyBody.library []).expand usesEmptyBody ⟨"x"⟩ = .ok result :=
    Outcome.exists_ok_of_isOk (by decide +kernel)
  exact ⟨result, h, expand_compile_withoutFiles h⟩

end Library

end Playbook
