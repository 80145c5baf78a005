import Playbook.Proofs.Expansion.Roots

/-!
# Results of an expansion

An expanded tree differs from the one it comes from in the tasks that name files, and there only in
their descriptions and bodies: once these are cleared, both trees are the same
(`Library.expand_cleared`).  The tasks keep the names of their files, so the result can be expanded
again, and this changes nothing: what was included is not walked over but put in its place once
more, and the descriptions are there by now (`Library.expand_expand`).

Both are shown by one induction over the statements that expand (`expandStatement_induct`), where a
statement that takes in a file is a case of its own.
-/

namespace Playbook

open Expansion

/-! ### Statements and their expansions -/

namespace Expansion

variable {inc : Includer}

theorem forall₂_of_expandStatements {R : Statement → Statement → Prop}
    {body results : List Statement} (h : expandStatements inc body = .ok results)
    (hR : ∀ s ∈ body, ∀ r, expandStatement inc s = .ok r → R s r) :
    List.Forall₂ R body results := by
  rw [expandStatements_eq_mapM] at h
  exact Outcome.forall₂_of_mapM h hR

/-- What holds of a statement and its expansion whenever it holds of the statements inside them,
place by place, holds of every statement that expands. -/
theorem expandStatement_induct {motive : Statement → Statement → Prop}
    (file : ∀ (t : Task) file found, t.file = some file → inc file = .ok found →
      motive (.task t) (.task ⟨if t.description.isEmpty then found.name else t.description,
        t.agent, found.body, some file⟩))
    (inline : ∀ (t : Task) results, t.file = none → List.Forall₂ motive t.body results →
      motive (.task t) (.task { t with body := results }))
    (parallel : ∀ tasks results : List Task,
      List.Forall₂ (fun t r => motive (.task t) (.task r)) tasks results →
        motive (.parallel tasks) (.parallel results))
    (ifThen : ∀ condition body results, List.Forall₂ motive body results →
      motive (.ifThen condition body) (.ifThen condition results))
    (ifElse : ∀ condition body otherwise results results', List.Forall₂ motive body results →
      List.Forall₂ motive otherwise results' →
        motive (.ifElse condition body otherwise) (.ifElse condition results results'))
    (whileLoop : ∀ condition body results, List.Forall₂ motive body results →
      motive (.whileLoop condition body) (.whileLoop condition results))
    (forEach : ∀ item iterable body results, List.Forall₂ motive body results →
      motive (.forEach item iterable body) (.forEach item iterable results))
    (same : ∀ s, expandStatement inc s = .ok s → motive s s)
    {s r : Statement} (h : expandStatement inc s = .ok r) : motive s r := by
  have htask : ∀ t r : Task, (∀ s ∈ t.body, ∀ r, expandStatement inc s = .ok r → motive s r) →
      expandTask inc t = .ok r → motive (.task t) (.task r) := by
    intro t r ih hr
    cases hf : t.file with
    | some f =>
      rw [expandTask_of_file hf] at hr
      obtain ⟨found, hfound, rfl⟩ := Outcome.map_eq_ok_iff.1 hr
      exact file t f found hf hfound
    | none =>
      rw [expandTask_of_inline hf] at hr
      obtain ⟨results, hresults, rfl⟩ := Outcome.map_eq_ok_iff.1 hr
      exact inline t results hf (forall₂_of_expandStatements hresults ih)
  induction s generalizing r with
  | task t ih =>
    obtain ⟨t', ht', rfl⟩ := Outcome.map_eq_ok_iff.1 h
    exact htask t t' (fun s hs r hr => ih s hs hr) ht'
  | parallel tasks ih =>
    obtain ⟨results, hresults, rfl⟩ := Outcome.map_eq_ok_iff.1 h
    rw [expandTasks_eq_mapM] at hresults
    exact parallel tasks results (Outcome.forall₂_of_mapM hresults fun t ht r hr =>
      htask t r (fun s hs r hr => ih t ht s hs hr) hr)
  | ifThen condition body ih =>
    obtain ⟨results, hresults, rfl⟩ := Outcome.map_eq_ok_iff.1 h
    exact ifThen _ _ _ (forall₂_of_expandStatements hresults fun s hs r hr => ih s hs hr)
  | ifElse condition body otherwise ihb iho =>
    obtain ⟨results, hresults, h⟩ := Outcome.bind_eq_ok_iff.1 h
    obtain ⟨results', hresults', h⟩ := Outcome.bind_eq_ok_iff.1 h
    cases h
    exact ifElse _ _ _ _ _ (forall₂_of_expandStatements hresults fun s hs r hr => ihb s hs hr)
      (forall₂_of_expandStatements hresults' fun s hs r hr => iho s hs hr)
  | whileLoop condition body ih =>
    obtain ⟨results, hresults, rfl⟩ := Outcome.map_eq_ok_iff.1 h
    exact whileLoop _ _ _ (forall₂_of_expandStatements hresults fun s hs r hr => ih s hs hr)
  | forEach item iterable body ih =>
    obtain ⟨results, hresults, rfl⟩ := Outcome.map_eq_ok_iff.1 h
    exact forEach _ _ _ _ (forall₂_of_expandStatements hresults fun s hs r hr => ih s hs hr)
  | ask | confirm | createFile | assign | call | stop | waitForResponse | unknown =>
    cases h
    exact same _ rfl

end Expansion

/-! ### Changes at the tasks that name files -/

mutual

/-- A statement with the function applied to the tasks in it that name files.  The bodies of these
are left to the function. -/
def Statement.atFiles (f : TaskOf Statement → TaskOf Statement) : Statement → Statement
  | .task t => .task (taskAtFiles f t)
  | .parallel tasks => .parallel (tasksAtFiles f tasks)
  | .ifThen condition body => .ifThen condition (statementsAtFiles f body)
  | .ifElse condition body otherwise =>
    .ifElse condition (statementsAtFiles f body) (statementsAtFiles f otherwise)
  | .whileLoop condition body => .whileLoop condition (statementsAtFiles f body)
  | .forEach item iterable body => .forEach item iterable (statementsAtFiles f body)
  | .ask question => .ask question
  | .confirm message => .confirm message
  | .createFile filename content => .createFile filename content
  | .assign name value => .assign name value
  | .call name args => .call name args
  | .stop => .stop
  | .waitForResponse => .waitForResponse
  | .unknown kind => .unknown kind

/-- Statements with the function applied to the tasks in them that name files. -/
def statementsAtFiles (f : TaskOf Statement → TaskOf Statement) : List Statement → List Statement
  | [] => []
  | s :: rest => s.atFiles f :: statementsAtFiles f rest

/-- What the function makes of a task if it names a file, and otherwise the task with the function
applied in its body. -/
def taskAtFiles (f : TaskOf Statement → TaskOf Statement) : TaskOf Statement → TaskOf Statement
  | ⟨description, agent, body, none⟩ => ⟨description, agent, statementsAtFiles f body, none⟩
  | ⟨description, agent, body, some file⟩ => f ⟨description, agent, body, some file⟩

/-- Tasks with the function applied to those that name files, and in the bodies of the others. -/
def tasksAtFiles (f : TaskOf Statement → TaskOf Statement) :
    List (TaskOf Statement) → List (TaskOf Statement)
  | [] => []
  | t :: rest => taskAtFiles f t :: tasksAtFiles f rest

end

/-- A command with the function applied to the tasks in it that name files. -/
def Command.atFiles (f : Task → Task) (c : Command) : Command :=
  ⟨c.name, statementsAtFiles f c.body⟩

/-- A task without description and body. -/
def Task.cleared (t : Task) : Task := { t with description := "", body := [] }

/-- A command in which the tasks that name files have no descriptions and no bodies. -/
def Command.cleared (c : Command) : Command := c.atFiles Task.cleared

section AtFiles

variable {f : Task → Task}

theorem taskAtFiles_of_file {t : Task} {file : String} (h : t.file = some file) :
    taskAtFiles f t = f t := by
  obtain ⟨_, _, _, _⟩ := t
  cases h
  rfl

theorem taskAtFiles_of_inline {t : Task} (h : t.file = none) :
    taskAtFiles f t = { t with body := statementsAtFiles f t.body } := by
  obtain ⟨_, _, _, _⟩ := t
  cases h
  rfl

theorem statementsAtFiles_congr {body results : List Statement}
    (h : List.Forall₂ (fun s r => r.atFiles f = s.atFiles f) body results) :
    statementsAtFiles f results = statementsAtFiles f body := by
  induction h with
  | nil => rfl
  | cons hs _ ih => rw [statementsAtFiles, statementsAtFiles, hs, ih]

theorem tasksAtFiles_congr {tasks results : List Task}
    (h : List.Forall₂ (fun t r => (Statement.task r).atFiles f = (Statement.task t).atFiles f) tasks
      results) :
    tasksAtFiles f results = tasksAtFiles f tasks := by
  induction h with
  | nil => rfl
  | cons ht _ ih => rw [tasksAtFiles, tasksAtFiles, Statement.task.inj ht, ih]

/-- A function that sees neither descriptions nor bodies makes the same of a statement and of its
expansion: these are all that expansion changes. -/
theorem Expansion.atFiles_of_expandStatement {inc : Includer}
    (hf : ∀ (t : Task) description body, f { t with description, body } = f t) {s r : Statement}
    (h : expandStatement inc s = .ok r) : r.atFiles f = s.atFiles f := by
  refine expandStatement_induct (motive := fun s r => r.atFiles f = s.atFiles f)
    ?file ?inline ?parallel ?ifThen ?ifElse ?whileLoop ?forEach ?same h
  case file =>
    intro t file found hfile _
    rw [Statement.atFiles, Statement.atFiles, taskAtFiles_of_file hfile, taskAtFiles, ← hfile, hf]
  case inline =>
    intro t results hfile hbody
    rw [Statement.atFiles, Statement.atFiles, taskAtFiles_of_inline hfile,
      taskAtFiles_of_inline (t := { t with body := results }) hfile, statementsAtFiles_congr hbody]
  case parallel =>
    intro tasks results htasks
    rw [Statement.atFiles, Statement.atFiles, tasksAtFiles_congr htasks]
  case ifThen =>
    intro condition body results hbody
    rw [Statement.atFiles, Statement.atFiles, statementsAtFiles_congr hbody]
  case ifElse =>
    intro condition body otherwise results results' hbody hotherwise
    rw [Statement.atFiles, Statement.atFiles, statementsAtFiles_congr hbody,
      statementsAtFiles_congr hotherwise]
  case whileLoop =>
    intro condition body results hbody
    rw [Statement.atFiles, Statement.atFiles, statementsAtFiles_congr hbody]
  case forEach =>
    intro item iterable body results hbody
    rw [Statement.atFiles, Statement.atFiles, statementsAtFiles_congr hbody]
  case same =>
    intro s _
    rfl

/-! ### Trees without references -/

theorem references_statementsAtFiles {body : List Statement}
    (ih : ∀ s ∈ body, (s.atFiles f).references = s.references) :
    statementsReferences (statementsAtFiles f body) = statementsReferences body := by
  induction body with
  | nil => rfl
  | cons s rest ihr =>
    rw [List.forall_mem_cons] at ih
    rw [statementsAtFiles, statementsReferences, statementsReferences, ih.1, ihr ih.2]

theorem references_taskAtFiles (hf : ∀ t : Task, (f t).file = t.file) {t : Task}
    (ih : ∀ s ∈ t.body, (s.atFiles f).references = s.references) :
    taskReferences (taskAtFiles f t) = taskReferences t := by
  cases hfile : t.file with
  | some file =>
    rw [taskAtFiles_of_file hfile, taskReferences_of_file hfile,
      taskReferences_of_file ((hf t).trans hfile)]
  | none =>
    rw [taskAtFiles_of_inline hfile, taskReferences_of_inline hfile,
      taskReferences_of_inline (t := { t with body := statementsAtFiles f t.body }) hfile,
      references_statementsAtFiles ih]

theorem references_tasksAtFiles {tasks : List Task}
    (ih : ∀ t ∈ tasks, taskReferences (taskAtFiles f t) = taskReferences t) :
    tasksReferences (tasksAtFiles f tasks) = tasksReferences tasks := by
  induction tasks with
  | nil => rfl
  | cons t rest ihr =>
    rw [List.forall_mem_cons] at ih
    rw [tasksAtFiles, tasksReferences, tasksReferences, ih.1, ihr ih.2]

/-- A function that keeps the files of tasks keeps the references of a statement. -/
theorem Statement.references_atFiles (hf : ∀ t : Task, (f t).file = t.file) (s : Statement) :
    (s.atFiles f).references = s.references := by
  induction s with
  | task t ih => exact references_taskAtFiles hf ih
  | parallel tasks ih =>
    exact references_tasksAtFiles fun t ht => references_taskAtFiles hf (ih t ht)
  | ifThen condition body ih | whileLoop condition body ih | forEach item iterable body ih =>
    exact references_statementsAtFiles ih
  | ifElse condition body otherwise ihb iho =>
    exact congrArg₂ (· ++ ·) (references_statementsAtFiles ihb) (references_statementsAtFiles iho)
  | ask | confirm | createFile | assign | call | stop | waitForResponse | unknown => rfl

theorem Command.references_atFiles (hf : ∀ t : Task, (f t).file = t.file) (c : Command) :
    (c.atFiles f).references = c.references :=
  references_statementsAtFiles fun s _ => s.references_atFiles hf

theorem statementsAtFiles_eq_self {body : List Statement}
    (ih : ∀ s ∈ body, s.references = [] → s.atFiles f = s) (h : statementsReferences body = []) :
    statementsAtFiles f body = body := by
  induction body with
  | nil => rfl
  | cons s rest ihr =>
    rw [List.forall_mem_cons] at ih
    obtain ⟨hs, hrest⟩ := List.append_eq_nil_iff.1 h
    rw [statementsAtFiles, ih.1 hs, ihr ih.2 hrest]

theorem taskAtFiles_eq_self {t : Task} (ih : ∀ s ∈ t.body, s.references = [] → s.atFiles f = s)
    (h : taskReferences t = []) : taskAtFiles f t = t := by
  cases hfile : t.file with
  | some file =>
    rw [taskReferences_of_file hfile] at h
    cases h
  | none =>
    rw [taskReferences_of_inline hfile] at h
    rw [taskAtFiles_of_inline hfile, statementsAtFiles_eq_self ih h]

theorem tasksAtFiles_eq_self {tasks : List Task}
    (ih : ∀ t ∈ tasks, taskReferences t = [] → taskAtFiles f t = t)
    (h : tasksReferences tasks = []) : tasksAtFiles f tasks = tasks := by
  induction tasks with
  | nil => rfl
  | cons t rest ihr =>
    rw [List.forall_mem_cons] at ih
    obtain ⟨ht, hrest⟩ := List.append_eq_nil_iff.1 h
    rw [tasksAtFiles, ih.1 ht, ihr ih.2 hrest]

/-- Where no task names a file nothing is changed. -/
theorem Statement.atFiles_eq_self {s : Statement} (h : s.references = []) : s.atFiles f = s := by
  induction s with
  | task t ih => exact congrArg Statement.task (taskAtFiles_eq_self ih h)
  | parallel tasks ih =>
    exact congrArg Statement.parallel
      (tasksAtFiles_eq_self (fun t ht => taskAtFiles_eq_self (ih t ht)) h)
  | ifThen condition body ih => exact congrArg (ifThen condition) (statementsAtFiles_eq_self ih h)
  | whileLoop condition body ih =>
    exact congrArg (whileLoop condition) (statementsAtFiles_eq_self ih h)
  | forEach item iterable body ih =>
    exact congrArg (forEach item iterable) (statementsAtFiles_eq_self ih h)
  | ifElse condition body otherwise ihb iho =>
    obtain ⟨hbody, hotherwise⟩ := List.append_eq_nil_iff.1 h
    exact congrArg₂ (ifElse condition) (statementsAtFiles_eq_self ihb hbody)
      (statementsAtFiles_eq_self iho hotherwise)
  | ask | confirm | createFile | assign | call | stop | waitForResponse | unknown => rfl

theorem Command.atFiles_eq_self {c : Command} (h : c.references = []) : c.atFiles f = c :=
  congrArg (Command.mk c.name)
    (statementsAtFiles_eq_self (fun _ _ => Statement.atFiles_eq_self) h)

end AtFiles

/-! ### Expanding again -/

namespace Expansion

variable {inc : Includer}

theorem expandStatements_of_forall₂ {body results : List Statement}
    (h : List.Forall₂ (fun _ r => expandStatement inc r = .ok r) body results) :
    expandStatements inc results = .ok results := by
  rw [expandStatements_eq_mapM, Outcome.mapM_eq_ok_iff, List.forall₂_same]
  intro r hr
  obtain ⟨_, -, hexpand⟩ := Outcome.exists_mem_of_forall₂ h r hr
  exact hexpand

theorem expandTasks_of_forall₂ {tasks results : List Task}
    (h : List.Forall₂ (fun _ r => expandStatement inc (.task r) = .ok (.task r)) tasks results) :
    expandTasks inc results = .ok results := by
  rw [expandTasks_eq_mapM, Outcome.mapM_eq_ok_iff, List.forall₂_same]
  intro r hr
  obtain ⟨_, -, hexpand⟩ := Outcome.exists_mem_of_forall₂ h r hr
  obtain ⟨r', hr', he⟩ := Outcome.map_eq_ok_iff.1 hexpand
  rw [hr', Statement.task.inj he]

/-- Expanding the expansion of a statement changes nothing. -/
theorem expandStatement_of_expandStatement {s r : Statement} (h : expandStatement inc s = .ok r) :
    expandStatement inc r = .ok r := by
  refine expandStatement_induct (motive := fun _ r => expandStatement inc r = .ok r)
    ?file ?inline ?parallel ?ifThen ?ifElse ?whileLoop ?forEach ?same h
  case file =>
    intro t file found _ hfound
    rw [expandStatement, expandTask, hfound]
    show Except.ok _ = Except.ok _
    -- a description that was taken from the file, if empty, is taken from there again
    by_cases hd : t.description.isEmpty = true
    · simp [hd]
    · simp [hd]
  case inline =>
    intro t results hfile hbody
    rw [expandStatement, expandTask_of_inline (t := { t with body := results }) hfile,
      expandStatements_of_forall₂ hbody]
    rfl
  case parallel =>
    intro tasks results htasks
    rw [expandStatement, expandTasks_of_forall₂ htasks]
    rfl
  case ifThen =>
    intro condition body results hbody
    rw [expandStatement, expandStatements_of_forall₂ hbody]
    rfl
  case ifElse =>
    intro condition body otherwise results results' hbody hotherwise
    rw [expandStatement, expandStatements_of_forall₂ hbody, expandStatements_of_forall₂ hotherwise]
    rfl
  case whileLoop =>
    intro condition body results hbody
    rw [expandStatement, expandStatements_of_forall₂ hbody]
    rfl
  case forEach =>
    intro item iterable body results hbody
    rw [expandStatement, expandStatements_of_forall₂ hbody]
    rfl
  case same =>
    intro s hs
    exact hs

end Expansion

/-! ### Libraries -/

namespace Library

variable {lib : Library} {c result : Command} {directory : Path}

/-- A function that sees neither descriptions nor bodies makes the same of a command and of its
expansion. -/
theorem atFiles_of_expand {f : Task → Task}
    (hf : ∀ (t : Task) description body, f { t with description, body } = f t)
    (h : lib.expand c directory = .ok result) : result.atFiles f = c.atFiles f := by
  obtain ⟨hname, hbody⟩ := expand_eq_ok_iff.1 h
  have hsame := forall₂_of_expandStatements hbody fun s _ r hr => atFiles_of_expandStatement hf hr
  rw [Command.atFiles, Command.atFiles, hname, statementsAtFiles_congr hsame]

theorem cleared_of_expand (h : lib.expand c directory = .ok result) : result.cleared = c.cleared :=
  atFiles_of_expand (fun _ _ _ => rfl) h

/-- The expansion of a command refers to the same files. -/
theorem references_of_expand (h : lib.expand c directory = .ok result) :
    result.references = c.references := by
  have hkeeps : ∀ t : Task, (Task.cleared t).file = t.file := fun _ => rfl
  rw [← Command.references_atFiles hkeeps result, ← Command.references_atFiles hkeeps c]
  exact congrArg Command.references (cleared_of_expand h)

/-- A command that refers to no file expands to itself. -/
theorem expand_of_references_eq_nil (h : c.references = []) : lib.expand c directory = .ok c := by
  obtain ⟨body, hbody⟩ : ∃ body,
      expandStatements (lib.inclusion (lib.capacity + 1) [] directory) c.body = .ok body := by
    refine expandStatements_succeeds_iff.2 fun file hfile => ?_
    rw [show statementsReferences c.body = [] from h] at hfile
    cases hfile
  have hexpand : lib.expand c directory = .ok ⟨c.name, body⟩ := expand_eq_ok_iff.2 ⟨rfl, hbody⟩
  have hnone : (Command.mk c.name body).references = [] := (references_of_expand hexpand).trans h
  have hsame : Command.mk c.name body = c := by
    calc Command.mk c.name body
      _ = (Command.mk c.name body).cleared := (Command.atFiles_eq_self hnone).symm
      _ = c.cleared := cleared_of_expand hexpand
      _ = c := Command.atFiles_eq_self h
  rw [hexpand, hsame]

/-- Expansion changes nothing but the descriptions and bodies of tasks that name files: with these
cleared, the result is the command that was expanded.  A command in which no task names a file is
returned as it is. -/
theorem expand_cleared (lib : Library) (c : Command) (directory : Path) :
    (∀ result, lib.expand c directory = .ok result → result.cleared = c.cleared) ∧
      ((∀ file, ¬c.Names file) → lib.expand c directory = .ok c) := by
  refine ⟨fun result h => cleared_of_expand h, fun h => expand_of_references_eq_nil ?_⟩
  rw [List.eq_nil_iff_forall_not_mem]
  intro file hfile
  exact h file (Command.mem_references_iff.1 hfile)

/-- A shelf with a file that refers to one in the directory above. -/
def twoLevels : Shelf :=
  (Shelf.empty.insert ⟨"x/d/a"⟩
    "command a \x7b\nif (y) \x7b\ntask(\"../b\", plan)\n\x7d\n\x7d").insert
    ⟨"x/b"⟩ "command b \x7b\nbreak\n\x7d"

/-- A command with tasks that name files in an `else` block: side by side, and inside another task
with a description and a body of its own. -/
def usesTwoLevels : Command :=
  ⟨"c", [.ifElse "x" [.unknown "later"] [.parallel [Task.fromFile "d/a" .plan,
    Task.inline "t" .bash [.task ⟨"own", .bash, [.waitForResponse], some "./b"⟩]]]]⟩

theorem exists_expand_usesTwoLevels :
    ∃ result, (twoLevels.library []).expand usesTwoLevels ⟨"x"⟩ = .ok result :=
  Outcome.exists_ok_of_isOk (by decide +kernel)

/-- A command with tasks side by side that name no files. -/
def usesNoFiles : Command :=
  ⟨"c", [.parallel [Task.inline "t" .bash [.stop], Task.inline "" .plan []]]⟩

theorem expand_cleared_usesTwoLevels :
    (∃ result, (twoLevels.library []).expand usesTwoLevels ⟨"x"⟩ = .ok result ∧
      result.cleared = usesTwoLevels.cleared) ∧
      (twoLevels.library []).expand usesNoFiles ⟨"x"⟩ = .ok usesNoFiles := by
  obtain ⟨result, h⟩ := exists_expand_usesTwoLevels
  refine ⟨⟨result, h, (expand_cleared _ _ _).1 result h⟩, ?_⟩
  apply (expand_cleared _ _ _).2
  intro file hfile
  have hnone := Command.mem_references_iff.2 hfile
  cases hnone

/-- Expanding the expansion of a command, from the same directory, changes nothing. -/
theorem expand_expand (lib : Library) {c result : Command} {directory : Path}
    (h : lib.expand c directory = .ok result) : lib.expand result directory = .ok result := by
  obtain ⟨-, hbody⟩ := expand_eq_ok_iff.1 h
  have hagain := forall₂_of_expandStatements hbody
    fun s _ r hr => expandStatement_of_expandStatement hr
  exact expand_eq_ok_iff.2 ⟨rfl, expandStatements_of_forall₂ hagain⟩

/-- The included file refers to one that is not there from the directory of the command. -/
theorem expand_expand_usesTwoLevels :
    (twoLevels.library []).command (target ⟨"x"⟩ "../b") = .error (.notFound ⟨"b"⟩) ∧
      ∃ result, (twoLevels.library []).expand usesTwoLevels ⟨"x"⟩ = .ok result ∧
        (twoLevels.library []).expand result ⟨"x"⟩ = .ok result := by
  obtain ⟨result, h⟩ := exists_expand_usesTwoLevels
  exact ⟨Outcome.map_eq_error_iff (f := fun _ => ()).1 (by decide +kernel), result, h,
    expand_expand _ h⟩

end Library

end Playbook
