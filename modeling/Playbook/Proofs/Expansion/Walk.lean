import Playbook.Expansion
import Playbook.Proofs.Command
import Playbook.Proofs.Outcome

/-!
# Walking over a tree that is expanded

`Statement.Names` says that a file is named by a task inside a statement, and `references` lists
exactly the files that are named.  Expanding a tree asks the includer for these files and for
nothing else: it succeeds exactly if the includer succeeds on all of them, otherwise it fails as the
includer does on one of them, and two includers that agree on them give the same outcome.
-/

namespace Playbook

/-! ### The files that a tree names -/

/-- A task at some depth of the blocks, parallel blocks and inline tasks of a statement names the
given file. -/
inductive Statement.Names (file : String) : Statement → Prop
  | file {t : Task} (h : t.file = some file) : Names file (.task t)
  | inline {t : Task} {s : Statement} (ht : t.file = none) (hs : s ∈ t.body) (h : Names file s) :
    Names file (.task t)
  | parallel {tasks : List Task} {t : Task} (ht : t ∈ tasks) (h : Names file (.task t)) :
    Names file (.parallel tasks)
  | ifThen {condition : String} {body : List Statement} {s : Statement} (hs : s ∈ body)
    (h : Names file s) : Names file (.ifThen condition body)
  | ifBody {condition : String} {body otherwise : List Statement} {s : Statement} (hs : s ∈ body)
    (h : Names file s) : Names file (.ifElse condition body otherwise)
  | otherwise {condition : String} {body otherwise : List Statement} {s : Statement}
    (hs : s ∈ otherwise) (h : Names file s) : Names file (.ifElse condition body otherwise)
  | whileLoop {condition : String} {body : List Statement} {s : Statement} (hs : s ∈ body)
    (h : Names file s) : Names file (.whileLoop condition body)
  | forEach {item iterable : String} {body : List Statement} {s : Statement} (hs : s ∈ body)
    (h : Names file s) : Names file (.forEach item iterable body)

/-- A task at some depth of a command names the given file. -/
def Command.Names (file : String) (c : Command) : Prop := ∃ s ∈ c.body, s.Names file

@[simp] theorem mem_statementsReferences {file : String} {body : List Statement} :
    file ∈ statementsReferences body ↔ ∃ s ∈ body, file ∈ s.references := by
  induction body with
  | nil => simp [statementsReferences]
  | cons s rest ih => simp [statementsReferences, ih]

@[simp] theorem mem_tasksReferences {file : String} {tasks : List Task} :
    file ∈ tasksReferences tasks ↔ ∃ t ∈ tasks, file ∈ taskReferences t := by
  induction tasks with
  | nil => simp [tasksReferences]
  | cons t rest ih => simp [tasksReferences, ih]

theorem taskReferences_of_file {t : Task} {file : String} (h : t.file = some file) :
    taskReferences t = [file] := by
  obtain ⟨_, _, _, _⟩ := t
  cases h
  rfl

theorem taskReferences_of_inline {t : Task} (h : t.file = none) :
    taskReferences t = statementsReferences t.body := by
  obtain ⟨_, _, _, _⟩ := t
  cases h
  rfl

theorem mem_taskReferences_iff {file : String} {t : Task}
    (ih : ∀ s ∈ t.body, file ∈ s.references ↔ s.Names file) :
    file ∈ taskReferences t ↔ (Statement.task t).Names file := by
  -- the statements of a task that names a file are not looked at
  cases hf : t.file with
  | some f =>
    rw [taskReferences_of_file hf, List.mem_singleton]
    constructor
    · rintro rfl
      exact .file hf
    · intro h
      cases h with
      | file h => exact (Option.some.inj (hf.symm.trans h)).symm
      | inline h => rw [hf] at h; cases h
  | none =>
    rw [taskReferences_of_inline hf, mem_statementsReferences]
    constructor
    · rintro ⟨s, hs, h⟩
      exact .inline hf hs ((ih s hs).1 h)
    · intro h
      cases h with
      | file h => rw [hf] at h; cases h
      | inline _ hs h => exact ⟨_, hs, (ih _ hs).2 h⟩

/-- The listed references are the files that are named. -/
theorem Statement.mem_references_iff {file : String} (s : Statement) :
    file ∈ s.references ↔ s.Names file := by
  induction s with
  | task t ih => exact mem_taskReferences_iff ih
  | parallel tasks ih =>
    simp only [references, mem_tasksReferences]
    constructor
    · rintro ⟨t, ht, h⟩
      exact .parallel ht ((mem_taskReferences_iff (ih t ht)).1 h)
    · intro h
      cases h with
      | parallel ht h => exact ⟨_, ht, (mem_taskReferences_iff (ih _ ht)).2 h⟩
  | ifThen condition body ih =>
    simp only [references, mem_statementsReferences]
    constructor
    · rintro ⟨s, hs, h⟩
      exact .ifThen hs ((ih s hs).1 h)
    · intro h
      cases h with
      | ifThen hs h => exact ⟨_, hs, (ih _ hs).2 h⟩
  | ifElse condition body otherwise ihb iho =>
    simp only [references, List.mem_append, mem_statementsReferences]
    constructor
    · rintro (⟨s, hs, h⟩ | ⟨s, hs, h⟩)
      · exact .ifBody hs ((ihb s hs).1 h)
      · exact .otherwise hs ((iho s hs).1 h)
    · intro h
      cases h with
      | ifBody hs h => exact Or.inl ⟨_, hs, (ihb _ hs).2 h⟩
      | otherwise hs h => exact Or.inr ⟨_, hs, (iho _ hs).2 h⟩
  | whileLoop condition body ih =>
    simp only [references, mem_statementsReferences]
    constructor
    · rintro ⟨s, hs, h⟩
      exact .whileLoop hs ((ih s hs).1 h)
    · intro h
      cases h with
      | whileLoop hs h => exact ⟨_, hs, (ih _ hs).2 h⟩
  | forEach item iterable body ih =>
    simp only [references, mem_statementsReferences]
    constructor
    · rintro ⟨s, hs, h⟩
      exact .forEach hs ((ih s hs).1 h)
    · intro h
      cases h with
      | forEach hs h => exact ⟨_, hs, (ih _ hs).2 h⟩
  | ask | confirm | createFile | assign | call | stop | waitForResponse | unknown =>
    simp only [references, List.not_mem_nil, false_iff]
    intro h
    cases h

theorem Command.mem_references_iff {file : String} {c : Command} :
    file ∈ c.references ↔ c.Names file := by
  simp only [references, mem_statementsReferences, Statement.mem_references_iff, Names]

namespace Expansion

variable {inc inc' : Includer}

/-! ### Success -/

theorem expandStatements_eq_mapM (body : List Statement) :
    expandStatements inc body = body.mapM (expandStatement inc) := by
  induction body with
  | nil => rfl
  | cons s rest ih =>
    rw [expandStatements, List.mapM_cons, ih]
    rfl

theorem expandTasks_eq_mapM (tasks : List Task) :
    expandTasks inc tasks = tasks.mapM (expandTask inc) := by
  induction tasks with
  | nil => rfl
  | cons t rest ih =>
    rw [expandTasks, List.mapM_cons, ih]
    rfl

theorem expandTask_of_file {t : Task} {file : String} (h : t.file = some file) :
    expandTask inc t = (inc file).map fun found =>
      ⟨if t.description.isEmpty then found.name else t.description, t.agent, found.body,
        some file⟩ := by
  obtain ⟨_, _, _, _⟩ := t
  cases h
  rfl

theorem expandTask_of_inline {t : Task} (h : t.file = none) :
    expandTask inc t = (expandStatements inc t.body).map fun body => { t with body } := by
  obtain ⟨_, _, _, _⟩ := t
  cases h
  rfl

/-- The includer gives something for every file that is listed. -/
def Supplies (inc : Includer) (files : List String) : Prop :=
  ∀ file ∈ files, ∃ found, inc file = .ok found

theorem expandBody_succeeds_iff {body : List Statement}
    (ih : ∀ s ∈ body, (∃ r, expandStatement inc s = .ok r) ↔ Supplies inc s.references) :
    (∃ r, expandStatements inc body = .ok r) ↔ Supplies inc (statementsReferences body) := by
  rw [expandStatements_eq_mapM, Outcome.mapM_succeeds_iff]
  constructor
  · intro h file hf
    obtain ⟨s, hs, hf⟩ := mem_statementsReferences.1 hf
    exact (ih s hs).1 (h s hs) file hf
  · intro h s hs
    exact (ih s hs).2 fun file hf => h file (mem_statementsReferences.2 ⟨s, hs, hf⟩)

theorem expandTask_succeeds_iff {t : Task}
    (ih : ∀ s ∈ t.body, (∃ r, expandStatement inc s = .ok r) ↔ Supplies inc s.references) :
    (∃ r, expandTask inc t = .ok r) ↔ Supplies inc (taskReferences t) := by
  cases hf : t.file with
  | some file =>
    rw [expandTask_of_file hf, Outcome.map_succeeds_iff, taskReferences_of_file hf]
    simp [Supplies]
  | none =>
    rw [expandTask_of_inline hf, Outcome.map_succeeds_iff, taskReferences_of_inline hf]
    exact expandBody_succeeds_iff ih

/-- A statement expands exactly if all files that it refers to can be included. -/
theorem expandStatement_succeeds_iff (s : Statement) :
    (∃ r, expandStatement inc s = .ok r) ↔ Supplies inc s.references := by
  induction s with
  | task t ih =>
    rw [expandStatement, Outcome.map_succeeds_iff]
    exact expandTask_succeeds_iff ih
  | parallel tasks ih =>
    rw [expandStatement, Outcome.map_succeeds_iff, expandTasks_eq_mapM, Outcome.mapM_succeeds_iff]
    constructor
    · intro h file hf
      obtain ⟨t, ht, hf⟩ := mem_tasksReferences.1 hf
      exact (expandTask_succeeds_iff (ih t ht)).1 (h t ht) file hf
    · intro h t ht
      exact (expandTask_succeeds_iff (ih t ht)).2 fun file hf =>
        h file (mem_tasksReferences.2 ⟨t, ht, hf⟩)
  | ifThen condition body ih =>
    rw [expandStatement, Outcome.map_succeeds_iff]
    exact expandBody_succeeds_iff ih
  | ifElse condition body otherwise ihb iho =>
    have hsplit : Supplies inc (Statement.ifElse condition body otherwise).references ↔
        Supplies inc (statementsReferences body) ∧
          Supplies inc (statementsReferences otherwise) := by
      simp only [Supplies, Statement.references, List.mem_append, or_imp, forall_and]
    rw [hsplit, ← expandBody_succeeds_iff ihb, ← expandBody_succeeds_iff iho]
    simp [expandStatement, Outcome.bind_eq_ok_iff]
  | whileLoop condition body ih =>
    rw [expandStatement, Outcome.map_succeeds_iff]
    exact expandBody_succeeds_iff ih
  | forEach item iterable body ih =>
    rw [expandStatement, Outcome.map_succeeds_iff]
    exact expandBody_succeeds_iff ih
  | ask | confirm | createFile | assign | call | stop | waitForResponse | unknown =>
    simp [expandStatement, Supplies, Statement.references]

theorem expandStatements_succeeds_iff {body : List Statement} :
    (∃ r, expandStatements inc body = .ok r) ↔ Supplies inc (statementsReferences body) :=
  expandBody_succeeds_iff fun s _ => expandStatement_succeeds_iff s

/-! ### Failure -/

theorem expandBody_error {e : ExpansionError} {body : List Statement}
    (ih : ∀ s ∈ body, expandStatement inc s = .error e → ∃ file, s.Names file ∧ inc file = .error e)
    (h : expandStatements inc body = .error e) :
    ∃ s ∈ body, ∃ file, s.Names file ∧ inc file = .error e := by
  rw [expandStatements_eq_mapM] at h
  obtain ⟨s, hs, he⟩ := Outcome.exists_mem_of_mapM_eq_error h
  exact ⟨s, hs, ih s hs he⟩

theorem expandTask_error {e : ExpansionError} {t : Task}
    (ih : ∀ s ∈ t.body, expandStatement inc s = .error e →
      ∃ file, s.Names file ∧ inc file = .error e)
    (h : expandTask inc t = .error e) :
    ∃ file, (Statement.task t).Names file ∧ inc file = .error e := by
  cases hf : t.file with
  | some file =>
    rw [expandTask_of_file hf] at h
    exact ⟨file, .file hf, Outcome.map_eq_error_iff.1 h⟩
  | none =>
    rw [expandTask_of_inline hf] at h
    obtain ⟨s, hs, file, hfile, he⟩ := expandBody_error ih (Outcome.map_eq_error_iff.1 h)
    exact ⟨file, .inline hf hs hfile, he⟩

/-- An error of the expansion is an error of the includer for a file that is named. -/
theorem expandStatement_error {e : ExpansionError} (s : Statement)
    (h : expandStatement inc s = .error e) : ∃ file, s.Names file ∧ inc file = .error e := by
  induction s with
  | task t ih =>
    rw [expandStatement] at h
    exact expandTask_error ih (Outcome.map_eq_error_iff.1 h)
  | parallel tasks ih =>
    rw [expandStatement, expandTasks_eq_mapM] at h
    obtain ⟨t, ht, he⟩ := Outcome.exists_mem_of_mapM_eq_error (Outcome.map_eq_error_iff.1 h)
    obtain ⟨file, hfile, he⟩ := expandTask_error (ih t ht) he
    exact ⟨file, .parallel ht hfile, he⟩
  | ifThen condition body ih =>
    rw [expandStatement] at h
    obtain ⟨s, hs, file, hfile, he⟩ := expandBody_error ih (Outcome.map_eq_error_iff.1 h)
    exact ⟨file, .ifThen hs hfile, he⟩
  | ifElse condition body otherwise ihb iho =>
    rw [expandStatement] at h
    rcases Outcome.bind_eq_error_iff.1 h with h | ⟨_, -, h⟩
    · obtain ⟨s, hs, file, hfile, he⟩ := expandBody_error ihb h
      exact ⟨file, .ifBody hs hfile, he⟩
    · rcases Outcome.bind_eq_error_iff.1 h with h | ⟨_, -, h⟩
      · obtain ⟨s, hs, file, hfile, he⟩ := expandBody_error iho h
        exact ⟨file, .otherwise hs hfile, he⟩
      · cases h
  | whileLoop condition body ih =>
    rw [expandStatement] at h
    obtain ⟨s, hs, file, hfile, he⟩ := expandBody_error ih (Outcome.map_eq_error_iff.1 h)
    exact ⟨file, .whileLoop hs hfile, he⟩
  | forEach item iterable body ih =>
    rw [expandStatement] at h
    obtain ⟨s, hs, file, hfile, he⟩ := expandBody_error ih (Outcome.map_eq_error_iff.1 h)
    exact ⟨file, .forEach hs hfile, he⟩
  | ask | confirm | createFile | assign | call | stop | waitForResponse | unknown =>
    rw [expandStatement] at h
    cases h

theorem expandStatements_error {e : ExpansionError} {body : List Statement}
    (h : expandStatements inc body = .error e) :
    ∃ s ∈ body, ∃ file, s.Names file ∧ inc file = .error e :=
  expandBody_error (fun s _ => expandStatement_error s) h

/-! ### Dependence on the includer -/

/-- The two includers give the same outcome for every file that is listed. -/
def Agree (inc inc' : Includer) (files : List String) : Prop := ∀ file ∈ files, inc file = inc' file

theorem expandBody_congr {body : List Statement}
    (ih : ∀ s ∈ body, Agree inc inc' s.references →
      expandStatement inc s = expandStatement inc' s)
    (h : Agree inc inc' (statementsReferences body)) :
    expandStatements inc body = expandStatements inc' body := by
  rw [expandStatements_eq_mapM, expandStatements_eq_mapM]
  refine Outcome.mapM_congr fun s hs => ih s hs fun file hf => ?_
  exact h file (mem_statementsReferences.2 ⟨s, hs, hf⟩)

theorem expandTask_congr {t : Task}
    (ih : ∀ s ∈ t.body, Agree inc inc' s.references →
      expandStatement inc s = expandStatement inc' s)
    (h : Agree inc inc' (taskReferences t)) : expandTask inc t = expandTask inc' t := by
  cases hf : t.file with
  | some file =>
    have : inc file = inc' file := h file (by simp [taskReferences_of_file hf])
    rw [expandTask_of_file hf, expandTask_of_file hf, this]
  | none =>
    rw [taskReferences_of_inline hf] at h
    rw [expandTask_of_inline hf, expandTask_of_inline hf, expandBody_congr ih h]

/-- The outcome depends on nothing but what the includer gives for the references. -/
theorem expandStatement_congr (s : Statement) (h : Agree inc inc' s.references) :
    expandStatement inc s = expandStatement inc' s := by
  induction s with
  | task t ih => rw [expandStatement, expandStatement, expandTask_congr ih h]
  | parallel tasks ih =>
    have htasks : tasks.mapM (expandTask inc) = tasks.mapM (expandTask inc') := by
      refine Outcome.mapM_congr fun t ht => expandTask_congr (ih t ht) fun file hf => ?_
      exact h file (mem_tasksReferences.2 ⟨t, ht, hf⟩)
    rw [expandStatement, expandStatement, expandTasks_eq_mapM, expandTasks_eq_mapM, htasks]
  | ifThen condition body ih => rw [expandStatement, expandStatement, expandBody_congr ih h]
  | ifElse condition body otherwise ihb iho =>
    have hbody := expandBody_congr ihb fun file hf => h file (List.mem_append_left _ hf)
    have hotherwise := expandBody_congr iho fun file hf => h file (List.mem_append_right _ hf)
    rw [expandStatement, expandStatement, hbody, hotherwise]
  | whileLoop condition body ih => rw [expandStatement, expandStatement, expandBody_congr ih h]
  | forEach item iterable body ih => rw [expandStatement, expandStatement, expandBody_congr ih h]
  | ask | confirm | createFile | assign | call | stop | waitForResponse | unknown =>
    simp only [expandStatement]

theorem expandStatements_congr {body : List Statement}
    (h : Agree inc inc' (statementsReferences body)) :
    expandStatements inc body = expandStatements inc' body :=
  expandBody_congr (fun s _ => expandStatement_congr s) h

/-- A result stays the same under an includer that gives at least as much. -/
theorem expandStatements_mono {body result : List Statement}
    (h : ∀ file ∈ statementsReferences body, ∀ found, inc file = .ok found →
      inc' file = .ok found)
    (hr : expandStatements inc body = .ok result) : expandStatements inc' body = .ok result := by
  -- there is a result, so `inc` answers for every reference, and there the two agree
  have hall := expandStatements_succeeds_iff.1 ⟨result, hr⟩
  rw [← hr]
  refine (expandStatements_congr fun file hf => ?_).symm
  obtain ⟨found, hfound⟩ := hall file hf
  rw [hfound, h file hf found hfound]

end Expansion

end Playbook
