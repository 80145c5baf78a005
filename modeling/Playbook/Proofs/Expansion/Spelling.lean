import Playbook.Proofs.Expansion.Results
import Playbook.Proofs.Path.Canonical

/-!
# Spellings of paths

References may be spelled in many ways, and so may the directory that they start from.  None of this
makes a difference to an expansion: a path is joined and normalized before anything else is done
with it, and where a joined path leads depends on where its two parts lead, not on their texts
(`Path.normalize_join_normalize`).

So a directory may be replaced by another spelling of it, with the same result or the same error.
If the references themselves are spelled in another way, the same files are included; the tasks keep
their own spellings, and an error may quote the reference that it is about.
-/

namespace Playbook

/-! ### Joined paths -/

namespace Path

/-- Where a joined path leads depends on where the path that is joined to leads. -/
theorem normalize_join_congr {base other : Path} (h : base.normalize = other.normalize)
    (p : Path) : (base.join p).normalize = (other.join p).normalize := by
  refine normalize_eq_normalize_iff.2 fun place hplace => ?_
  rw [walk_join, walk_join, normalize_eq_normalize_iff.1 h place hplace]

theorem normalize_join_normalize (base p : Path) :
    (base.normalize.join p).normalize = (base.join p).normalize :=
  normalize_join_congr base.normalize_normalize p

end Path

/-! ### Commands that spell their references differently -/

/-- Statements that differ in tasks that name files only: each such task in the first one is related
to the task in its place in the second one. -/
inductive Statement.DiffersAtFiles (R : Task → Task → Prop) : Statement → Statement → Prop
  | same (s : Statement) : DiffersAtFiles R s s
  | file {t t' : Task} (h : R t t') : DiffersAtFiles R (.task t) (.task t')
  | inline {t : Task} {body : List Statement} (ht : t.file = none)
      (h : List.Forall₂ (DiffersAtFiles R) t.body body) :
      DiffersAtFiles R (.task t) (.task { t with body })
  | parallel {tasks tasks' : List Task}
      (h : List.Forall₂ (fun t t' => DiffersAtFiles R (.task t) (.task t')) tasks tasks') :
      DiffersAtFiles R (.parallel tasks) (.parallel tasks')
  | ifThen {condition : String} {body body' : List Statement}
      (h : List.Forall₂ (DiffersAtFiles R) body body') :
      DiffersAtFiles R (.ifThen condition body) (.ifThen condition body')
  | ifElse {condition : String} {body body' otherwise otherwise' : List Statement}
      (h : List.Forall₂ (DiffersAtFiles R) body body')
      (ho : List.Forall₂ (DiffersAtFiles R) otherwise otherwise') :
      DiffersAtFiles R (.ifElse condition body otherwise) (.ifElse condition body' otherwise')
  | whileLoop {condition : String} {body body' : List Statement}
      (h : List.Forall₂ (DiffersAtFiles R) body body') :
      DiffersAtFiles R (.whileLoop condition body) (.whileLoop condition body')
  | forEach {item iterable : String} {body body' : List Statement}
      (h : List.Forall₂ (DiffersAtFiles R) body body') :
      DiffersAtFiles R (.forEach item iterable body) (.forEach item iterable body')

/-- Commands of the same name whose statements differ in tasks that name files only. -/
structure Command.DiffersAtFiles (R : Task → Task → Prop) (c c' : Command) : Prop where
  name : c.name = c'.name
  body : List.Forall₂ (Statement.DiffersAtFiles R) c.body c'.body

/-- Tasks that name the same file, seen from a directory.  Their bodies do not matter, since the
file takes their place. -/
structure Task.Respelled (directory : Path) (t t' : Task) : Prop where
  description : t.description = t'.description
  agent : t.agent = t'.agent
  file : ∃ file file', t.file = some file ∧ t'.file = some file' ∧
    (directory.join ⟨file⟩).normalize = (directory.join ⟨file'⟩).normalize

/-- Tasks that name the same file, seen from a directory, and are the same otherwise. -/
structure Task.SameButSpelling (directory : Path) (t t' : Task) : Prop
    extends Task.Respelled directory t t' where
  body : t.body = t'.body

/-- The same error, where a cycle may be reported for two spellings of the file that closes it. -/
inductive ExpansionError.SameButSpelling : ExpansionError → ExpansionError → Prop
  | same (e : ExpansionError) : SameButSpelling e e
  | circular (file file' : String) (chain : List Path) :
      SameButSpelling (.circular file chain) (.circular file' chain)

/-! ### Walking over both trees -/

namespace Expansion

open Outcome

variable {inc : Includer} {R S : Task → Task → Prop} {E : ExpansionError → ExpansionError → Prop}

/-- What is compared: the outcomes for two statements. -/
abbrev ExpandAlike (inc : Includer) (E : ExpansionError → ExpansionError → Prop)
    (S : Task → Task → Prop) (s s' : Statement) : Prop :=
  Alike E (Statement.DiffersAtFiles S) (expandStatement inc s) (expandStatement inc s')

theorem expandStatements_alike {body body' : List Statement}
    (ih : ∀ s ∈ body, ∀ s', s.DiffersAtFiles R s' → ExpandAlike inc E S s s')
    (h : List.Forall₂ (Statement.DiffersAtFiles R) body body') :
    Alike E (List.Forall₂ (Statement.DiffersAtFiles S)) (expandStatements inc body)
      (expandStatements inc body') := by
  rw [expandStatements_eq_mapM, expandStatements_eq_mapM]
  refine Alike.mapM ((List.forall₂_and_left _ _).2 ⟨ih, h⟩ |>.imp ?_)
  intro s s' hs
  exact hs.1 s' hs.2

theorem expandTask_alike
    (hR : ∀ t t', R t t' → Alike E S (expandTask inc t) (expandTask inc t')) (hE : ∀ e, E e e)
    {t t' : Task} (ih : ∀ s ∈ t.body, ∀ s', s.DiffersAtFiles R s' → ExpandAlike inc E S s s')
    (h : (Statement.task t).DiffersAtFiles R (.task t')) :
    Alike E (fun r r' => (Statement.task r).DiffersAtFiles S (.task r')) (expandTask inc t)
      (expandTask inc t') := by
  cases h with
  | same => exact .refl hE fun r => .same _
  | file h => exact (hR _ _ h).imp fun _ _ => .file
  | @inline _ body ht h =>
    rw [expandTask_of_inline ht, expandTask_of_inline (t := { t with body := body }) ht,
      Alike.map_iff]
    exact (expandStatements_alike ih h).imp fun _ _ => .inline (t := { t with body := _ }) ht

/-- If tasks that name files expand alike, statements that differ in such tasks only do so too. -/
theorem expandStatement_alike
    (hR : ∀ t t', R t t' → Alike E S (expandTask inc t) (expandTask inc t')) (hE : ∀ e, E e e)
    {s s' : Statement} (h : s.DiffersAtFiles R s') : ExpandAlike inc E S s s' := by
  induction s generalizing s' with
  | task t ih =>
    have htask : ∀ t', (Statement.task t).DiffersAtFiles R (.task t') →
        ExpandAlike inc E S (.task t) (.task t') :=
      fun t' h => Alike.map_iff.2 (expandTask_alike hR hE (fun s hs _ => ih s hs) h)
    cases h with
    | same => exact htask t (.same _)
    | file h => exact htask _ (.file h)
    | inline ht h => exact htask _ (.inline ht h)
  | parallel tasks ih =>
    cases h with
    | same => exact .refl hE .same
    | parallel h =>
      have htasks : List.Forall₂ (fun t t' => Alike E
          (fun r r' => (Statement.task r).DiffersAtFiles S (.task r')) (expandTask inc t)
          (expandTask inc t')) tasks _ :=
        ((List.forall₂_and_left _ _).2 ⟨ih, h⟩).imp fun t t' ht =>
          expandTask_alike hR hE (fun s hs _ => ht.1 s hs) ht.2
      rw [ExpandAlike, expandStatement, expandStatement, expandTasks_eq_mapM, expandTasks_eq_mapM,
        Alike.map_iff]
      exact (Alike.mapM htasks).imp fun _ _ => .parallel
  | ifThen condition body ih =>
    cases h with
    | same => exact .refl hE .same
    | ifThen h =>
      exact Alike.map_iff.2 ((expandStatements_alike (fun s hs _ => ih s hs) h).imp
        fun _ _ => .ifThen)
  | ifElse condition body otherwise ihb iho =>
    cases h with
    | same => exact .refl hE .same
    | ifElse h ho =>
      refine (expandStatements_alike (fun s hs _ => ihb s hs) h).bind fun _ _ hbody => ?_
      refine (expandStatements_alike (fun s hs _ => iho s hs) ho).bind fun _ _ hotherwise => ?_
      exact .ok (.ifElse hbody hotherwise)
  | whileLoop condition body ih =>
    cases h with
    | same => exact .refl hE .same
    | whileLoop h =>
      exact Alike.map_iff.2 ((expandStatements_alike (fun s hs _ => ih s hs) h).imp
        fun _ _ => .whileLoop)
  | forEach item iterable body ih =>
    cases h with
    | same => exact .refl hE .same
    | forEach h =>
      exact Alike.map_iff.2 ((expandStatements_alike (fun s hs _ => ih s hs) h).imp
        fun _ _ => .forEach)
  | ask | confirm | createFile | assign | call | stop | waitForResponse | unknown =>
    cases h
    exact .refl hE .same

end Expansion

/-! ### Libraries -/

namespace Library

open Expansion Outcome

variable {lib : Library} {bound : Nat} {chain : List Path} {directory directory' : Path}

/-- References are followed in the same way from two spellings of a directory. -/
theorem inclusion_congr (h : directory.normalize = directory'.normalize) :
    lib.inclusion bound chain directory = lib.inclusion bound chain directory' := by
  funext file
  have htarget : target directory file = target directory' file :=
    Path.normalize_join_congr h ⟨file⟩
  cases bound with
  | zero => rw [inclusion, inclusion, htarget]
  | succ bound => rw [inclusion, inclusion, htarget]

/-- Two spellings of a reference include the same, or fail for the same reason. -/
theorem inclusion_alike {file file' : String} (h : target directory file = target directory file') :
    Alike ExpansionError.SameButSpelling Eq (lib.inclusion bound chain directory file)
      (lib.inclusion bound chain directory file') := by
  cases bound with
  | zero =>
    rw [inclusion, inclusion, h]
    exact .error (.same _)
  | succ bound =>
    rw [inclusion, inclusion, h]
    by_cases hmem : target directory file' ∈ chain
    · simp only [hmem, if_true]
      exact .error (.circular _ _ _)
    · simp only [hmem, if_false]
      exact .refl .same fun _ => rfl

/-- A task expands to the same, but for the spelling of its file. -/
theorem expandTask_respelled {t t' : Task} (h : t.Respelled directory t') :
    Alike ExpansionError.SameButSpelling (Task.SameButSpelling directory)
      (expandTask (lib.inclusion bound chain directory) t)
      (expandTask (lib.inclusion bound chain directory) t') := by
  obtain ⟨file, file', hfile, hfile', htarget⟩ := h.file
  rw [expandTask_of_file hfile, expandTask_of_file hfile', Alike.map_iff]
  refine (inclusion_alike htarget).imp ?_
  rintro found _ rfl
  exact
    { description := by rw [h.description]
      agent := h.agent
      file := ⟨file, file', rfl, rfl, htarget⟩
      body := rfl }

/-- Commands that spell their references differently expand alike. -/
theorem expand_alike (lib : Library) {c c' : Command}
    (h : c.DiffersAtFiles (Task.Respelled directory) c') :
    Alike ExpansionError.SameButSpelling (Command.DiffersAtFiles (Task.SameButSpelling directory))
      (lib.expand c directory) (lib.expand c' directory) := by
  have hbody : Alike ExpansionError.SameButSpelling
      (List.Forall₂ (Statement.DiffersAtFiles (Task.SameButSpelling directory)))
      (expandStatements (lib.inclusion (lib.capacity + 1) [] directory) c.body)
      (expandStatements (lib.inclusion (lib.capacity + 1) [] directory) c'.body) :=
    expandStatements_alike
      (fun s _ s' hs => expandStatement_alike (fun _ _ => expandTask_respelled) .same hs) h.body
  exact hbody.bind fun _ _ hresults => .ok ⟨h.name, hresults⟩

/-- Expansion does not depend on how paths are spelled.  A path that is joined to another one leads
to the same place when that one is normalized first; a command expands from two spellings of a
directory to the same, or fails with the same error; and commands that name the same files by other
spellings both expand or both fail, where the results are the same but for these spellings, and so
are the errors. -/
theorem expand_eq_of_normalize_eq (lib : Library) :
    (∀ base p : Path, (base.join p).normalize = (base.normalize.join p).normalize) ∧
    (∀ (c : Command) (directory directory' : Path), directory.normalize = directory'.normalize →
      lib.expand c directory = lib.expand c directory') ∧
    ∀ (c c' : Command) (directory : Path), c.DiffersAtFiles (Task.Respelled directory) c' →
      ((∃ result, lib.expand c directory = .ok result) ↔
        ∃ result', lib.expand c' directory = .ok result') ∧
      (∀ result result', lib.expand c directory = .ok result →
        lib.expand c' directory = .ok result' →
          result.DiffersAtFiles (Task.SameButSpelling directory) result') ∧
      ∀ e e', lib.expand c directory = .error e → lib.expand c' directory = .error e' →
        e.SameButSpelling e' := by
  refine ⟨fun base p => (base.normalize_join_normalize p).symm, fun c directory directory' h => ?_,
    fun c c' directory h => ?_⟩
  · rw [expand, expand, inclusion_congr h]
  · have hboth := expand_alike lib h
    exact ⟨hboth.succeeds_iff, fun _ _ => hboth.rel_of_ok, fun _ _ => hboth.rel_of_error⟩

/-- The command `usesTwoLevels` with other spellings of its references, and another body for the
task that has one beside its file. -/
def respelledTwoLevels : Command :=
  ⟨"c", [.ifElse "x" [.unknown "later"] [.parallel [Task.fromFile "../x//d/a" .plan,
    Task.inline "t" .bash [.task ⟨"own", .bash, [.stop], some "d/../b/"⟩]]]]⟩

theorem differsAtFiles_respelledTwoLevels :
    usesTwoLevels.DiffersAtFiles (Task.Respelled ⟨"x"⟩) respelledTwoLevels := by
  have hplan : (Task.fromFile "d/a" .plan).Respelled ⟨"x"⟩ (Task.fromFile "../x//d/a" .plan) :=
    ⟨rfl, rfl, _, _, rfl, rfl, by decide +kernel⟩
  have hbash : Task.Respelled ⟨"x"⟩ ⟨"own", .bash, [.waitForResponse], some "./b"⟩
      ⟨"own", .bash, [.stop], some "d/../b/"⟩ :=
    ⟨rfl, rfl, _, _, rfl, rfl, by decide +kernel⟩
  have htasks := Statement.DiffersAtFiles.parallel
    (.cons (.file hplan) (.cons (.inline (t := Task.inline "t" .bash _) rfl
      (.cons (.file hbash) .nil)) .nil))
  exact ⟨rfl, .cons (.ifElse (.cons (.same _) .nil) (.cons htasks .nil)) .nil⟩

/-- The same files are included from another spelling of the directory, and by other spellings of
the references. -/
theorem expand_eq_of_normalize_eq_usesTwoLevels :
    (twoLevels.library []).expand usesTwoLevels ⟨"x"⟩ =
        (twoLevels.library []).expand usesTwoLevels ⟨"./y/..//x/"⟩ ∧
      ∃ result result', (twoLevels.library []).expand usesTwoLevels ⟨"x"⟩ = .ok result ∧
        (twoLevels.library []).expand respelledTwoLevels ⟨"x"⟩ = .ok result' ∧
        result.DiffersAtFiles (Task.SameButSpelling ⟨"x"⟩) result' := by
  obtain ⟨-, hdirectory, hreferences⟩ := expand_eq_of_normalize_eq (twoLevels.library [])
  obtain ⟨hboth, hresults, -⟩ := hreferences _ _ _ differsAtFiles_respelledTwoLevels
  obtain ⟨result, h⟩ := exists_expand_usesTwoLevels
  obtain ⟨result', h'⟩ := hboth.1 ⟨result, h⟩
  exact ⟨hdirectory _ _ _ (by decide +kernel), result, result', h, h', hresults _ _ h h'⟩

end Library

end Playbook
