import Playbook.Command

/-!
# Induction on statements

Statements contain lists of statements, and tasks with lists of statements.  `Statement.induct` is
the induction over this nesting in terms of membership, one case per kind of statement; proofs about
trees go by it.  `Statement.texts` lists the texts that a statement holds itself, and
`Statement.Everywhere` says that something holds at every depth of a statement.
-/

namespace Playbook

/-- What holds of a statement whenever it holds of all statements inside it holds of every
statement. -/
@[elab_as_elim, induction_eliminator]
theorem Statement.induct {motive : Statement → Prop}
    (ask : ∀ question, motive (.ask question))
    (confirm : ∀ message, motive (.confirm message))
    (createFile : ∀ filename content, motive (.createFile filename content))
    (assign : ∀ name value, motive (.assign name value))
    (call : ∀ name args, motive (.call name args))
    (ifThen : ∀ condition body, (∀ s ∈ body, motive s) → motive (.ifThen condition body))
    (ifElse : ∀ condition body otherwise, (∀ s ∈ body, motive s) → (∀ s ∈ otherwise, motive s) →
      motive (.ifElse condition body otherwise))
    (whileLoop : ∀ condition body, (∀ s ∈ body, motive s) → motive (.whileLoop condition body))
    (forEach : ∀ item iterable body, (∀ s ∈ body, motive s) →
      motive (.forEach item iterable body))
    (stop : motive .stop)
    (waitForResponse : motive .waitForResponse)
    (task : ∀ t : Task, (∀ s ∈ t.body, motive s) → motive (.task t))
    (parallel : ∀ tasks : List Task, (∀ t ∈ tasks, ∀ s ∈ t.body, motive s) →
      motive (.parallel tasks))
    (unknown : ∀ kind, motive (.unknown kind)) (s : Statement) : motive s := by
  refine @Statement.rec motive (fun body => ∀ s ∈ body, motive s)
    (fun t => ∀ s ∈ t.body, motive s) (fun tasks => ∀ t ∈ tasks, ∀ s ∈ t.body, motive s)
    ask confirm createFile assign call ifThen ifElse whileLoop forEach stop waitForResponse task
    parallel unknown ?_ ?_ ?_ ?_ ?_ s
  · intro s hs
    cases hs
  · intro first rest hfirst hrest s hs
    rcases List.mem_cons.1 hs with rfl | hs
    · exact hfirst
    · exact hrest s hs
  · intro _ _ _ _ hbody
    exact hbody
  · intro t ht
    cases ht
  · intro first rest hfirst hrest t ht
    rcases List.mem_cons.1 ht with rfl | ht
    · exact hfirst
    · exact hrest t ht

/-- The statements that stand directly in a statement; the tasks of a parallel block count as
statements. -/
def Statement.children : Statement → List Statement
  | .ifThen _ body => body
  | .ifElse _ body otherwise => body ++ otherwise
  | .whileLoop _ body => body
  | .forEach _ _ body => body
  | .task t => t.body
  | .parallel tasks => tasks.map .task
  | .ask _ | .confirm _ | .createFile _ _ | .assign _ _ | .call _ _ => []
  | .stop | .waitForResponse | .unknown _ => []

/-- What holds of a statement whenever it holds of those that stand directly in it holds of every
statement. -/
theorem Statement.induct_children {motive : Statement → Prop}
    (h : ∀ s, (∀ inner ∈ s.children, motive inner) → motive s) (s : Statement) : motive s := by
  induction s with
  | ifThen condition body ih | whileLoop condition body ih | forEach item iterable body ih =>
    exact h _ ih
  | ifElse condition body otherwise ihb iho => exact h _ (List.forall_mem_append.2 ⟨ihb, iho⟩)
  | task t ih => exact h _ ih
  | parallel tasks ih => exact h _ (List.forall_mem_map.2 fun t ht => h (.task t) (ih t ht))
  | ask | confirm | createFile | assign | call | stop | waitForResponse | unknown =>
    exact h _ (List.forall_mem_nil _)

/-- The texts that a value holds. -/
def Value.texts : Value → List String
  | .str text => [text]
  | .bool _ => []
  | .array items => items
  | .expr expression => [expression]

/-- The texts that a statement holds, apart from those of the statements in it. -/
def Statement.texts : Statement → List String
  | .ask question => [question.text]
  | .confirm message => [message]
  | .createFile filename content => [filename, content.text]
  | .assign name value => name :: value.texts
  | .call name args => name :: args
  | .ifThen condition _ | .ifElse condition _ _ | .whileLoop condition _ => [condition]
  | .forEach item iterable _ => [item, iterable]
  | .task t => t.description :: t.file.toList
  | .stop | .waitForResponse | .parallel _ => []
  | .unknown kind => [kind]

/-- Something holds of a statement and of all statements in it, at any depth. -/
inductive Statement.Everywhere (P : Statement → Prop) : Statement → Prop
  | intro {s : Statement} (here : P s) (inside : ∀ inner ∈ s.children, Everywhere P inner) :
    Everywhere P s

namespace Statement.Everywhere

variable {P Q : Statement → Prop} {s : Statement}

theorem here (h : s.Everywhere P) : P s := by
  cases h with
  | intro here _ => exact here

theorem inside (h : s.Everywhere P) : ∀ inner ∈ s.children, inner.Everywhere P := by
  cases h with
  | intro _ inside => exact inside

theorem imp (hPQ : ∀ s, P s → Q s) (h : s.Everywhere P) : s.Everywhere Q := by
  induction h with
  | intro here _ ih => exact .intro (hPQ _ here) ih

theorem and (hP : s.Everywhere P) (hQ : s.Everywhere Q) : s.Everywhere fun s => P s ∧ Q s := by
  induction hP with
  | intro here _ ih => exact .intro ⟨here, hQ.here⟩ fun inner hi => ih inner hi (hQ.inside inner hi)

/-- A statement without statements in it needs nothing more than the property itself. -/
theorem of_leaf (h : P s) (hs : s.children = []) : s.Everywhere P :=
  .intro h (by simp [hs])

end Statement.Everywhere

/-- Something holds of all statements of a command, at any depth. -/
def Command.Everywhere (P : Statement → Prop) (c : Command) : Prop :=
  ∀ s ∈ c.body, s.Everywhere P

theorem Command.Everywhere.imp {P Q : Statement → Prop} (hPQ : ∀ s, P s → Q s) {c : Command}
    (h : c.Everywhere P) : c.Everywhere Q :=
  fun s hs => (h s hs).imp hPQ

end Playbook
