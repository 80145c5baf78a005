import Playbook.Command.Decoding
import Playbook.Proofs.Command
import Playbook.Proofs.Json.Data
import Playbook.Proofs.Json.Printing
import Playbook.Proofs.Outcome

/-!
# Commands from their own JSON values

A statement is read back from the JSON value that it is written as.  What could go wrong is a
statement of unknown kind whose kind has the name of a known one: written without members, it must
not be read as a statement of that known kind.  A kind with members cannot be read without them, so
this is a matter of the two kinds without members only (`Statement.StaysUnknown`).
-/

namespace Playbook

/-! ### Members and items -/

theorem fieldsOfMembers?_nil {α : Type} (names : List String) :
    fieldsOfMembers? names ([] : List (Option String × α)) =
      some (List.replicate names.length none) := by
  induction names with
  | nil => rfl
  | cons name rest ih =>
    unfold fieldsOfMembers? at ih ⊢
    rw [List.mapM_cons, ih]
    rfl

/-- A member with another name does not count. -/
theorem fieldsOfMembers?_cons_of_not_mem {α : Type} {names : List String} {key : String}
    (h : key ∉ names) (value : α) (members : List (Option String × α)) :
    fieldsOfMembers? names ((some key, value) :: members) = fieldsOfMembers? names members := by
  unfold fieldsOfMembers?
  refine Outcome.mapM_congr fun name hname => ?_
  have hne : (some key == some name) = false := by
    rw [beq_eq_false_iff_ne]
    rintro he
    exact h (Option.some.inj he ▸ hname)
  rw [List.filter_cons_of_neg (by simp [hne])]

/-- The member with the first name is read when no other one has that name. -/
theorem fieldsOfMembers?_cons {α : Type} {key : String} (rest : List String) (value : α)
    {members : List (Option String × α)} (h : ∀ m ∈ members, m.1 ≠ some key) :
    fieldsOfMembers? (key :: rest) ((some key, value) :: members) =
      (fieldsOfMembers? rest ((some key, value) :: members)).map (some value :: ·) := by
  have hfilter : ((some key, value) :: members).filter (·.1 == some key) = [(some key, value)] := by
    rw [List.filter_cons_of_pos (by simp), List.filter_eq_nil_iff.2]
    intro m hm
    simpa using h m hm
  unfold fieldsOfMembers?
  rw [List.mapM_cons, hfilter]
  show Option.bind (some (some value)) _ = _
  rw [Option.bind_some, Option.map_eq_bind]
  rfl

/-- Members in the order of the names read like the items of an array. -/
theorem fieldsOfMembers?_zip {α : Type} {names : List String} (hn : names.Nodup)
    {values : List α} (hl : values.length ≤ names.length) :
    fieldsOfMembers? names ((names.zip values).map fun (key, value) => (some key, value)) =
      fieldsOfItems? names values := by
  induction names generalizing values with
  | nil =>
    obtain rfl : values = [] := List.eq_nil_of_length_eq_zero (by simpa using hl)
    rfl
  | cons name rest ih =>
    cases values with
    | nil => simp [fieldsOfMembers?_nil, fieldsOfItems?]
    | cons value values =>
      obtain ⟨hname, hrest⟩ := List.nodup_cons.1 hn
      have hl' : values.length ≤ rest.length := by simpa using hl
      have hkeys : ∀ m ∈ (rest.zip values).map fun (key, value) => (some key, value),
          m.1 ≠ some name := by
        intro m hm he
        obtain ⟨⟨key, v⟩, hkv, rfl⟩ := List.mem_map.1 hm
        exact hname (Option.some.inj he ▸ (List.of_mem_zip hkv).1)
      rw [List.zip_cons_cons, List.map_cons, fieldsOfMembers?_cons rest value hkeys,
        fieldsOfMembers?_cons_of_not_mem hname, ih hrest hl']
      simp [fieldsOfItems?, hl']

theorem Kind.nodup_fields (k : Kind) : k.fields.Nodup := by
  cases k <;> decide

theorem Kind.type_not_mem_fields (k : Kind) : "type" ∉ k.fields := by
  cases k <;> decide

/-! ### Views -/

namespace View

@[simp] theorem json_ofJson (j : Json) : (ofJson j).json = j := by
  cases j <;> rfl

@[simp] theorem ofItems_eq_map (items : List Json) : ofItems items = items.map ofJson := by
  induction items with
  | nil => rfl
  | cons item rest ih => rw [ofItems, ih, List.map_cons]

@[simp] theorem ofMembers_eq_map (members : List (Option String × Json)) :
    ofMembers members = members.map fun (key, value) => (key, ofJson value) := by
  induction members with
  | nil => rfl
  | cons member rest ih =>
    obtain ⟨key, value⟩ := member
    rw [ofMembers, ih, List.map_cons]

@[simp] theorem string?_text (s : String) : (ofJson (.text s)).string? = some s := rfl

theorem statements_array (items : List Json) :
    (ofJson (.array items)).statements = items.mapM fun j => (ofJson j).statement := by
  show (ofItems items).mapM statement = _
  rw [ofItems_eq_map, List.mapM_map]
  rfl

theorem tasks_array (items : List Json) :
    (ofJson (.array items)).tasks = items.mapM fun j => (ofJson j).task := by
  show (ofItems items).mapM task = _
  rw [ofItems_eq_map, List.mapM_map]
  rfl

/-- A statement from an object with one `type`. -/
theorem statementOfMembers?_of_tag {members : List (Option String × View)} {tag : View}
    (h : fieldsOfMembers? ["type"] members = some [some tag]) :
    statementOfMembers? members =
      ((kind? tag.json).bind fun k =>
        (fieldsOfMembers? k.fields (members.filter (·.1 != some "type"))).bind
          (statementOfFields? k)).or (tag.string?.map .unknown) := by
  unfold statementOfMembers?
  rw [h]
  simp only [Option.orElse_eq_orElse, Option.orElse_eq_or]
  rfl

/-- A statement from an object whose first member, and no other one, is its `type`. -/
theorem statementOfMembers?_cons (tag : View) {members : List (Option String × View)}
    (h : ∀ m ∈ members, m.1 ≠ some "type") :
    statementOfMembers? ((some "type", tag) :: members) =
      ((kind? tag.json).bind fun k =>
        (fieldsOfMembers? k.fields members).bind (statementOfFields? k)).or
          (tag.string?.map .unknown) := by
  have hrest : ((some "type", tag) :: members).filter (·.1 != some "type") = members := by
    rw [List.filter_cons_of_neg (by simp), List.filter_eq_self]
    intro m hm
    simpa using h m hm
  rw [statementOfMembers?_of_tag (fieldsOfMembers?_cons [] tag h), hrest]

/-- Members written in the order of their names. -/
theorem ofMembers_zip (names : List String) (values : List Json) :
    ofMembers ((names.zip values).map fun (key, value) => (some key, value)) =
      (names.zip (values.map ofJson)).map fun (key, view) => (some key, view) := by
  simp [List.zip_map_right]

/-- A statement of a kind is read from the values of its members. -/
theorem statement_toJson {k : Kind} {values : List Json} {s : Statement}
    (h : (fieldsOfItems? k.fields (values.map ofJson)).bind (statementOfFields? k) = some s) :
    (ofJson (k.toJson values)).statement = some s := by
  have hlength : (values.map ofJson).length ≤ k.fields.length := by
    by_contra hlt
    rw [fieldsOfItems?, if_neg hlt] at h
    cases h
  have hkeys : ∀ m ∈ (k.fields.zip (values.map ofJson)).map fun (key, view) => (some key, view),
      m.1 ≠ some "type" := by
    intro m hm he
    obtain ⟨⟨key, view⟩, hkv, rfl⟩ := List.mem_map.1 hm
    exact k.type_not_mem_fields (Option.some.inj he ▸ (List.of_mem_zip hkv).1)
  have hkind : kind? (ofJson (.text k.name)).json = some k := k.ofName?_name
  show statementOfMembers? ((some "type", ofJson (.text k.name)) :: ofMembers _) = _
  rw [ofMembers_zip, statementOfMembers?_cons _ hkeys, hkind, Option.bind_some,
    fieldsOfMembers?_zip k.nodup_fields hlength, h]
  rfl

/-- A kind with members cannot do without all of them. -/
theorem statementOfFields?_of_missing {k : Kind} (h : k.fields ≠ []) :
    statementOfFields? k (List.replicate k.fields.length none) = none := by
  cases k with
  | stop => exact absurd rfl h
  | waitForResponse => exact absurd rfl h
  | _ => rfl

/-- A `type` alone is read as a statement of unknown kind, unless it names a kind without
members. -/
theorem statement_type {kind : String}
    (h : ∀ k, Kind.ofName? kind = some k → k.fields ≠ []) :
    (ofJson (.record [("type", .text kind)])).statement = some (.unknown kind) := by
  show statementOfMembers? [(some "type", ofJson (.text kind))] = _
  rw [statementOfMembers?_cons _ (by simp)]
  have hknown : ((Kind.ofName? kind).bind fun k =>
      (fieldsOfMembers? k.fields []).bind (statementOfFields? k)) = none := by
    cases hk : Kind.ofName? kind with
    | none => rfl
    | some k =>
      rw [Option.bind_some, fieldsOfMembers?_nil, Option.bind_some,
        statementOfFields?_of_missing (h k hk)]
  show ((Kind.ofName? kind).bind _).or _ = _
  rw [hknown]
  rfl

end View

/-! ### Phrases, values and lists -/

@[simp] theorem Phrase.ofJson?_toJson (r : Json.Reading) (p : Phrase) :
    Phrase.ofJson? r p.toJson = some p := by
  cases p <;> rfl

@[simp] theorem strings?_textsToJson (texts : List String) :
    (textsToJson texts).strings? = some texts := by
  show (texts.map Json.text).mapM Json.string? = some texts
  exact Outcome.mapM_map_eq_some fun _ _ => rfl

@[simp] theorem Value.ofJson?_toJson (r : Json.Reading) (v : Value) :
    Value.ofJson? r v.toJson = some v := by
  cases v with
  | array items =>
    show (textsToJson items).strings?.map Value.array = _
    rw [strings?_textsToJson]
    rfl
  | _ => rfl

theorem statementsToJson_eq_map (body : List Statement) :
    statementsToJson body = body.map Statement.toJson := by
  induction body with
  | nil => rw [statementsToJson, List.map_nil]
  | cons s rest ih => rw [statementsToJson, ih, List.map_cons]

theorem tasksToJson_eq_map (tasks : List Task) : tasksToJson tasks = tasks.map taskToJson := by
  induction tasks with
  | nil => rw [tasksToJson, List.map_nil]
  | cons t rest ih => rw [tasksToJson, ih, List.map_cons]

/-! ### Statements -/

/-- A statement of unknown kind is not mistaken for one of a kind that needs no members. -/
def Statement.StaysUnknown : Statement → Prop
  | .unknown kind => ∀ k, Kind.ofName? kind = some k → k.fields ≠ []
  | _ => True

namespace View

theorem statements_statementsToJson {body : List Statement}
    (h : ∀ s ∈ body, (ofJson s.toJson).statement = some s) :
    (ofJson (.array (statementsToJson body))).statements = some body := by
  rw [statements_array, statementsToJson_eq_map]
  exact Outcome.mapM_map_eq_some h

/-- A task is read from the values of its members if its body is. -/
theorem taskOfFields?_taskValues (r : Json.Reading) (t : Task)
    (h : (ofJson (.array (statementsToJson t.body))).statements = some t.body) :
    (fieldsOfItems? taskFields ((taskValues t.description t.agent (statementsToJson t.body)
      t.file).map ofJson)).bind (taskOfFields? r) = some t := by
  obtain ⟨description, agent, body, file⟩ := t
  have hagent : Agent.ofJson? r (.text agent.keyword) = some agent := agent.ofKeyword?_keyword
  cases file with
  | none => simp [fieldsOfItems?, taskFields, taskValues, taskOfFields?, h, hagent, Json.optional?]
  | some file =>
    have hfile : Json.optional? Json.string? (some (.text file)) = some (some file) := rfl
    simp [fieldsOfItems?, taskFields, taskValues, taskOfFields?, h, hagent, hfile]

theorem task_taskToJson {t : Task}
    (h : (ofJson (.array (statementsToJson t.body))).statements = some t.body) :
    (ofJson (taskToJson t)).task = some t := by
  have hlength : ((taskValues t.description t.agent (statementsToJson t.body) t.file).map
      ofJson).length ≤ taskFields.length := by
    cases t.file <;> simp [taskValues, taskFields]
  have hnodup : taskFields.Nodup := Kind.nodup_fields .task
  rw [taskToJson]
  show taskOfMembers? (ofMembers (List.map _ (taskFields.zip _))) = _
  rw [ofMembers_zip, taskOfMembers?, fieldsOfMembers?_zip hnodup hlength,
    taskOfFields?_taskValues .lenient t h]

end View

/-- Every statement whose unknown kinds are unknown is read back from its JSON value. -/
theorem Statement.Everywhere.statement_toJson {s : Statement} (h : s.Everywhere StaysUnknown) :
    (View.ofJson s.toJson).statement = some s := by
  induction s with
  | ask question =>
    rw [toJson]
    exact View.statement_toJson (by simp [fieldsOfItems?, Kind.fields, View.statementOfFields?])
  | confirm message =>
    rw [toJson]
    exact View.statement_toJson rfl
  | createFile filename content =>
    rw [toJson]
    exact View.statement_toJson (by simp [fieldsOfItems?, Kind.fields, View.statementOfFields?])
  | assign name value =>
    rw [toJson]
    exact View.statement_toJson (by simp [fieldsOfItems?, Kind.fields, View.statementOfFields?])
  | call name args =>
    rw [toJson]
    exact View.statement_toJson (by simp [fieldsOfItems?, Kind.fields, View.statementOfFields?])
  | ifThen condition body ih =>
    have hbody := View.statements_statementsToJson fun s hs => ih s hs (h.inside s hs)
    rw [toJson]
    exact View.statement_toJson
      (by simp [fieldsOfItems?, Kind.fields, View.statementOfFields?, hbody])
  | ifElse condition body otherwise ihBody ihOtherwise =>
    have hbody := View.statements_statementsToJson fun s hs =>
      ihBody s hs (h.inside s (List.mem_append_left otherwise hs))
    have hotherwise := View.statements_statementsToJson fun s hs =>
      ihOtherwise s hs (h.inside s (List.mem_append_right body hs))
    rw [toJson]
    exact View.statement_toJson
      (by simp [fieldsOfItems?, Kind.fields, View.statementOfFields?, hbody, hotherwise])
  | whileLoop condition body ih =>
    have hbody := View.statements_statementsToJson fun s hs => ih s hs (h.inside s hs)
    rw [toJson]
    exact View.statement_toJson
      (by simp [fieldsOfItems?, Kind.fields, View.statementOfFields?, hbody])
  | forEach item iterable body ih =>
    have hbody := View.statements_statementsToJson fun s hs => ih s hs (h.inside s hs)
    rw [toJson]
    exact View.statement_toJson
      (by simp [fieldsOfItems?, Kind.fields, View.statementOfFields?, hbody])
  | stop =>
    rw [toJson]
    exact View.statement_toJson rfl
  | waitForResponse =>
    rw [toJson]
    exact View.statement_toJson rfl
  | task t ih =>
    have hbody := View.statements_statementsToJson fun s hs => ih s hs (h.inside s hs)
    have hvalues := View.taskOfFields?_taskValues .lenient t hbody
    rw [toJson]
    refine View.statement_toJson ?_
    show (fieldsOfItems? taskFields _).bind
      (Option.map Statement.task ∘ View.taskOfFields? .lenient) = _
    rw [← Option.map_bind, hvalues, Option.map_some]
  | parallel tasks ih =>
    have htasks : (View.ofJson (.array (tasksToJson tasks))).tasks = some tasks := by
      rw [View.tasks_array, tasksToJson_eq_map]
      refine Outcome.mapM_map_eq_some fun t ht => View.task_taskToJson ?_
      refine View.statements_statementsToJson fun s hs => ih t ht s hs ?_
      exact (h.inside (.task t) (List.mem_map_of_mem ht)).inside s hs
    rw [toJson]
    exact View.statement_toJson
      (by simp [fieldsOfItems?, Kind.fields, View.statementOfFields?, htasks])
  | unknown kind =>
    rw [toJson]
    exact View.statement_type h.here

/-! ### Commands as text -/

namespace Json

theorem IsPlain.sound {j : Json} (h : j.IsPlain) : j.sound = true := by
  induction h with
  | null => rfl
  | bool b => rfl
  | text s => rfl
  | array _ ih => exact soundItems_iff.2 ih
  | record _ ih => exact soundMembers_iff.2 (List.forall_mem_map.2 fun m hm => ⟨rfl, ih m hm⟩)

/-- Members in the order of their names are as plain as their values. -/
theorem IsPlain.zip {names : List String} {values : List Json} (h : ∀ j ∈ values, j.IsPlain) :
    ∀ m ∈ names.zip values, m.2.IsPlain :=
  fun _ hm => h _ (List.of_mem_zip hm).2

end Json

theorem Kind.isPlain_toJson (k : Kind) {values : List Json} (h : ∀ j ∈ values, j.IsPlain) :
    (k.toJson values).IsPlain := by
  refine .record fun m hm => ?_
  rcases List.mem_cons.1 hm with rfl | hm
  · exact .text k.name
  · exact Json.IsPlain.zip h m hm

theorem isPlain_textsToJson (texts : List String) : (textsToJson texts).IsPlain := by
  refine .array fun j hj => ?_
  obtain ⟨text, -, rfl⟩ := List.mem_map.1 hj
  exact .text text

theorem Phrase.isPlain_toJson (p : Phrase) : p.toJson.IsPlain := by
  cases p <;> exact .record (by simp [Json.IsPlain.text])

theorem Value.isPlain_toJson (v : Value) : v.toJson.IsPlain := by
  cases v <;> exact .record (by simp [Json.IsPlain.text, Json.IsPlain.bool, isPlain_textsToJson])

theorem isPlain_statementsToJson {body : List Statement} (h : ∀ s ∈ body, s.toJson.IsPlain) :
    (Json.array (statementsToJson body)).IsPlain := by
  rw [statementsToJson_eq_map]
  exact .array (List.forall_mem_map.2 h)

theorem isPlain_taskValues {t : Task} (h : ∀ s ∈ t.body, s.toJson.IsPlain) :
    ∀ j ∈ taskValues t.description t.agent (statementsToJson t.body) t.file, j.IsPlain := by
  simp [taskValues, Json.IsPlain.text, isPlain_statementsToJson h]

theorem Statement.isPlain_toJson (s : Statement) : s.toJson.IsPlain := by
  induction s with
  | ask question =>
    rw [toJson]
    exact Kind.isPlain_toJson _ (by simp [question.isPlain_toJson])
  | confirm message =>
    rw [toJson]
    exact Kind.isPlain_toJson _ (by simp [Json.IsPlain.text])
  | createFile filename content =>
    rw [toJson]
    exact Kind.isPlain_toJson _ (by simp [Json.IsPlain.text, content.isPlain_toJson])
  | assign name value =>
    rw [toJson]
    exact Kind.isPlain_toJson _ (by simp [Json.IsPlain.text, value.isPlain_toJson])
  | call name args =>
    rw [toJson]
    exact Kind.isPlain_toJson _ (by simp [Json.IsPlain.text, isPlain_textsToJson])
  | ifThen condition body ih =>
    rw [toJson]
    exact Kind.isPlain_toJson _ (by simp [Json.IsPlain.text, isPlain_statementsToJson ih])
  | ifElse condition body otherwise ihBody ihOtherwise =>
    rw [toJson]
    exact Kind.isPlain_toJson _ (by simp [Json.IsPlain.text, isPlain_statementsToJson ihBody,
      isPlain_statementsToJson ihOtherwise])
  | whileLoop condition body ih =>
    rw [toJson]
    exact Kind.isPlain_toJson _ (by simp [Json.IsPlain.text, isPlain_statementsToJson ih])
  | forEach item iterable body ih =>
    rw [toJson]
    exact Kind.isPlain_toJson _ (by simp [Json.IsPlain.text, isPlain_statementsToJson ih])
  | stop =>
    rw [toJson]
    exact Kind.isPlain_toJson _ (by simp)
  | waitForResponse =>
    rw [toJson]
    exact Kind.isPlain_toJson _ (by simp)
  | task t ih =>
    rw [toJson]
    exact Kind.isPlain_toJson _ (isPlain_taskValues ih)
  | parallel tasks ih =>
    have htasks : (Json.array (tasksToJson tasks)).IsPlain := by
      rw [tasksToJson_eq_map]
      refine .array (List.forall_mem_map.2 fun t ht => ?_)
      rw [taskToJson]
      exact .record (Json.IsPlain.zip (isPlain_taskValues (ih t ht)))
    rw [toJson]
    exact Kind.isPlain_toJson _ (by simp [htasks])
  | unknown kind =>
    rw [toJson]
    exact .record (by simp [Json.IsPlain.text])

theorem Command.isPlain_toJson (c : Command) : c.toJson.IsPlain :=
  .record (by simp [Json.IsPlain.text, isPlain_statementsToJson fun s _ => s.isPlain_toJson])

/-- A command whose unknown kinds are unknown is read back from its JSON value, if that does not
nest too deeply to be read. -/
theorem Command.Everywhere.ofJson?_toJson {c : Command} (h : c.Everywhere Statement.StaysUnknown)
    (hd : c.toJson.depth ≤ depthLimit) : Command.ofJson? c.toJson = some c := by
  have hbody := View.statements_statementsToJson fun s hs => (h s hs).statement_toJson
  have hplain := isPlain_statementsToJson fun (s : Statement) (_ : s ∈ c.body) => s.isPlain_toJson
  have hdepth : (Json.array (statementsToJson c.body)).depth ≤ depthLimit - 1 := by
    have hc : c.toJson.depth =
        max 0 (max (Json.array (statementsToJson c.body)).depth 0) + 1 := rfl
    omega
  have hread : bodyOfJson? (.array (statementsToJson c.body)) = some c.body := by
    rw [bodyOfJson?, Json.readable, hplain.sound, decide_eq_true hdepth, hbody]
    rfl
  show (bodyOfJson? (.array (statementsToJson c.body))).bind
    (fun body => some (⟨c.name, body⟩ : Command)) = _
  rw [hread]
  rfl

theorem Command.Everywhere.ofText?_pretty {c : Command} (h : c.Everywhere Statement.StaysUnknown)
    (hd : c.toJson.depth ≤ depthLimit) : Command.ofText? c.toJson.pretty = some c := by
  rw [ofText?, Json.read_pretty c.isPlain_toJson]
  exact h.ofJson?_toJson hd

end Playbook
