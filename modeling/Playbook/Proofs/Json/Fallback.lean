import Playbook.Proofs.Json.Parts

/-!
# No statement is lost

An object with a `type` is always read as a statement.  `Kind.Fits` tells which values the members
of a kind may have, and `Task.Fits` the same for a task; the statements inside are those that the
values inside are read as by themselves.  If the members of the object fit the kind that its `type`
names, it is a statement of this kind, and otherwise it is a statement of unknown kind, of which
nothing but the `type` is kept.

The readers work on views, where each part has been read already.  As a value that can be read can
be read in all its parts, a view holds what its parts are read as by themselves, and the readers
agree with the relations case by case.
-/

namespace Playbook

/-! ### Members that fit a kind -/

/-- A value is a list of statements, each of them read by itself. -/
def IsBody (j : Json) (body : List Statement) : Prop :=
  ∃ items, j = .array items ∧
    List.Forall₂ (fun item s => Statement.ofJson? item = some s) items body

/-- The values of the members of a task. -/
inductive Task.Fits : List (Option Json) → Task → Prop
  | intro {agent body file : Option Json} {t : Task}
      (hagent : (agent = none ∧ t.agent = .general) ∨ ∃ j, agent = some j ∧ IsAgent j t.agent)
      (hbody : (body = none ∧ t.body = []) ∨ ∃ j, body = some j ∧ IsBody j t.body)
      (hfile : ((file = none ∨ file = some .null) ∧ t.file = none) ∨
        ∃ name, file = some (.text name) ∧ t.file = some name) :
      Task.Fits [some (.text t.description), agent, body, file] t

/-- A value is a task: an object, or an array of its members in order, of which the last ones may be
missing. -/
inductive IsTask : Json → Task → Prop
  | object {members : List (Option String × Json)} {fields : List (Option Json)} {t : Task}
      (hmembers : List.Forall₂ (MemberIs members) taskFields fields) (h : t.Fits fields) :
      IsTask (.object members) t
  | array {items : List Json} {missing : Nat} {t : Task}
      (h : t.Fits (items.map some ++ List.replicate missing none)) : IsTask (.array items) t

/-- The values of the members of a statement of the given kind, in the order of `Kind.fields`. -/
inductive Kind.Fits : Kind → List (Option Json) → Statement → Prop
  | ask {j : Json} {question : Phrase} (h : IsPhrase j question) :
      Kind.Fits .ask [some j] (.ask question)
  | confirm {message : String} : Kind.Fits .confirm [some (.text message)] (.confirm message)
  | createFile {filename : String} {j : Json} {content : Phrase} (h : IsPhrase j content) :
      Kind.Fits .createFile [some (.text filename), some j] (.createFile filename content)
  | assign {name : String} {j : Json} {value : Value} (h : IsValue j value) :
      Kind.Fits .assign [some (.text name), some j] (.assign name value)
  | call {name : String} {args : List String} :
      Kind.Fits .call [some (.text name), some (textsToJson args)] (.call name args)
  | ifThen {condition : String} {j : Json} {otherwise : Option Json} {body : List Statement}
      (hbody : IsBody j body) (hotherwise : otherwise = none ∨ otherwise = some .null) :
      Kind.Fits .conditional [some (.text condition), some j, otherwise] (.ifThen condition body)
  | ifElse {condition : String} {j j' : Json} {body otherwise : List Statement}
      (hbody : IsBody j body) (hotherwise : IsBody j' otherwise) :
      Kind.Fits .conditional [some (.text condition), some j, some j']
        (.ifElse condition body otherwise)
  | whileLoop {condition : String} {j : Json} {body : List Statement} (hbody : IsBody j body) :
      Kind.Fits .whileLoop [some (.text condition), some j] (.whileLoop condition body)
  | forEach {item iterable : String} {j : Json} {body : List Statement} (hbody : IsBody j body) :
      Kind.Fits .forEach [some (.text item), some (.text iterable), some j]
        (.forEach item iterable body)
  | stop : Kind.Fits .stop [] .stop
  | waitForResponse : Kind.Fits .waitForResponse [] .waitForResponse
  | task {fields : List (Option Json)} {t : Task} (h : t.Fits fields) :
      Kind.Fits .task fields (.task t)
  | parallel {items : List Json} {tasks : List Task} (h : List.Forall₂ IsTask items tasks) :
      Kind.Fits .parallel [some (.array items)] (.parallel tasks)

/-- The members of an object fit a kind of statement: each of those that the kind has is given at
most once, and the values are right.  Others do not matter. -/
def Kind.FitsMembers (k : Kind) (members : List (Option String × Json)) (s : Statement) : Prop :=
  ∃ fields, List.Forall₂ (MemberIs members) k.fields fields ∧ k.Fits fields s

/-! ### Reading members -/

theorem Task.Fits.length_eq {fields : List (Option Json)} {t : Task} (h : t.Fits fields) :
    fields.length = taskFields.length := by
  cases h
  rfl

/-- Members are picked in the same way when their values are replaced. -/
theorem fieldsOfMembers?_map {α β : Type} (f : α → β) (names : List String)
    (members : List (Option String × α)) :
    fieldsOfMembers? names (members.map fun (key, value) => (key, f value)) =
      (fieldsOfMembers? names members).map (List.map (Option.map f)) := by
  induction names with
  | nil => rfl
  | cons name rest ih =>
    have hfilter : (members.map fun (key, value) => (key, f value)).filter (·.1 == some name) =
        (members.filter (·.1 == some name)).map fun (key, value) => (key, f value) := by
      rw [List.filter_map]
      rfl
    unfold fieldsOfMembers? at ih ⊢
    rw [List.mapM_cons, List.mapM_cons, ih, hfilter]
    generalize rest.mapM (m := Option) _ = others
    generalize members.filter (·.1 == some name) = found
    rcases found with _ | ⟨⟨key, v⟩, _ | ⟨second, more⟩⟩
    · cases others <;> rfl
    · cases others <;> rfl
    · rfl

/-! ### Reading by parts -/

namespace View

/-- What the values of members stand for. -/
def ofFields (fields : List (Option Json)) : List (Option View) := fields.map (Option.map ofJson)

/-- A value that can be read holds as a part what it is read as by itself. -/
theorem statement_ofJson {j : Json} (hj : j.readable depthLimit = true) :
    (ofJson j).statement = Statement.ofJson? j := by
  rw [Statement.ofJson?, if_pos hj]

theorem statements_eq_some_iff {j : Json} (hj : j.readable depthLimit = true)
    {body : List Statement} : (ofJson j).statements = some body ↔ IsBody j body := by
  cases j with
  | array items =>
    have hitems : items.mapM (fun item => (ofJson item).statement) =
        items.mapM Statement.ofJson? :=
      Outcome.mapM_congr fun item hitem => statement_ofJson (Json.readable_of_mem_items hj hitem)
    rw [statements_array, hitems, Outcome.mapM_eq_some_iff]
    simp [IsBody]
  | _ => simp [ofJson, IsBody]

theorem json_comp_ofJson : View.json ∘ ofJson = id := funext json_ofJson

/-- A member that may be missing. -/
theorem elim_map_eq_some_iff {α : Type} {value : Option Json} {absent result : α}
    {read : View → Option α} :
    (value.map ofJson).elim (some absent) read = some result ↔
      (value = none ∧ result = absent) ∨
        ∃ j, value = some j ∧ read (ofJson j) = some result := by
  cases value <;> simp [eq_comm]

/-- The parts of a task are read one by one. -/
theorem taskOfFields?_cons (r : Json.Reading) (description : View) (agent body file : Option View)
    (t : Task) :
    taskOfFields? r [some description, agent, body, file] = some t ↔
      description.string? = some t.description ∧
        agent.elim (some .general) (fun v => Agent.ofJson? r v.json) = some t.agent ∧
        body.elim (some []) View.statements = some t.body ∧
        Json.optional? Json.string? (file.map View.json) = some t.file := by
  obtain ⟨d, a, b, f⟩ := t
  cases agent <;> cases body <;> simp [taskOfFields?, Option.bind_eq_some_iff] <;> tauto

theorem exists_fields_of_taskOfFields? {r : Json.Reading} {fields : List (Option Json)} {t : Task}
    (h : taskOfFields? r (ofFields fields) = some t) :
    ∃ j agent body file, fields = [some j, agent, body, file] := by
  match fields, h with
  | [some j, agent, body, file], _ => exact ⟨j, agent, body, file, rfl⟩

/-- A task is read from the values of its members exactly if they fit. -/
theorem taskOfFields?_eq_some_iff {fields : List (Option Json)}
    (hf : ∀ j, some j ∈ fields → j.readable depthLimit = true) {t : Task} :
    taskOfFields? .lenient (ofFields fields) = some t ↔ t.Fits fields := by
  constructor
  · intro h
    obtain ⟨j, agent, body, file, rfl⟩ := exists_fields_of_taskOfFields? h
    obtain ⟨hdescription, hagent, hbody, hfile⟩ := (taskOfFields?_cons ..).1 h
    rw [string?, json_ofJson] at hdescription
    obtain rfl := Json.string?_eq_some_iff.1 hdescription
    rw [elim_map_eq_some_iff] at hagent hbody
    rw [Option.map_map, json_comp_ofJson, Option.map_id] at hfile
    simp only [json_ofJson, Agent.ofJson?_eq_some_iff] at hagent
    refine ⟨hagent, ?_, Json.optional?_string?_iff.1 hfile⟩
    rcases hbody with hnone | ⟨b, rfl, hb⟩
    · exact Or.inl hnone
    · exact Or.inr ⟨b, rfl, (statements_eq_some_iff (hf b (by simp))).1 hb⟩
  · rintro ⟨hagent, hbody, hfile⟩
    refine (taskOfFields?_cons ..).2 ⟨string?_text _, ?_, ?_, ?_⟩
    · rw [elim_map_eq_some_iff]
      simpa only [json_ofJson, Agent.ofJson?_eq_some_iff] using hagent
    · rw [elim_map_eq_some_iff]
      rcases hbody with hnone | ⟨b, rfl, hb⟩
      · exact Or.inl hnone
      · exact Or.inr ⟨b, rfl, (statements_eq_some_iff (hf b (by simp))).2 hb⟩
    · rw [Option.map_map, json_comp_ofJson, Option.map_id]
      exact Json.optional?_string?_iff.2 hfile

/-- The values of members of a value that can be read can be read. -/
theorem readable_of_fieldsOfMembers? {names : List String}
    {members : List (Option String × Json)} {fields : List (Option Json)}
    (hj : ∀ m ∈ members, m.2.readable depthLimit = true)
    (h : fieldsOfMembers? names members = some fields) :
    ∀ j, some j ∈ fields → j.readable depthLimit = true := by
  intro j hmem
  obtain ⟨m, hm, rfl⟩ := mem_of_fieldsOfMembers? h hmem
  exact hj m hm

/-- What is read from the members of an object is what they fit. -/
theorem fieldsOfMembers?_bind_eq_some_iff {α : Type} (names : List String)
    {members : List (Option String × Json)} (hj : ∀ m ∈ members, m.2.readable depthLimit = true)
    {read : List (Option View) → Option α} {Fits : List (Option Json) → α → Prop}
    (hread : ∀ fields, (∀ j, some j ∈ fields → j.readable depthLimit = true) →
      ∀ a, read (ofFields fields) = some a ↔ Fits fields a) (a : α) :
    (fieldsOfMembers? names (ofMembers members)).bind read = some a ↔
      ∃ fields, List.Forall₂ (MemberIs members) names fields ∧ Fits fields a := by
  rw [ofMembers_eq_map, fieldsOfMembers?_map, Option.bind_eq_some_iff]
  constructor
  · rintro ⟨views, hviews, h⟩
    obtain ⟨fields, hfields, rfl⟩ := Option.map_eq_some_iff.1 hviews
    refine ⟨fields, fieldsOfMembers?_eq_some_iff.1 hfields, ?_⟩
    exact (hread fields (readable_of_fieldsOfMembers? hj hfields) a).1 h
  · rintro ⟨fields, hmembers, h⟩
    have hfields := fieldsOfMembers?_eq_some_iff.2 hmembers
    refine ⟨ofFields fields, by rw [hfields]; rfl, ?_⟩
    exact (hread fields (readable_of_fieldsOfMembers? hj hfields) a).2 h

theorem task_eq_some_iff {j : Json} (hj : j.readable depthLimit = true) {t : Task} :
    (ofJson j).task = some t ↔ IsTask j t := by
  cases j with
  | object members =>
    have hiff := fieldsOfMembers?_bind_eq_some_iff taskFields
      (fun m hm => Json.readable_of_mem_members hj hm)
      (fun fields hf t => taskOfFields?_eq_some_iff hf) t
    constructor
    · intro h
      obtain ⟨fields, hmembers, h⟩ := hiff.1 h
      exact .object hmembers h
    · rintro (⟨hmembers, h⟩ | _)
      exact hiff.2 ⟨_, hmembers, h⟩
  | array items =>
    have hf : ∀ missing j, some j ∈ items.map some ++ List.replicate missing none →
        j.readable depthLimit = true := by
      intro missing j hmem
      exact Json.readable_of_mem_items hj (by simpa using hmem)
    have hviews : ∀ missing, ofFields (items.map some ++ List.replicate missing none) =
        (ofItems items).map some ++ List.replicate missing none := by
      intro missing
      simp [ofFields]
    show (fieldsOfItems? taskFields (ofItems items)).bind (taskOfFields? .lenient) = some t ↔ _
    constructor
    · intro h
      obtain ⟨views, hfields, h⟩ := Option.bind_eq_some_iff.1 h
      unfold fieldsOfItems? at hfields
      split at hfields
      · obtain rfl := Option.some.inj hfields
        rw [← hviews] at h
        exact .array ((taskOfFields?_eq_some_iff (hf _)).1 h)
      · cases hfields
    · rintro (_ | @⟨_, missing, _, h⟩)
      have hlength : items.length + missing = taskFields.length := by
        simpa using h.length_eq
      have hitems : fieldsOfItems? taskFields (ofItems items) =
          some (ofFields (items.map some ++ List.replicate missing none)) := by
        rw [hviews, fieldsOfItems?, ofItems_eq_map, List.length_map, if_pos (by omega),
          ← hlength, Nat.add_sub_cancel_left]
      rw [hitems]
      exact (taskOfFields?_eq_some_iff (hf missing)).2 h
  | _ =>
    constructor
    · intro h
      cases h
    · intro h
      cases h

theorem tasks_eq_some_iff {j : Json} (hj : j.readable depthLimit = true) {tasks : List Task} :
    (ofJson j).tasks = some tasks ↔
      ∃ items, j = .array items ∧ List.Forall₂ IsTask items tasks := by
  cases j with
  | array items =>
    have hitems : ∀ item ∈ items, item.readable depthLimit = true :=
      fun item hitem => Json.readable_of_mem_items hj hitem
    rw [tasks_array, Outcome.mapM_eq_some_iff]
    constructor
    · intro h
      refine ⟨items, rfl, ((List.forall₂_and_left _ _).2 ⟨hitems, h⟩).imp ?_⟩
      rintro item t ⟨hitem, ht⟩
      exact (task_eq_some_iff hitem).1 ht
    · rintro ⟨_, ⟨⟩, h⟩
      refine ((List.forall₂_and_left _ _).2 ⟨hitems, h⟩).imp ?_
      rintro item t ⟨hitem, ht⟩
      exact (task_eq_some_iff hitem).2 ht
  | _ => simp [ofJson]

theorem string?_eq_some_iff {j : Json} {text : String} :
    (ofJson j).string? = some text ↔ j = .text text := by
  rw [string?, json_ofJson, Json.string?_eq_some_iff]

/-- What is read as a kind fits the kind. -/
theorem fits_of_statementOfFields? {k : Kind} {fields : List (Option Json)}
    (hf : ∀ j, some j ∈ fields → j.readable depthLimit = true) {s : Statement}
    (h : statementOfFields? k (ofFields fields) = some s) : k.Fits fields s := by
  have hbody : ∀ j, some j ∈ fields → ∀ body, (ofJson j).statements = some body →
      IsBody j body := fun j hj body => (statements_eq_some_iff (hf j hj)).1
  match k, fields, h with
  | .ask, [some j], h =>
    obtain ⟨question, hquestion, h⟩ := Option.bind_eq_some_iff.1 h
    obtain rfl := Option.some.inj h
    rw [json_ofJson] at hquestion
    exact .ask ((Phrase.ofJson?_eq_some_iff (hf j (by simp))).1 hquestion)
  | .confirm, [some j], h =>
    obtain ⟨message, hmessage, h⟩ := Option.bind_eq_some_iff.1 h
    obtain rfl := Option.some.inj h
    obtain rfl := string?_eq_some_iff.1 hmessage
    exact .confirm
  | .createFile, [some j, some j'], h =>
    obtain ⟨filename, hfilename, h⟩ := Option.bind_eq_some_iff.1 h
    obtain ⟨content, hcontent, h⟩ := Option.bind_eq_some_iff.1 h
    obtain rfl := Option.some.inj h
    obtain rfl := string?_eq_some_iff.1 hfilename
    rw [json_ofJson] at hcontent
    exact .createFile ((Phrase.ofJson?_eq_some_iff (hf j' (by simp))).1 hcontent)
  | .assign, [some j, some j'], h =>
    obtain ⟨name, hname, h⟩ := Option.bind_eq_some_iff.1 h
    obtain ⟨value, hvalue, h⟩ := Option.bind_eq_some_iff.1 h
    obtain rfl := Option.some.inj h
    obtain rfl := string?_eq_some_iff.1 hname
    rw [json_ofJson] at hvalue
    exact .assign ((Value.ofJson?_eq_some_iff (hf j' (by simp))).1 hvalue)
  | .call, [some j, some j'], h =>
    obtain ⟨name, hname, h⟩ := Option.bind_eq_some_iff.1 h
    obtain ⟨args, hargs, h⟩ := Option.bind_eq_some_iff.1 h
    obtain rfl := Option.some.inj h
    obtain rfl := string?_eq_some_iff.1 hname
    rw [json_ofJson, Json.strings?_eq_some_iff] at hargs
    subst hargs
    exact .call
  | .conditional, [some j, some j', otherwise], h =>
    obtain ⟨condition, hcondition, hrest⟩ := Option.bind_eq_some_iff.1 h
    obtain ⟨body, hb, hlast⟩ := Option.bind_eq_some_iff.1 hrest
    obtain rfl := string?_eq_some_iff.1 hcondition
    have hb' := hbody j' (by simp) body hb
    cases otherwise with
    | none =>
      obtain rfl := Option.some.inj hlast
      exact .ifThen hb' (Or.inl rfl)
    | some o =>
      simp only [Option.map_some, json_ofJson] at hlast
      split at hlast
      · obtain rfl := Option.some.inj hlast
        exact .ifThen hb' (Or.inr rfl)
      · obtain ⟨otherwise, ho, hs⟩ := Option.bind_eq_some_iff.1 hlast
        obtain rfl := Option.some.inj hs
        exact .ifElse hb' (hbody o (by simp) otherwise ho)
  | .whileLoop, [some j, some j'], h =>
    obtain ⟨condition, hcondition, h⟩ := Option.bind_eq_some_iff.1 h
    obtain ⟨body, hb, h⟩ := Option.bind_eq_some_iff.1 h
    obtain rfl := Option.some.inj h
    obtain rfl := string?_eq_some_iff.1 hcondition
    exact .whileLoop (hbody j' (by simp) body hb)
  | .forEach, [some j, some j', some j''], h =>
    obtain ⟨item, hitem, h⟩ := Option.bind_eq_some_iff.1 h
    obtain ⟨iterable, hiterable, h⟩ := Option.bind_eq_some_iff.1 h
    obtain ⟨body, hb, h⟩ := Option.bind_eq_some_iff.1 h
    obtain rfl := Option.some.inj h
    obtain rfl := string?_eq_some_iff.1 hitem
    obtain rfl := string?_eq_some_iff.1 hiterable
    exact .forEach (hbody j'' (by simp) body hb)
  | .stop, [], h =>
    obtain rfl := Option.some.inj h
    exact .stop
  | .waitForResponse, [], h =>
    obtain rfl := Option.some.inj h
    exact .waitForResponse
  | .task, fields, h =>
    obtain ⟨t, ht, rfl⟩ := Option.map_eq_some_iff.1 h
    exact .task ((taskOfFields?_eq_some_iff hf).1 ht)
  | .parallel, [some j], h =>
    obtain ⟨tasks, htasks, h⟩ := Option.bind_eq_some_iff.1 h
    obtain rfl := Option.some.inj h
    obtain ⟨items, rfl, hitems⟩ := (tasks_eq_some_iff (hf j (by simp))).1 htasks
    exact .parallel hitems

/-- What fits a kind is read as the kind. -/
theorem statementOfFields?_of_fits {k : Kind} {fields : List (Option Json)}
    (hf : ∀ j, some j ∈ fields → j.readable depthLimit = true) {s : Statement}
    (h : k.Fits fields s) : statementOfFields? k (ofFields fields) = some s := by
  have hbody : ∀ {j}, some j ∈ fields → ∀ {body}, IsBody j body →
      (ofJson j).statements = some body := fun hj _ => (statements_eq_some_iff (hf _ hj)).2
  cases h with
  | ask h =>
    have hquestion := (Phrase.ofJson?_eq_some_iff (hf _ (by simp))).2 h
    simp [statementOfFields?, ofFields, hquestion]
  | confirm => rfl
  | createFile h =>
    have hcontent := (Phrase.ofJson?_eq_some_iff (hf _ (by simp))).2 h
    simp [statementOfFields?, ofFields, hcontent]
  | assign h =>
    have hvalue := (Value.ofJson?_eq_some_iff (hf _ (by simp))).2 h
    simp [statementOfFields?, ofFields, hvalue]
  | call => simp [statementOfFields?, ofFields]
  | ifThen hb hotherwise =>
    rcases hotherwise with rfl | rfl
    · simp [statementOfFields?, ofFields, hbody _ hb]
    · simp [statementOfFields?, ofFields, hbody _ hb]
  | ifElse hb ho =>
    have hitems := ho
    obtain ⟨items, rfl, -⟩ := hitems
    simp [statementOfFields?, ofFields, hbody _ hb, hbody _ ho]
  | whileLoop hb => simp [statementOfFields?, ofFields, hbody _ hb]
  | forEach hb => simp [statementOfFields?, ofFields, hbody _ hb]
  | stop => rfl
  | waitForResponse => rfl
  | task h =>
    show (taskOfFields? .lenient (ofFields fields)).map _ = _
    rw [(taskOfFields?_eq_some_iff hf).2 h, Option.map_some]
  | parallel h =>
    have htasks := (tasks_eq_some_iff (hf _ (by simp))).2 ⟨_, rfl, h⟩
    simp [statementOfFields?, ofFields, htasks]

/-- An object with one `type` is read as the kind of that name, or else is of unknown kind. -/
theorem statementOfMembers?_of_type {members : List (Option String × Json)} {t : String}
    (htype : MemberIs members "type" (some (.text t))) :
    statementOfMembers? (ofMembers members) =
      ((Kind.ofName? t).bind fun k =>
        (fieldsOfMembers? k.fields (ofMembers (members.filter (·.1 != some "type")))).bind
          (statementOfFields? k)).or (some (.unknown t)) := by
  have htag : fieldsOfMembers? ["type"] (ofMembers members) = some [some (ofJson (.text t))] := by
    rw [ofMembers_eq_map, fieldsOfMembers?_map,
      fieldsOfMembers?_eq_some_iff.2 (.cons htype .nil)]
    rfl
  have hrest : (ofMembers members).filter (·.1 != some "type") =
      ofMembers (members.filter (·.1 != some "type")) := by
    rw [ofMembers_eq_map, ofMembers_eq_map, List.filter_map]
    rfl
  rw [statementOfMembers?_of_tag htag, hrest]
  rfl

end View

/-! ### Statements with a type -/

theorem Kind.ofName?_eq_some_iff {t : String} {k : Kind} :
    Kind.ofName? t = some k ↔ k.name = t := by
  constructor
  · intro h
    simpa using List.find?_some h
  · rintro rfl
    exact k.ofName?_name

theorem Kind.exists_toJson (k : Kind) (values : List Json) :
    ∃ rest, k.toJson values = .record (("type", .text k.name) :: rest) ∧
      ∀ m ∈ rest, m.1 ≠ "type" := by
  refine ⟨k.fields.zip values, rfl, fun m hm he => k.type_not_mem_fields ?_⟩
  rw [← he]
  exact (List.of_mem_zip hm).1

/-- A statement that fits a kind is written with the `type` of that kind. -/
theorem Kind.FitsMembers.exists_toJson {k : Kind} {members : List (Option String × Json)}
    {s : Statement} (h : k.FitsMembers members s) :
    ∃ rest, s.toJson = .record (("type", .text k.name) :: rest) ∧ ∀ m ∈ rest, m.1 ≠ "type" := by
  obtain ⟨fields, -, h⟩ := h
  cases h <;> rw [Statement.toJson] <;> exact Kind.exists_toJson _ _

/-- An object with one `type` is read as a statement of this type.  It is of the kind with this name
if its other members fit, and otherwise of unknown kind. -/
theorem Statement.ofJson?_of_type {members : List (Option String × Json)} {t : String}
    (htype : MemberIs members "type" (some (.text t))) (hdata : (Json.object members).IsData)
    (hdepth : (Json.object members).depth ≤ depthLimit) :
    ∃ s, Statement.ofJson? (.object members) = some s ∧
      (∀ text, Json.read text = some (.object members) → Statement.ofText? text = some s) ∧
      (∃ rest, s.toJson = .record (("type", .text t) :: rest) ∧ ∀ m ∈ rest, m.1 ≠ "type") ∧
      ((∃ k : Kind, k.name = t ∧ k.FitsMembers (members.filter (·.1 != some "type")) s) ∨
        (s = .unknown t ∧ ∀ k : Kind, k.name = t → ∀ s',
          ¬k.FitsMembers (members.filter (·.1 != some "type")) s')) := by
  have hread : (Json.object members).readable depthLimit = true :=
    Json.readable_iff.2 ⟨hdata.sound, hdepth⟩
  have hmembers : ∀ m ∈ members.filter (·.1 != some "type"), m.2.readable depthLimit = true :=
    fun m hm => Json.readable_of_mem_members hread (List.mem_of_mem_filter hm)
  have hfits : ∀ (k : Kind) (s : Statement),
      (fieldsOfMembers? k.fields (View.ofMembers (members.filter (·.1 != some "type")))).bind
          (View.statementOfFields? k) = some s ↔
        k.FitsMembers (members.filter (·.1 != some "type")) s := by
    intro k s
    exact View.fieldsOfMembers?_bind_eq_some_iff k.fields hmembers (fun fields hf s =>
      ⟨View.fits_of_statementOfFields? hf, View.statementOfFields?_of_fits hf⟩) s
  have hstatement : Statement.ofJson? (.object members) = _ :=
    (View.statement_ofJson hread).symm.trans (View.statementOfMembers?_of_type htype)
  have htext : ∀ s, Statement.ofJson? (.object members) = some s → ∀ text,
      Json.read text = some (.object members) → Statement.ofText? text = some s := by
    intro s hs text htext
    rw [ofText?, htext]
    exact hs
  -- the object is of a known kind exactly if the reader of that kind takes its members
  cases hknown : (Kind.ofName? t).bind fun k =>
      (fieldsOfMembers? k.fields (View.ofMembers (members.filter (·.1 != some "type")))).bind
        (View.statementOfFields? k) with
  | some s =>
    obtain ⟨k, hk, hs⟩ := Option.bind_eq_some_iff.1 hknown
    obtain rfl := Kind.ofName?_eq_some_iff.1 hk
    rw [hknown] at hstatement
    have hfit := (hfits k s).1 hs
    exact ⟨s, hstatement, htext s hstatement, hfit.exists_toJson, Or.inl ⟨k, rfl, hfit⟩⟩
  | none =>
    rw [hknown] at hstatement
    refine ⟨.unknown t, hstatement, htext _ hstatement, ⟨[], by rw [toJson], by simp⟩,
      Or.inr ⟨rfl, fun k hk s' hfit => ?_⟩⟩
    rw [Kind.ofName?_eq_some_iff.2 hk, Option.bind_some, (hfits k s').2 hfit] at hknown
    cases hknown

/-- The members of a loop: a value that no kind has, given twice, and a body with a task that has no
description, a member that counts given twice, and an object with one member. -/
def tangled (key : String) : List (Option String × Json) :=
  [(some "condition", .text "c"), (some "type", .text "while"), (some "x", .bool true),
    (some "x", .array [.number ⟨false, "18446744073709551615".toList, [], none⟩]),
    (some "body", .array
      [.record [("type", .text "parallel"), ("tasks", .array [.record [("agent", .text "plan")]])],
        .record [("type", .text "confirm"), ("message", .text "a"), ("message", .text "b")],
        .record [(key, .text "break")]])]

theorem memberIs_tangled (key : String) :
    MemberIs (tangled key) "type" (some (.text "while")) := rfl

theorem isData_tangled (key : String) : (Json.object (tangled key)).IsData := by
  refine .object (by simp [tangled]) ?_
  repeat' first
    | exact .text _
    | exact .bool _
    | exact .word (by decide +kernel)
    | exact List.forall_mem_nil _
    | refine List.forall_mem_cons.2 ⟨?_, ?_⟩
    | refine .array ?_
    | refine .record ?_

theorem depth_tangled (key : String) : (Json.object (tangled key)).depth ≤ depthLimit := by
  have hdepth : (Json.object (tangled key)).depth = 5 := rfl
  rw [hdepth]
  decide

theorem ofJson?_tangled (key : String) :
    Statement.ofJson? (.object (tangled key)) = (View.ofJson (.object (tangled key))).statement :=
  (View.statement_ofJson
    (Json.readable_iff.2 ⟨(isData_tangled key).sound, depth_tangled key⟩)).symm

/-- What does not fit inside the loop becomes unknown there, and the loop stays a loop.  If
something in its body has no `type`, the loop itself becomes unknown. -/
theorem Statement.ofJson?_of_type_tangled :
    (∃ s, Statement.ofJson? (.object (tangled "type")) = some s ∧
      s = .whileLoop "c" [.unknown "parallel", .unknown "confirm", .stop] ∧
      ∃ k : Kind, k.name = "while" ∧
        k.FitsMembers ((tangled "type").filter (·.1 != some "type")) s) ∧
    Statement.ofJson? (.object (tangled "kind")) = some (.unknown "while") ∧
      ∀ k : Kind, k.name = "while" → ∀ s,
        ¬k.FitsMembers ((tangled "kind").filter (·.1 != some "type")) s := by
  constructor
  · have hloop : Statement.ofJson? (.object (tangled "type")) =
        some (.whileLoop "c" [.unknown "parallel", .unknown "confirm", .stop]) :=
      ofJson?_tangled "type"
    obtain ⟨s, hs, -, -, hcases⟩ := Statement.ofJson?_of_type (memberIs_tangled "type")
      (isData_tangled "type") (depth_tangled "type")
    obtain rfl := Option.some.inj (hs.symm.trans hloop)
    rcases hcases with hfit | ⟨hno, -⟩
    · exact ⟨_, hloop, rfl, hfit⟩
    · cases hno
  · have hunknown : Statement.ofJson? (.object (tangled "kind")) = some (.unknown "while") :=
      ofJson?_tangled "kind"
    obtain ⟨s, hs, -, -, hcases⟩ := Statement.ofJson?_of_type (memberIs_tangled "kind")
      (isData_tangled "kind") (depth_tangled "kind")
    obtain rfl := Option.some.inj (hs.symm.trans hunknown)
    rcases hcases with ⟨k, hk, fields, -, hfit⟩ | ⟨-, hno⟩
    · cases hfit
    · exact ⟨hunknown, hno⟩

end Playbook
