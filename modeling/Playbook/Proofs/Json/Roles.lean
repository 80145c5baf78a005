import Playbook.Proofs.Json.Fallback
import Playbook.Settings

/-!
# What JSON values are read as

A value is read in a `Role`: as a command, a statement, a phrase and so on, or as plain data.  The
role tells which names of members count, for a statement together with its `type`, and which roles
the members have in turn.  Items of an array have the roles of the members in their places.

Two values are `Role.Alike` if a reader of that role cannot tell them apart.  A record is read from
its parts, so records are alike if their parts that count are alike in the roles that these have
(`Role.alike_of_partsAlike`), whatever else the records hold.
-/

namespace Playbook

/-! ### Roles -/

/-- The value of the member of a name, which must not be given twice. -/
def member? {α : Type} (members : List (Option String × α)) (name : String) :
    Option (Option α) :=
  match members.filter (·.1 == some name) with
  | [] => some none
  | [(_, value)] => some (some value)
  | _ => none

/-- The kind that the `type` of a value tells, the first item of an array. -/
def Json.kind? : Json → Option Kind
  | .object members => (member? members "type").join.bind View.kind?
  | .array (tag :: _) => View.kind? tag
  | _ => none

/-- What a JSON value is read as, by itself or as a part of another one. -/
inductive Role
  | command
  | settings
  | task (r : Json.Reading)
  | phrase (r : Json.Reading)
  | value (r : Json.Reading)
  | statement
  | statements
  | tasks
  /-- A text, a truth value, a list of texts or a choice. -/
  | plain
  deriving DecidableEq, Repr

namespace Role

/-- Whether a value of this role has members with names. -/
def isRecord : Role → Bool
  | .command | .settings | .task _ | .phrase _ | .value _ | .statement => true
  | .statements | .tasks | .plain => false

/-- Whether members without a name for the reader are not even looked at.  Inside a statement they
are, as a statement is read as a whole. -/
def passesOver : Role → Bool
  | .command | .settings | .task .strict | .phrase .strict | .value .strict => true
  | _ => false

/-- The names of the members that count, in order. -/
def names (role : Role) (j : Json) : List String :=
  match role with
  | .command => ["name", "body"]
  | .settings => Settings.fields
  | .task _ => taskFields
  | .phrase _ | .value _ => ["kind", "value"]
  | .statement => "type" :: j.kind?.elim [] Kind.fields
  | .statements | .tasks | .plain => []

/-- What the member of a name that counts is read as. -/
def part : Role → String → Role
  | .command, "body" | .task _, "body" | .statement, "body" | .statement, "else" => .statements
  | .statement, "question" | .statement, "content" => .phrase .lenient
  | .statement, "value" => .value .lenient
  | .statement, "tasks" => .tasks
  | _, _ => .plain

/-- What a member is read as. -/
def member (role : Role) (j : Json) : Option String → Role
  | some name => if name ∈ role.names j then role.part name else .plain
  | none => .plain

/-- What an item is read as. -/
def item (role : Role) (j : Json) (i : Nat) : Role :=
  match role with
  | .statements => .statement
  | .tasks => .task .lenient
  | role => (role.names j)[i]?.elim .plain role.part

end Role

/-! ### Values that are read alike -/

/-- Two values cannot be told apart when they are read as a text, a truth value, a list of texts or
a choice. -/
structure Json.Interchangeable (j j' : Json) : Prop where
  null_iff : j = .null ↔ j' = .null
  string_eq : j.string? = j'.string?
  strings_eq : j.strings? = j'.strings?
  bool_eq : j.bool? = j'.bool?
  holdsNothing_eq : ∀ r, j.holdsNothing r = j'.holdsNothing r
  choice_eq : ∀ r, j.choice? r = j'.choice? r
  nameAmong_eq : ∀ r names, j.nameAmong? r names = j'.nameAmong? r names

/-- Two values hold the same list of statements, or neither holds one. -/
structure Json.SameBody (j j' : Json) : Prop where
  null_iff : j = .null ↔ j' = .null
  sound_eq : j.sound = j'.sound
  statements_eq : (View.ofJson j).statements = (View.ofJson j').statements

namespace Role

/-- Two values are read alike.  Readers of commands and tasks also look how deep their statements
nest. -/
def Alike : Role → Json → Json → Prop
  | .command, j, j' =>
    j.depth ≤ depthLimit → j'.depth ≤ depthLimit → Command.ofJson? j = Command.ofJson? j'
  | .settings, j, j' => Settings.ofJson? j = Settings.ofJson? j'
  | .task .strict, j, j' =>
    j.depth ≤ depthLimit → j'.depth ≤ depthLimit → Task.ofJson? j = Task.ofJson? j'
  | .task .lenient, j, j' => (View.ofJson j).task = (View.ofJson j').task
  | .phrase r, j, j' => Phrase.ofJson? r j = Phrase.ofJson? r j'
  | .value r, j, j' => Value.ofJson? r j = Value.ofJson? r j'
  | .statement, j, j' => (View.ofJson j).statement = (View.ofJson j').statement
  | .statements, j, j' => j.SameBody j'
  | .tasks, j, j' => (View.ofJson j).tasks = (View.ofJson j').tasks
  | .plain, j, j' => j.Interchangeable j'

theorem Alike.refl (role : Role) (j : Json) : role.Alike j j := by
  cases role with
  | statements => exact ⟨.rfl, rfl, rfl⟩
  | plain => exact ⟨.rfl, rfl, rfl, rfl, fun _ => rfl, fun _ => rfl, fun _ _ => rfl⟩
  | task r =>
    cases r with
    | strict => exact fun _ _ => rfl
    | lenient => rfl
  | command => exact fun _ _ => rfl
  | _ => rfl

/-- The values of members are alike in the roles of these, and the same ones are missing. -/
inductive FieldsAlike : List Role → List (Option Json) → List (Option Json) → Prop
  | nil : FieldsAlike [] [] []
  | cons {role : Role} {roles : List Role} {field field' : Option Json}
      {fields fields' : List (Option Json)} (h : Option.Rel role.Alike field field')
      (hrest : FieldsAlike roles fields fields') :
      FieldsAlike (role :: roles) (field :: fields) (field' :: fields')

/-- The parts that count of two objects, or of two arrays, are alike in their roles. -/
inductive PartsAlike (role : Role) : Json → Json → Prop
  | object {members members' : List (Option String × Json)}
      (hkeys : members.all (·.1.isSome) = members'.all (·.1.isSome))
      (h : ∀ name ∈ role.names (.object members), Option.Rel (Option.Rel (role.part name).Alike)
        (member? members name) (member? members' name)) :
      PartsAlike role (.object members) (.object members')
  | array {items items' : List Json} (hlength : items.length = items'.length)
      (h : ∀ (i : Nat) (name : String), (role.names (.array items))[i]? = some name →
        Option.Rel (role.part name).Alike items[i]? items'[i]?) :
      PartsAlike role (.array items) (.array items')

/-! ### Members and items in the order of their names -/

section Fields

variable {part : String → Role} {names : List String}

theorem fieldsAlike_of_members {members members' : List (Option String × Json)}
    (h : ∀ name ∈ names, Option.Rel (Option.Rel (part name).Alike) (member? members name)
      (member? members' name)) :
    Option.Rel (FieldsAlike (names.map part)) (fieldsOfMembers? names members)
      (fieldsOfMembers? names members') := by
  show Option.Rel _ (names.mapM (member? members)) (names.mapM (member? members'))
  induction names with
  | nil => exact .some .nil
  | cons name rest ih =>
    rw [List.forall_mem_cons] at h
    rw [List.mapM_cons, List.mapM_cons]
    refine Outcome.rel_bind h.1 fun field field' hfield => ?_
    exact Outcome.rel_bind (ih h.2) fun fields fields' hfields => .some (.cons hfield hfields)

theorem fieldsAlike_of_items {items items' : List Json} (hlength : items.length = items'.length)
    (h : ∀ (i : Nat) (name : String), names[i]? = some name →
      Option.Rel (part name).Alike items[i]? items'[i]?) :
    Option.Rel (FieldsAlike (names.map part)) (fieldsOfItems? names items)
      (fieldsOfItems? names items') := by
  unfold fieldsOfItems?
  rw [← hlength]
  split
  · next hle =>
    refine .some ?_
    induction names generalizing items items' with
    | nil =>
      -- no names are left, and so no items
      obtain rfl := List.length_eq_zero_iff.1 (Nat.le_zero.1 hle)
      obtain rfl := List.length_eq_zero_iff.1 hlength.symm
      exact .nil
    | cons name rest ih =>
      have hrest : ∀ (i : Nat) (name : String), rest[i]? = some name →
          Option.Rel (part name).Alike items.tail[i]? items'.tail[i]? := by
        intro i name hname
        rw [List.getElem?_tail, List.getElem?_tail]
        exact h (i + 1) name hname
      have hfirst := h 0 name rfl
      cases items with
      | nil =>
        obtain rfl := List.length_eq_zero_iff.1 hlength.symm
        exact .cons .none (ih rfl hrest (Nat.zero_le _))
      | cons item more =>
        cases items' with
        | nil => cases hlength
        | cons item' more' =>
          have hboth := ih (Nat.succ.inj hlength) hrest (Nat.le_of_succ_le_succ hle)
          rw [List.length_cons, List.length_cons, Nat.add_sub_add_right]
          exact .cons hfirst hboth
  · exact .none

end Fields

variable {role : Role} {j j' : Json} {fields fields' : List (Option Json)}

theorem PartsAlike.fields? (h : role.PartsAlike j j') :
    Option.Rel (FieldsAlike ((role.names j).map role.part)) (j.fields? (role.names j))
      (j'.fields? (role.names j)) := by
  cases h with
  | object hkeys h =>
    simp only [Json.fields?, hkeys]
    split
    · exact fieldsAlike_of_members h
    · exact .none
  | array hlength h => exact fieldsAlike_of_items hlength h

/-! ### Phrases and values -/

/-- The kind of a phrase or value, and what comes with it. -/
theorem PartsAlike.ofKind? (hnames : role.names j = ["kind", "value"])
    (hpart : ∀ name, role.part name = .plain) (h : role.PartsAlike j j') (r : Json.Reading)
    (kinds : List String) :
    Option.Rel (fun found found' => found.1 = found'.1 ∧ found.2.Interchangeable found'.2)
      (j.ofKind? r kinds) (j'.ofKind? r kinds) := by
  have hfields := h.fields?
  rw [hnames, List.map_cons, List.map_cons, List.map_nil, hpart, hpart] at hfields
  refine Outcome.rel_bind hfields fun fields fields' hfields => ?_
  rcases hfields with _ | ⟨hkind, _ | ⟨hvalue, _ | _⟩⟩
  cases hkind with
  | none => exact .none
  | @some kind kind' hkind =>
    cases hvalue with
    | none => exact .none
    | @some value value' hvalue =>
      have hpair : ∀ name name' : Option String, name = name' →
          Option.Rel (fun found found' => found.1 = found'.1 ∧ found.2.Interchangeable found'.2)
            (name.bind fun name => some (name, value))
            (name'.bind fun name => some (name, value')) := by
        rintro name _ rfl
        cases name with
        | none => exact .none
        | some name => exact .some ⟨rfl, hvalue⟩
      cases h with
      | object => exact hpair _ _ (hkind.choice_eq r)
      | array => exact hpair _ _ (hkind.nameAmong_eq r kinds)

theorem PartsAlike.phrase_eq {r : Json.Reading} (h : (phrase r).PartsAlike j j') :
    Phrase.ofJson? r j = Phrase.ofJson? r j' := by
  refine Outcome.bind_eq_of_rel (h.ofKind? rfl (fun _ => rfl) r _) ?_
  rintro ⟨kind, value⟩ ⟨_, value'⟩ ⟨rfl, hvalue⟩
  have hstring : value.string? = value'.string? := hvalue.string_eq
  split <;> simp_all

theorem PartsAlike.value_eq {r : Json.Reading} (h : (value r).PartsAlike j j') :
    Value.ofJson? r j = Value.ofJson? r j' := by
  refine Outcome.bind_eq_of_rel (h.ofKind? rfl (fun _ => rfl) r _) ?_
  rintro ⟨kind, value⟩ ⟨_, value'⟩ ⟨rfl, hvalue⟩
  have hstring : value.string? = value'.string? := hvalue.string_eq
  have hstrings : value.strings? = value'.strings? := hvalue.strings_eq
  have hbool : value.bool? = value'.bool? := hvalue.bool_eq
  split <;> simp_all

/-! ### Tasks and statements -/

/-- A text that may be missing or null. -/
theorem optional?_eq {field field' : Option Json} (h : Option.Rel plain.Alike field field') :
    Json.optional? Json.string? field = Json.optional? Json.string? field' := by
  cases h with
  | none => rfl
  | @some j j' h =>
    have hsome : ∀ {j : Json}, j ≠ .null →
        Json.optional? Json.string? (some j) = j.string?.map some := by
      intro j hj
      cases j with
      | null => exact absurd rfl hj
      | _ => rfl
    by_cases hnull : j = .null
    · rw [hnull, h.null_iff.1 hnull]
    · rw [hsome hnull, hsome (mt h.null_iff.2 hnull), h.string_eq]

/-- A member that may be missing. -/
theorem elim_map_eq {α : Type} {field field' : Option Json} (absent : α) (read : View → α)
    (h : Option.Rel role.Alike field field')
    (hread : ∀ j j', role.Alike j j' → read (View.ofJson j) = read (View.ofJson j')) :
    (field.map View.ofJson).elim absent read = (field'.map View.ofJson).elim absent read := by
  cases h with
  | none => rfl
  | some h => exact hread _ _ h

theorem FieldsAlike.taskOfFields?_eq {r : Json.Reading}
    (h : FieldsAlike [.plain, .plain, .statements, .plain] fields fields') :
    View.taskOfFields? r (View.ofFields fields) = View.taskOfFields? r (View.ofFields fields') := by
  rcases h with _ | ⟨hdescription, _ | ⟨hagent, _ | ⟨hbody, _ | ⟨hfile, _ | _⟩⟩⟩⟩
  have hagent := elim_map_eq (some .general) (fun v => Agent.ofJson? r v.json) hagent
    fun j j' h => by
      rw [Agent.ofJson?, Agent.ofJson?, View.json_ofJson, View.json_ofJson, h.choice_eq]
  have hbody := elim_map_eq (some []) View.statements hbody fun j j' h => h.statements_eq
  have hfile := optional?_eq hfile
  cases hdescription with
  | none => rfl
  | some hdescription =>
    refine Option.ext fun t => ?_
    show View.taskOfFields? r [some (View.ofJson _), _, _, _] = _ ↔
      View.taskOfFields? r [some (View.ofJson _), _, _, _] = _
    rw [View.taskOfFields?_cons, View.taskOfFields?_cons, View.string?, View.string?,
      View.json_ofJson, View.json_ofJson, hdescription.string_eq, hagent, hbody]
    simp only [Option.map_map, View.json_comp_ofJson, Option.map_id, id, hfile]

/-- What follows `else`, unless it is null, is a list of statements. -/
theorem statementOfFields?_conditional {condition body : View} (hj : j ≠ .null) :
    View.statementOfFields? .conditional [some condition, some body, some (View.ofJson j)] =
      condition.string?.bind fun condition => body.statements.bind fun body =>
        (View.ofJson j).statements.bind fun otherwise =>
          some (.ifElse condition body otherwise) := by
  cases j with
  | null => exact absurd rfl hj
  | _ => rfl

/-- A statement of a kind is read alike from members that are alike. -/
theorem FieldsAlike.statementOfFields?_eq {k : Kind}
    (h : FieldsAlike (k.fields.map statement.part) fields fields') :
    View.statementOfFields? k (View.ofFields fields) =
      View.statementOfFields? k (View.ofFields fields') := by
  cases k with
  | ask =>
    change FieldsAlike [.phrase .lenient] fields fields' at h
    rcases h with _ | ⟨@⟨q, q', hquestion⟩ | _, _ | _⟩
    · have hquestion : Phrase.ofJson? .lenient q = Phrase.ofJson? .lenient q' := hquestion
      simp [View.statementOfFields?, View.ofFields, hquestion]
    · rfl
  | confirm =>
    change FieldsAlike [.plain] fields fields' at h
    rcases h with _ | ⟨hmessage | _, _ | _⟩
    · simp [View.statementOfFields?, View.ofFields, View.string?, hmessage.string_eq]
    · rfl
  | createFile =>
    change FieldsAlike [.plain, .phrase .lenient] fields fields' at h
    rcases h with _ | ⟨hfilename | _, _ | ⟨@⟨c, c', hcontent⟩ | _, _ | _⟩⟩
    · have hcontent : Phrase.ofJson? .lenient c = Phrase.ofJson? .lenient c' := hcontent
      simp [View.statementOfFields?, View.ofFields, View.string?, hfilename.string_eq, hcontent]
    all_goals rfl
  | assign =>
    change FieldsAlike [.plain, .value .lenient] fields fields' at h
    rcases h with _ | ⟨hname | _, _ | ⟨@⟨v, v', hvalue⟩ | _, _ | _⟩⟩
    · have hvalue : Value.ofJson? .lenient v = Value.ofJson? .lenient v' := hvalue
      simp [View.statementOfFields?, View.ofFields, View.string?, hname.string_eq, hvalue]
    all_goals rfl
  | call =>
    change FieldsAlike [.plain, .plain] fields fields' at h
    rcases h with _ | ⟨hname | _, _ | ⟨hargs | _, _ | _⟩⟩
    · simp [View.statementOfFields?, View.ofFields, View.string?, hname.string_eq,
        hargs.strings_eq]
    all_goals rfl
  | conditional =>
    change FieldsAlike [.plain, .statements, .statements] fields fields' at h
    rcases h with
      _ | ⟨@⟨c, c', hcondition⟩ | _, _ | ⟨@⟨b, b', hbody⟩ | _, _ | ⟨@⟨o, o', ho⟩ | _, _ | _⟩⟩⟩
    · -- null after `else` is the same as no `else`
      by_cases hnull : o = .null
      · rw [hnull, ho.null_iff.1 hnull]
        simp [View.statementOfFields?, View.ofFields, View.string?, hcondition.string_eq,
          hbody.statements_eq]
      · have hnull' : o' ≠ .null := mt ho.null_iff.2 hnull
        show View.statementOfFields? .conditional
            [some (View.ofJson c), some (View.ofJson b), some (View.ofJson o)] =
          View.statementOfFields? .conditional
            [some (View.ofJson c'), some (View.ofJson b'), some (View.ofJson o')]
        rw [statementOfFields?_conditional hnull, statementOfFields?_conditional hnull',
          View.string?, View.string?, View.json_ofJson, View.json_ofJson, hcondition.string_eq,
          hbody.statements_eq, ho.statements_eq]
    · simp [View.statementOfFields?, View.ofFields, View.string?, hcondition.string_eq,
        hbody.statements_eq]
    all_goals rfl
  | whileLoop =>
    change FieldsAlike [.plain, .statements] fields fields' at h
    rcases h with _ | ⟨hcondition | _, _ | ⟨hbody | _, _ | _⟩⟩
    · simp [View.statementOfFields?, View.ofFields, View.string?, hcondition.string_eq,
        hbody.statements_eq]
    all_goals rfl
  | forEach =>
    change FieldsAlike [.plain, .plain, .statements] fields fields' at h
    rcases h with _ | ⟨hitem | _, _ | ⟨hiterable | _, _ | ⟨hbody | _, _ | _⟩⟩⟩
    · simp [View.statementOfFields?, View.ofFields, View.string?, hitem.string_eq,
        hiterable.string_eq, hbody.statements_eq]
    all_goals rfl
  | stop | waitForResponse =>
    change FieldsAlike [] fields fields' at h
    rcases h with _ | _
    rfl
  | task => exact congrArg (Option.map Statement.task) (FieldsAlike.taskOfFields?_eq h)
  | parallel =>
    change FieldsAlike [.tasks] fields fields' at h
    rcases h with _ | ⟨@⟨ts, ts', htasks⟩ | _, _ | _⟩
    · have htasks : (View.ofJson ts).tasks = (View.ofJson ts').tasks := htasks
      simp [View.statementOfFields?, View.ofFields, htasks]
    · rfl

end Role

namespace View

/-- What the items of an array stand for as members. -/
theorem fieldsOfItems?_ofItems (names : List String) (items : List Json) :
    fieldsOfItems? names (ofItems items) = (fieldsOfItems? names items).map ofFields := by
  unfold fieldsOfItems?
  rw [ofItems_eq_map, List.length_map]
  split
  · simp [ofFields]
  · rfl

/-- What the members of an object stand for. -/
theorem fieldsOfMembers?_ofMembers (names : List String) (members : List (Option String × Json)) :
    fieldsOfMembers? names (ofMembers members) = (fieldsOfMembers? names members).map ofFields := by
  rw [ofMembers_eq_map, fieldsOfMembers?_map]
  rfl

/-- Members of another name may be left out. -/
theorem fieldsOfMembers?_filter {α : Type} {names : List String} {other : String}
    (h : other ∉ names) (members : List (Option String × α)) :
    fieldsOfMembers? names (members.filter (·.1 != some other)) =
      fieldsOfMembers? names members := by
  refine Outcome.mapM_congr fun name hname => ?_
  rw [List.filter_filter]
  have hfilter : members.filter (fun m => m.1 == some name && m.1 != some other) =
      members.filter (·.1 == some name) := by
    refine List.filter_congr fun m _ => ?_
    by_cases hm : m.1 = some name
    · have hne : name ≠ other := fun he => h (he ▸ hname)
      simp [hm, hne]
    · simp [hm]
  rw [hfilter]

/-- A statement from an object, by its `type`. -/
theorem statement_object (members : List (Option String × Json)) :
    (ofJson (.object members)).statement = (member? members "type").join.bind fun tag =>
      ((kind? tag).bind fun k => (fieldsOfMembers? k.fields members).bind fun fields =>
        statementOfFields? k (ofFields fields)).or (tag.string?.map .unknown) := by
  show statementOfMembers? (ofMembers members) = _
  have htype : fieldsOfMembers? ["type"] (ofMembers members) =
      (member? members "type").map fun tag => [tag.map ofJson] := by
    rw [fieldsOfMembers?_ofMembers]
    show (["type"].mapM (member? members)).map ofFields = _
    rw [List.mapM_cons, List.mapM_nil]
    cases member? members "type" <;> rfl
  cases htag : member? members "type" with
  | none =>
    rw [htag] at htype
    rw [statementOfMembers?, htype]
    rfl
  | some tag =>
    rw [htag] at htype
    cases tag with
    | none =>
      rw [statementOfMembers?, htype]
      rfl
    | some tag =>
      rw [statementOfMembers?_of_tag htype, json_ofJson, string?, json_ofJson]
      have hknown : ∀ k : Kind,
          (fieldsOfMembers? k.fields ((ofMembers members).filter (·.1 != some "type"))).bind
              (statementOfFields? k) =
            (fieldsOfMembers? k.fields members).bind fun fields =>
              statementOfFields? k (ofFields fields) := by
        intro k
        rw [fieldsOfMembers?_filter k.type_not_mem_fields, fieldsOfMembers?_ofMembers,
          Option.bind_map]
        rfl
      simp only [hknown]
      rfl

/-- A statement from an array, by its first item. -/
theorem statement_array (tag : Json) (rest : List Json) :
    (ofJson (.array (tag :: rest))).statement =
      (kind? tag).bind fun k => (fieldsOfItems? k.fields rest).bind fun fields =>
        statementOfFields? k (ofFields fields) := by
  show (kind? (ofJson tag).json).bind (fun k =>
    (fieldsOfItems? k.fields (ofItems rest)).bind (statementOfFields? k)) = _
  rw [json_ofJson]
  refine congrArg (Option.bind _) (funext fun k => ?_)
  rw [fieldsOfItems?_ofItems, Option.bind_map]
  rfl

theorem task_object (members : List (Option String × Json)) :
    (ofJson (.object members)).task = (fieldsOfMembers? taskFields members).bind fun fields =>
      taskOfFields? .lenient (ofFields fields) := by
  show (fieldsOfMembers? taskFields (ofMembers members)).bind (taskOfFields? .lenient) = _
  rw [fieldsOfMembers?_ofMembers, Option.bind_map]
  rfl

theorem task_array (items : List Json) :
    (ofJson (.array items)).task = (fieldsOfItems? taskFields items).bind fun fields =>
      taskOfFields? .lenient (ofFields fields) := by
  show (fieldsOfItems? taskFields (ofItems items)).bind (taskOfFields? .lenient) = _
  rw [fieldsOfItems?_ofItems, Option.bind_map]
  rfl

end View

namespace Role

variable {role : Role} {j j' : Json}

theorem PartsAlike.statement_eq (h : statement.PartsAlike j j') :
    (View.ofJson j).statement = (View.ofJson j').statement := by
  have hkind : ∀ tag tag' : Json, tag.Interchangeable tag' → View.kind? tag = View.kind? tag' := by
    intro tag tag' htag
    rw [View.kind?, View.kind?, htag.nameAmong_eq]
  cases h with
  | @object members members' _ h =>
    have hjoin := Outcome.rel_join (h "type" List.mem_cons_self)
    rw [View.statement_object, View.statement_object]
    cases htag : (member? members "type").join with
    | none => rw [Outcome.eq_none_of_rel hjoin htag, Option.bind_none, Option.bind_none]
    | some tag =>
      obtain ⟨tag', htag', hplain⟩ := Outcome.exists_some_of_rel hjoin htag
      rw [htag', Option.bind_some, Option.bind_some, ← hkind tag tag' hplain, hplain.string_eq]
      -- the tags tell the same kind, whose members are alike; if there is none, the tags remain
      cases hk : View.kind? tag with
      | none => rfl
      | some k =>
        have hnames : ∀ name ∈ k.fields, name ∈ statement.names (.object members) := by
          intro name hname
          simp [names, Json.kind?, htag, hk, hname]
        have hfields := fieldsAlike_of_members fun name hname => h name (hnames name hname)
        rw [Option.bind_some, Option.bind_some,
          Outcome.bind_eq_of_rel hfields fun _ _ h => h.statementOfFields?_eq]
  | @array items items' hlength h =>
    match items, items', hlength, h with
    | [], [], _, _ => rfl
    | tag :: rest, tag' :: rest', hlength, h =>
      have htag : plain.Alike tag tag' := by
        cases h 0 "type" rfl with
        | some htag => exact htag
      rw [View.statement_array, View.statement_array, ← hkind tag tag' htag]
      cases hk : View.kind? tag with
      | none => rfl
      | some k =>
        have hnames : statement.names (.array (tag :: rest)) = "type" :: k.fields := by
          simp [names, Json.kind?, hk]
        have hfields := fieldsAlike_of_items (Nat.succ.inj hlength) fun i name hname =>
          h (i + 1) name (by rw [hnames]; exact hname)
        rw [Option.bind_some, Option.bind_some,
          Outcome.bind_eq_of_rel hfields fun _ _ h => h.statementOfFields?_eq]

theorem PartsAlike.lenientTask_eq (h : (task .lenient).PartsAlike j j') :
    (View.ofJson j).task = (View.ofJson j').task := by
  cases h with
  | object _ h =>
    rw [View.task_object, View.task_object]
    exact Outcome.bind_eq_of_rel (fieldsAlike_of_members h) fun _ _ h => h.taskOfFields?_eq
  | array hlength h =>
    rw [View.task_array, View.task_array]
    exact Outcome.bind_eq_of_rel (fieldsAlike_of_items hlength h) fun _ _ h => h.taskOfFields?_eq

end Role

/-! ### Values by themselves -/

namespace Json

theorem SameBody.readable_eq {limit : Nat} {j j' : Json} (h : j.SameBody j')
    (hj : j.depth ≤ limit) (hj' : j'.depth ≤ limit) : j.readable limit = j'.readable limit := by
  simp [readable, h.sound_eq, hj, hj']

theorem depth_lt_of_fields? {j value : Json} {names : List String} {fields : List (Option Json)}
    (h : j.fields? names = some fields) (hv : some value ∈ fields) : value.depth < j.depth := by
  cases j with
  | object members =>
    simp only [fields?] at h
    split at h
    · obtain ⟨m, hm, rfl⟩ := mem_of_fieldsOfMembers? h hv
      exact Nat.lt_succ_of_le (depthOfMembers_le_iff.1 le_rfl m hm)
    · cases h
  | array items =>
    have hmem : value ∈ items := mem_of_fieldsOfItems? h hv
    exact Nat.lt_succ_of_le (depthOfItems_le_iff.1 le_rfl value hmem)
  | null | bool | number | string => cases h

end Json

namespace Role

variable {role : Role} {j j' : Json}

theorem PartsAlike.settings_eq (h : settings.PartsAlike j j') :
    Settings.ofJson? j = Settings.ofJson? j' := by
  refine Outcome.bind_eq_of_rel h.fields? fun fields fields' hfields => ?_
  change FieldsAlike [.plain, .plain] fields fields' at hfields
  rcases hfields with _ | ⟨hdir, _ | ⟨hextension, _ | _⟩⟩
  simp only [optional?_eq hdir, optional?_eq hextension]

theorem PartsAlike.command_eq (h : command.PartsAlike j j') (hj : j.depth ≤ depthLimit)
    (hj' : j'.depth ≤ depthLimit) : Command.ofJson? j = Command.ofJson? j' := by
  have hrel : Option.Rel (FieldsAlike [.plain, .statements]) (j.fields? ["name", "body"])
      (j'.fields? ["name", "body"]) := h.fields?
  unfold Command.ofJson?
  cases hfields : j.fields? ["name", "body"] with
  | none => rw [Outcome.eq_none_of_rel hrel hfields]
  | some fields =>
    obtain ⟨fields', hfields', halike⟩ := Outcome.exists_some_of_rel hrel hfields
    rw [hfields']
    rcases halike with _ | ⟨hname | _, _ | ⟨@⟨body, body', hbody⟩ | _, _ | _⟩⟩
    · have hdepth : body.depth < j.depth := Json.depth_lt_of_fields? hfields (by simp)
      have hdepth' : body'.depth < j'.depth := Json.depth_lt_of_fields? hfields' (by simp)
      have hread : bodyOfJson? body = bodyOfJson? body' := by
        rw [bodyOfJson?, bodyOfJson?, hbody.statements_eq,
          hbody.readable_eq (Nat.le_sub_one_of_lt (hdepth.trans_le hj))
            (Nat.le_sub_one_of_lt (hdepth'.trans_le hj'))]
      simp [hname.string_eq, hread]
    all_goals rfl

theorem PartsAlike.task_eq (h : (task .strict).PartsAlike j j') (hj : j.depth ≤ depthLimit)
    (hj' : j'.depth ≤ depthLimit) : Task.ofJson? j = Task.ofJson? j' := by
  have hrel : Option.Rel (FieldsAlike [.plain, .plain, .statements, .plain])
      (j.fields? taskFields) (j'.fields? taskFields) := h.fields?
  unfold Task.ofJson?
  cases hfields : j.fields? taskFields with
  | none => rw [Outcome.eq_none_of_rel hrel hfields]
  | some fields =>
    obtain ⟨fields', hfields', halike⟩ := Outcome.exists_some_of_rel hrel hfields
    rw [hfields']
    have htask := halike.taskOfFields?_eq (r := .strict)
    rcases halike with _ | ⟨_, _ | ⟨_, _ | @⟨_, _, body, body', _, _, hbody, _ | ⟨_, _ | _⟩⟩⟩⟩
    have hread : body.all (·.readable (depthLimit - 1)) =
        body'.all (·.readable (depthLimit - 1)) := by
      cases hbody with
      | none => rfl
      | @some body body' hbody =>
        have hdepth : body.depth < j.depth := Json.depth_lt_of_fields? hfields (by simp)
        have hdepth' : body'.depth < j'.depth := Json.depth_lt_of_fields? hfields' (by simp)
        exact hbody.readable_eq (Nat.le_sub_one_of_lt (hdepth.trans_le hj))
          (Nat.le_sub_one_of_lt (hdepth'.trans_le hj'))
    show ite _ (View.taskOfFields? .strict (View.ofFields [_, _, _, _])) none =
      ite _ (View.taskOfFields? .strict (View.ofFields [_, _, _, _])) none
    rw [hread, htask]

/-- Records are read alike if their parts are alike. -/
theorem alike_of_partsAlike (hrole : role.isRecord = true) (h : role.PartsAlike j j') :
    role.Alike j j' := by
  cases role with
  | command => exact h.command_eq
  | settings => exact h.settings_eq
  | task r =>
    cases r with
    | strict => exact h.task_eq
    | lenient => exact h.lenientTask_eq
  | phrase r => exact h.phrase_eq
  | value r => exact h.value_eq
  | statement => exact h.statement_eq
  | statements | tasks | plain => cases hrole

end Role

end Playbook
