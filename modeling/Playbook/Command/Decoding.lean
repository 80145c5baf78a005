import Playbook.Command.Encoding
import Playbook.Json.Reader

/-!
# Commands from JSON values

Whatever has members may be written as an object, in any order and among other members, or as an
array of its members in order, where optional ones at the end may be left out.  A member that counts
must not be given twice.

An object with a `type` is never lost as a statement: if its other members do not fit the kind of
that name, or if there is no such kind, it is a statement of unknown kind.  This is decided from the
inside out: a value is first read in every way in which the value around it may use it, and all
these readings are kept in a `View`.

At the level of a command or task itself, members that do not count are passed over whatever they
hold.  A statement is read as a whole: its value must be `readable` to the very end, and its parts
are read leniently.
-/

namespace Playbook

/-- The depth to which values that are read may nest. -/
def depthLimit : Nat := 127

/-- The values of the members with the given names, in the order of the names.  A member may be
missing, but not be given twice. -/
def fieldsOfMembers? {α : Type} (names : List String) (members : List (Option String × α)) :
    Option (List (Option α)) :=
  names.mapM fun name =>
    match members.filter (·.1 == some name) with
    | [] => some none
    | [(_, value)] => some (some value)
    | _ => none

/-- The values of the members with the given names, which are the items of an array in this order.
The last ones may be missing, but there must not be more items than names. -/
def fieldsOfItems? {α : Type} (names : List String) (items : List α) : Option (List (Option α)) :=
  if items.length ≤ names.length then
    some (items.map some ++ List.replicate (names.length - items.length) none)
  else none

/-- The values of the members with the given names, in the order of the names, from an object or an
array. -/
def Json.fields? (names : List String) : Json → Option (List (Option Json))
  | .object members =>
    if members.all (·.1.isSome) then fieldsOfMembers? names members else none
  | .array items => fieldsOfItems? names items
  | _ => none

/-- Reads an agent. -/
def Agent.ofJson? (r : Json.Reading) (j : Json) : Option Agent :=
  (j.choice? r).bind Agent.ofKeyword?

/-- The kind of a value that comes with its kind, and the value itself.  An object tells the kind as
a choice, an array as one of the names of kinds. -/
def Json.ofKind? (r : Json.Reading) (kinds : List String) (j : Json) : Option (String × Json) := do
  match ← j.fields? ["kind", "value"] with
  | [some kind, some value] =>
    let name ← match j with
      | .array _ => kind.nameAmong? r kinds
      | _ => kind.choice? r
    some (name, value)
  | _ => none

/-- Reads a phrase. -/
def Phrase.ofJson? (r : Json.Reading) (j : Json) : Option Phrase := do
  match ← j.ofKind? r ["literal", "reference"] with
  | ("literal", value) => value.string?.map .literal
  | ("reference", value) => value.string?.map .reference
  | _ => none

/-- Reads a value. -/
def Value.ofJson? (r : Json.Reading) (j : Json) : Option Value := do
  match ← j.ofKind? r ["str", "bool", "array", "expr"] with
  | ("str", value) => value.string?.map .str
  | ("bool", value) => value.bool?.map .bool
  | ("array", value) => value.strings?.map .array
  | ("expr", value) => value.string?.map .expr
  | _ => none

/-- A JSON value with all that it may stand for inside a statement. -/
structure View where
  json : Json
  statement : Option Statement
  statements : Option (List Statement)
  task : Option Task
  tasks : Option (List Task)

namespace View

/-- The text of a member. -/
def string? (v : View) : Option String := v.json.string?

/-- A task from its members. -/
def taskOfFields? (r : Json.Reading) : List (Option View) → Option Task
  | [some description, agent, body, file] => do
    let description ← description.string?
    let agent ← match agent with
      | none => some .general
      | some a => Agent.ofJson? r a.json
    let body ← match body with
      | none => some []
      | some b => b.statements
    let file ← Json.optional? Json.string? (file.map View.json)
    some ⟨description, agent, body, file⟩
  | _ => none

/-- A statement of the given kind from its members. -/
def statementOfFields? (k : Kind) (fields : List (Option View)) : Option Statement :=
  match k, fields with
  | .ask, [some question] => do
    let question ← Phrase.ofJson? .lenient question.json
    some (.ask question)
  | .confirm, [some message] => do
    let message ← message.string?
    some (.confirm message)
  | .createFile, [some filename, some content] => do
    let filename ← filename.string?
    let content ← Phrase.ofJson? .lenient content.json
    some (.createFile filename content)
  | .assign, [some name, some value] => do
    let name ← name.string?
    let value ← Value.ofJson? .lenient value.json
    some (.assign name value)
  | .call, [some name, some args] => do
    let name ← name.string?
    let args ← args.json.strings?
    some (.call name args)
  | .conditional, [some condition, some body, otherwise] => do
    let condition ← condition.string?
    let body ← body.statements
    match otherwise with
    | none => some (.ifThen condition body)
    | some o =>
      match o.json with
      | .null => some (.ifThen condition body)
      | _ => do
        let otherwise ← o.statements
        some (.ifElse condition body otherwise)
  | .whileLoop, [some condition, some body] => do
    let condition ← condition.string?
    let body ← body.statements
    some (.whileLoop condition body)
  | .forEach, [some item, some iterable, some body] => do
    let item ← item.string?
    let iterable ← iterable.string?
    let body ← body.statements
    some (.forEach item iterable body)
  | .stop, [] => some .stop
  | .waitForResponse, [] => some .waitForResponse
  | .task, fields => (taskOfFields? .lenient fields).map .task
  | .parallel, [some tasks] => do
    let tasks ← tasks.tasks
    some (.parallel tasks)
  | _, _ => none

/-- The kind that a `type` stands for: its name, or its number. -/
def kind? (j : Json) : Option Kind :=
  (j.nameAmong? .lenient (Kind.all.map Kind.name)).bind Kind.ofName?

/-- A statement from the members of an object. -/
def statementOfMembers? (members : List (Option String × View)) : Option Statement := do
  match ← fieldsOfMembers? ["type"] members with
  | [some tag] =>
    let known := do
      let k ← kind? tag.json
      let fields ← fieldsOfMembers? k.fields (members.filter (·.1 != some "type"))
      statementOfFields? k fields
    known <|> tag.string?.map .unknown
  | _ => none

/-- A statement from the items of an array. -/
def statementOfItems? : List View → Option Statement
  | [] => none
  | tag :: rest => do
    let k ← kind? tag.json
    let fields ← fieldsOfItems? k.fields rest
    statementOfFields? k fields

/-- A task from the members of an object. -/
def taskOfMembers? (members : List (Option String × View)) : Option Task :=
  (fieldsOfMembers? taskFields members).bind (taskOfFields? .lenient)

/-- A task from the items of an array. -/
def taskOfItems? (items : List View) : Option Task :=
  (fieldsOfItems? taskFields items).bind (taskOfFields? .lenient)

mutual

/-- All that a JSON value may stand for. -/
def ofJson : Json → View
  | .array items =>
    let views := ofItems items
    ⟨.array items, statementOfItems? views, views.mapM View.statement, taskOfItems? views,
      views.mapM View.task⟩
  | .object members =>
    let views := ofMembers members
    ⟨.object members, statementOfMembers? views, none, taskOfMembers? views, none⟩
  | .null => ⟨.null, none, none, none, none⟩
  | .bool b => ⟨.bool b, none, none, none, none⟩
  | .number n => ⟨.number n, none, none, none, none⟩
  | .string content => ⟨.string content, none, none, none, none⟩

/-- All that the items of an array may stand for. -/
def ofItems : List Json → List View
  | [] => []
  | item :: rest => ofJson item :: ofItems rest

/-- All that the members of an object may stand for. -/
def ofMembers : List (Option String × Json) → List (Option String × View)
  | [] => []
  | (key, value) :: rest => (key, ofJson value) :: ofMembers rest

end

end View

/-- Reads a statement. -/
def Statement.ofJson? (j : Json) : Option Statement :=
  if j.readable depthLimit then (View.ofJson j).statement else none

/-- Reads a list of statements that stands in something outside. -/
def bodyOfJson? (j : Json) : Option (List Statement) :=
  if j.readable (depthLimit - 1) then (View.ofJson j).statements else none

/-- Reads a task. -/
def Task.ofJson? (j : Json) : Option Task := do
  match ← j.fields? taskFields with
  | [description, agent, body, file] =>
    if body.all (·.readable (depthLimit - 1)) then
      View.taskOfFields? .strict
        [description.map View.ofJson, agent.map View.ofJson, body.map View.ofJson,
          file.map View.ofJson]
    else none
  | _ => none

/-- Reads a command. -/
def Command.ofJson? (j : Json) : Option Command := do
  match ← j.fields? ["name", "body"] with
  | [some name, some body] =>
    let name ← name.string?
    let body ← bodyOfJson? body
    some ⟨name, body⟩
  | _ => none

/-- Reads a command from JSON text. -/
def Command.ofText? (text : String) : Option Command := (Json.read text).bind Command.ofJson?

/-- Reads a statement from JSON text. -/
def Statement.ofText? (text : String) : Option Statement := (Json.read text).bind Statement.ofJson?

/-- Reads a task from JSON text. -/
def Task.ofText? (text : String) : Option Task := (Json.read text).bind Task.ofJson?

/-- Reads a phrase from JSON text. -/
def Phrase.ofText? (text : String) : Option Phrase := (Json.read text).bind (Phrase.ofJson? .strict)

/-- Reads a value from JSON text. -/
def Value.ofText? (text : String) : Option Value := (Json.read text).bind (Value.ofJson? .strict)

end Playbook
