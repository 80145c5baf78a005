import Playbook.Proofs.Json.Encoding
import Playbook.Proofs.Parser.Extent

/-!
# Commands come back from JSON

A command that was read, from a command file or from JSON, is printed as a JSON text from which the
same command is read again.  A command file has no statements of unknown kind, and a statement that
was read from JSON is of unknown kind only if it could not be read as of a known one; in particular
its kind is not the name of a kind without members, which is never missed.
-/

namespace Playbook

/-! ### What is read from JSON -/

/-- What holds of a JSON value whenever it holds of all values inside it holds of every value. -/
@[elab_as_elim]
theorem Json.induct {motive : Json → Prop} (null : motive .null) (bool : ∀ b, motive (.bool b))
    (number : ∀ n, motive (.number n)) (string : ∀ content, motive (.string content))
    (array : ∀ items, (∀ j ∈ items, motive j) → motive (.array items))
    (object : ∀ members, (∀ m ∈ members, motive m.2) → motive (.object members)) (j : Json) :
    motive j := by
  refine @Json.rec motive (fun items => ∀ j ∈ items, motive j)
    (fun members => ∀ m ∈ members, motive m.2) (fun m => motive m.2)
    null bool number string array object ?_ ?_ ?_ ?_ ?_ j
  · intro j hj
    cases hj
  · intro first rest hfirst hrest
    exact List.forall_mem_cons.2 ⟨hfirst, hrest⟩
  · intro m hm
    cases hm
  · intro first rest hfirst hrest
    exact List.forall_mem_cons.2 ⟨hfirst, hrest⟩
  · intro _ _ hvalue
    exact hvalue

theorem mem_of_fieldsOfMembers? {α : Type} {names : List String}
    {members : List (Option String × α)} {fields : List (Option α)}
    (h : fieldsOfMembers? names members = some fields) {value : α} (hv : some value ∈ fields) :
    ∃ m ∈ members, m.2 = value := by
  obtain ⟨name, -, hname⟩ := Outcome.exists_mem_of_mapM_eq_some h _ hv
  split at hname
  · cases hname
  · rename_i key value' hfilter
    obtain rfl : value' = value := by simpa using hname
    have hmem : (key, value') ∈ members.filter (·.1 == some name) := by
      rw [hfilter]
      exact List.mem_singleton_self _
    exact ⟨_, List.mem_of_mem_filter hmem, rfl⟩
  · cases hname

theorem mem_of_fieldsOfItems? {α : Type} {names : List String} {items : List α}
    {fields : List (Option α)} (h : fieldsOfItems? names items = some fields) {value : α}
    (hv : some value ∈ fields) : value ∈ items := by
  unfold fieldsOfItems? at h
  split at h
  · obtain rfl := Option.some.inj h
    simpa using hv
  · cases h

namespace View

/-- Whatever a value may stand for, its unknown kinds are unknown. -/
structure StaysUnknown (v : View) : Prop where
  statement : ∀ s ∈ v.statement, s.Everywhere Statement.StaysUnknown
  statements : ∀ body ∈ v.statements, ∀ s ∈ body, s.Everywhere Statement.StaysUnknown
  task : ∀ t ∈ v.task, ∀ s ∈ t.body, s.Everywhere Statement.StaysUnknown
  tasks : ∀ ts ∈ v.tasks, ∀ t ∈ ts, ∀ s ∈ t.body, s.Everywhere Statement.StaysUnknown

theorem taskOfFields?_staysUnknown {r : Json.Reading} {fields : List (Option View)} {t : Task}
    (hf : ∀ v, some v ∈ fields → v.StaysUnknown) (h : taskOfFields? r fields = some t) :
    ∀ s ∈ t.body, s.Everywhere Statement.StaysUnknown := by
  unfold taskOfFields? at h
  split at h
  · rename_i description agent body file
    have hbody : (∃ v, body = some v ∧ v.statements = some t.body) ∨ t.body = [] := by
      cases body <;> cases agent <;>
        simp only [bind, Option.bind_eq_some_iff, Option.some.injEq] at h <;> grind
    rcases hbody with ⟨v, rfl, hv⟩ | hnil
    · exact (hf v (by simp)).statements t.body hv
    · simp [hnil]
  · cases h

theorem statementOfFields?_staysUnknown {k : Kind} {fields : List (Option View)} {s : Statement}
    (hf : ∀ v, some v ∈ fields → v.StaysUnknown) (h : statementOfFields? k fields = some s) :
    s.Everywhere Statement.StaysUnknown := by
  unfold statementOfFields? at h
  split at h
  · obtain ⟨question, -, h⟩ := Option.bind_eq_some_iff.1 h
    obtain rfl := Option.some.inj h
    exact .of_leaf trivial rfl
  · obtain ⟨message, -, h⟩ := Option.bind_eq_some_iff.1 h
    obtain rfl := Option.some.inj h
    exact .of_leaf trivial rfl
  · obtain ⟨filename, -, h⟩ := Option.bind_eq_some_iff.1 h
    obtain ⟨content, -, h⟩ := Option.bind_eq_some_iff.1 h
    obtain rfl := Option.some.inj h
    exact .of_leaf trivial rfl
  · obtain ⟨name, -, h⟩ := Option.bind_eq_some_iff.1 h
    obtain ⟨value, -, h⟩ := Option.bind_eq_some_iff.1 h
    obtain rfl := Option.some.inj h
    exact .of_leaf trivial rfl
  · obtain ⟨name, -, h⟩ := Option.bind_eq_some_iff.1 h
    obtain ⟨args, -, h⟩ := Option.bind_eq_some_iff.1 h
    obtain rfl := Option.some.inj h
    exact .of_leaf trivial rfl
  · rename_i bodyView otherwiseView
    obtain ⟨condition, -, h⟩ := Option.bind_eq_some_iff.1 h
    obtain ⟨body, hbody, h⟩ := Option.bind_eq_some_iff.1 h
    have hinside := (hf bodyView (by simp)).statements body hbody
    cases otherwiseView with
    | none =>
      obtain rfl := Option.some.inj h
      exact .intro trivial hinside
    | some view =>
      dsimp only at h
      split at h
      · obtain rfl := Option.some.inj h
        exact .intro trivial hinside
      · obtain ⟨otherwise, hotherwise, h⟩ := Option.bind_eq_some_iff.1 h
        obtain rfl := Option.some.inj h
        exact .intro trivial (List.forall_mem_append.2
          ⟨hinside, (hf view (by simp)).statements otherwise hotherwise⟩)
  · rename_i bodyView
    obtain ⟨condition, -, h⟩ := Option.bind_eq_some_iff.1 h
    obtain ⟨body, hbody, h⟩ := Option.bind_eq_some_iff.1 h
    obtain rfl := Option.some.inj h
    exact .intro trivial ((hf bodyView (by simp)).statements body hbody)
  · rename_i bodyView
    obtain ⟨item, -, h⟩ := Option.bind_eq_some_iff.1 h
    obtain ⟨iterable, -, h⟩ := Option.bind_eq_some_iff.1 h
    obtain ⟨body, hbody, h⟩ := Option.bind_eq_some_iff.1 h
    obtain rfl := Option.some.inj h
    exact .intro trivial ((hf bodyView (by simp)).statements body hbody)
  · obtain rfl := Option.some.inj h
    exact .of_leaf trivial rfl
  · obtain rfl := Option.some.inj h
    exact .of_leaf trivial rfl
  · obtain ⟨t, ht, rfl⟩ := Option.map_eq_some_iff.1 h
    exact .intro trivial (taskOfFields?_staysUnknown hf ht)
  · rename_i tasksView
    obtain ⟨tasks, htasks, h⟩ := Option.bind_eq_some_iff.1 h
    obtain rfl := Option.some.inj h
    refine .intro trivial (List.forall_mem_map.2 fun t ht => .intro trivial ?_)
    exact (hf tasksView (by simp)).tasks tasks htasks t ht
  · cases h

/-- A kind that needs no members is never missed. -/
theorem statementOfFields?_of_no_fields {k : Kind} (h : k.fields = []) :
    ∃ s, statementOfFields? k [] = some s := by
  cases k with
  | stop => exact ⟨_, rfl⟩
  | waitForResponse => exact ⟨_, rfl⟩
  | _ => cases h

theorem kind?_of_string? {v : View} {name : String} (h : v.string? = some name) :
    kind? v.json = Kind.ofName? name := by
  obtain ⟨j, _, _, _, _⟩ := v
  cases j with
  | string content =>
    obtain rfl : content = some name := h
    rfl
  | _ => cases h

theorem statementOfItems?_staysUnknown {items : List View} {s : Statement}
    (hi : ∀ v ∈ items, v.StaysUnknown) (h : statementOfItems? items = some s) :
    s.Everywhere Statement.StaysUnknown := by
  cases items with
  | nil => cases h
  | cons tag rest =>
    obtain ⟨k, -, h⟩ := Option.bind_eq_some_iff.1 h
    obtain ⟨fields, hfields, h⟩ := Option.bind_eq_some_iff.1 h
    refine statementOfFields?_staysUnknown (fun v hv => ?_) h
    exact hi v (List.mem_cons_of_mem tag (mem_of_fieldsOfItems? hfields hv))

theorem statementOfMembers?_staysUnknown {members : List (Option String × View)} {s : Statement}
    (hm : ∀ m ∈ members, m.2.StaysUnknown) (h : statementOfMembers? members = some s) :
    s.Everywhere Statement.StaysUnknown := by
  unfold statementOfMembers? at h
  obtain ⟨tags, -, h⟩ := Option.bind_eq_some_iff.1 h
  split at h
  · rename_i tag
    simp only [Option.orElse_eq_orElse, Option.orElse_eq_or] at h
    rcases Option.or_eq_some_iff.1 h with h | ⟨hknown, h⟩
    · obtain ⟨k, -, h⟩ := Option.bind_eq_some_iff.1 h
      obtain ⟨fields, hfields, h⟩ := Option.bind_eq_some_iff.1 h
      refine statementOfFields?_staysUnknown (fun v hv => ?_) h
      obtain ⟨m, hmem, rfl⟩ := mem_of_fieldsOfMembers? hfields hv
      exact hm m (List.mem_of_mem_filter hmem)
    · -- were this the name of a kind without members, it would have been read as that kind
      obtain ⟨kind, hkind, rfl⟩ := Option.map_eq_some_iff.1 h
      refine .of_leaf (fun k hk hnone => ?_) rfl
      obtain ⟨s, hs⟩ := statementOfFields?_of_no_fields hnone
      have hfields : fieldsOfMembers? k.fields (members.filter (·.1 != some "type")) = some [] := by
        rw [hnone]
        rfl
      have htag : kind? tag.json = some k := by
        rw [kind?_of_string? hkind, hk]
      rw [htag] at hknown
      simp only [bind, Option.bind_some, hfields, hs] at hknown
      cases hknown
  · cases h

theorem staysUnknown_ofJson (j : Json) : (ofJson j).StaysUnknown := by
  induction j using Json.induct with
  | null => constructor <;> simp [ofJson]
  | bool b => constructor <;> simp [ofJson]
  | number n => constructor <;> simp [ofJson]
  | string content => constructor <;> simp [ofJson]
  | array items ih =>
    have hviews : ∀ v ∈ ofItems items, v.StaysUnknown := by
      rw [ofItems_eq_map]
      exact List.forall_mem_map.2 ih
    constructor
    · intro s hs
      exact statementOfItems?_staysUnknown hviews hs
    · intro body hbody s hs
      obtain ⟨v, hv, he⟩ := Outcome.exists_mem_of_mapM_eq_some hbody s hs
      exact (hviews v hv).statement s he
    · intro t ht
      obtain ⟨fields, hfields, ht⟩ := Option.bind_eq_some_iff.1 ht
      refine taskOfFields?_staysUnknown (fun v hv => ?_) ht
      exact hviews v (mem_of_fieldsOfItems? hfields hv)
    · intro tasks htasks t ht
      obtain ⟨v, hv, he⟩ := Outcome.exists_mem_of_mapM_eq_some htasks t ht
      exact (hviews v hv).task t he
  | object members ih =>
    have hviews : ∀ m ∈ ofMembers members, m.2.StaysUnknown := by
      rw [ofMembers_eq_map]
      exact List.forall_mem_map.2 ih
    constructor
    · intro s hs
      exact statementOfMembers?_staysUnknown hviews hs
    · intro body hbody
      cases hbody
    · intro t ht
      obtain ⟨fields, hfields, ht⟩ := Option.bind_eq_some_iff.1 ht
      refine taskOfFields?_staysUnknown (fun v hv => ?_) ht
      obtain ⟨m, hm, rfl⟩ := mem_of_fieldsOfMembers? hfields hv
      exact hviews m hm
    · intro tasks htasks
      cases htasks

end View

/-- The unknown kinds of a command that is read from JSON are unknown. -/
theorem Command.everywhere_of_ofText? {c : Command} {text : String}
    (h : Command.ofText? text = some c) : c.Everywhere Statement.StaysUnknown := by
  obtain ⟨j, -, h⟩ := Option.bind_eq_some_iff.1 h
  unfold ofJson? at h
  obtain ⟨fields, -, h⟩ := Option.bind_eq_some_iff.1 h
  split at h
  · rename_i name body
    obtain ⟨_, -, h⟩ := Option.bind_eq_some_iff.1 h
    obtain ⟨statements, hbody, h⟩ := Option.bind_eq_some_iff.1 h
    obtain rfl := Option.some.inj h
    unfold bodyOfJson? at hbody
    split at hbody
    · exact (View.staysUnknown_ofJson body).statements statements hbody
    · cases hbody
  · cases h

theorem Statement.holdsOfForms_staysUnknown : Parser.HoldsOfForms Statement.StaysUnknown := by
  intro block line word tokens s rest h
  cases h <;> trivial

namespace Command

/-- A command that was read comes back from the JSON text that it is printed as, if that does not
nest too deeply to be read. -/
theorem ofText?_pretty_toJson {c : Command}
    (h : (∃ text, ofText? text = some c) ∨ ∃ source, parse source = .ok c)
    (hd : c.toJson.depth ≤ depthLimit) : ofText? c.toJson.pretty = some c := by
  rcases h with ⟨text, h⟩ | ⟨source, h⟩
  · exact (everywhere_of_ofText? h).ofText?_pretty hd
  · exact (everywhere_of_parse Statement.holdsOfForms_staysUnknown h).ofText?_pretty hd

/-- A command in an unusual form: members out of order, a statement as an array, a task without a
description, and an `else` block without statements. -/
def unusualJson : Json :=
  .record
    [("body", .array
      [.array [.text "break"],
        .record [("file", .text "f"), ("type", .text "task")],
        .record [("else", .array []), ("type", .text "if"), ("condition", .text "c"),
          ("body", .array [.record [("type", .text "new")]])]]),
      ("name", .text "a\"\\\n\u0001𝄞")]

/-- The command in that form. -/
def unusual : Command :=
  ⟨"a\"\\\n\u0001𝄞", [.stop, .unknown "task", .ifElse "c" [.unknown "new"] []]⟩

theorem ofText?_pretty_toJson_unusual :
    (ofText? unusualJson.pretty = some unusual ∧ unusual.toJson.depth ≤ depthLimit) ∧
      ofText? unusual.toJson.pretty = some unusual := by
  have hplain : unusualJson.IsPlain := by
    repeat' first
      | exact .text _
      | exact List.forall_mem_nil _
      | refine List.forall_mem_cons.2 ⟨?_, ?_⟩
      | refine .array ?_
      | refine .record ?_
  have hread : ofText? unusualJson.pretty = some unusual := by
    rw [ofText?, Json.read_pretty hplain]
    rfl
  have hdepth : unusual.toJson.depth ≤ depthLimit := by decide +kernel
  exact ⟨⟨hread, hdepth⟩, ofText?_pretty_toJson (.inl ⟨_, hread⟩) hdepth⟩

end Command

end Playbook
