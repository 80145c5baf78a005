import Playbook.Proofs.Json.RoundTrip

/-!
# Values that stand for phrases, values and agents

A member is found by its name among others.  A phrase or a value comes with its kind, and so the
JSON value has a `kind` and a `value`, as members of an object or as the two items of an array.
Inside a statement the kind can be written in several ways, and so can an agent: as a word, as the
only key of an object, or as a number.  `IsPhrase`, `IsValue` and `IsAgent` tell what stands for
what, and the readers agree with them on all values that can be read.
-/

namespace Playbook

/-! ### Members -/

/-- The member of the given name: it is given once with this value, or not given at all. -/
def MemberIs {α : Type} (members : List (Option String × α)) (name : String) (value : Option α) :
    Prop :=
  members.filter (·.1 == some name) = (value.map fun v => (some name, v)).toList

theorem fieldsOfMembers?_eq_some_iff {α : Type} {names : List String}
    {members : List (Option String × α)} {fields : List (Option α)} :
    fieldsOfMembers? names members = some fields ↔
      List.Forall₂ (MemberIs members) names fields := by
  rw [fieldsOfMembers?, Outcome.mapM_eq_some_iff]
  refine iff_of_eq (congrArg (List.Forall₂ · names fields) (funext₂ fun name value => propext ?_))
  have hkeys : ∀ m ∈ members.filter (·.1 == some name), m.1 = some name := by
    intro m hm
    simpa using (List.mem_filter.1 hm).2
  unfold MemberIs
  generalize members.filter (·.1 == some name) = found at hkeys ⊢
  rcases found with _ | ⟨⟨key, v⟩, _ | ⟨second, more⟩⟩
  · cases value <;> simp
  · obtain rfl : key = some name := hkeys _ (List.mem_singleton_self _)
    cases value <;> simp
  · cases value <;> simp

/-! ### Texts -/

theorem Json.string?_eq_some_iff {j : Json} {s : String} : j.string? = some s ↔ j = .text s := by
  cases j <;> simp [Json.string?, Json.text]

theorem Json.bool?_eq_some_iff {j : Json} {b : Bool} : j.bool? = some b ↔ j = .bool b := by
  cases j <;> simp [Json.bool?]

theorem Json.strings?_eq_some_iff {j : Json} {texts : List String} :
    j.strings? = some texts ↔ j = textsToJson texts := by
  constructor
  · intro h
    cases j with
    | array items =>
      have hitems := (Outcome.mapM_eq_some_iff.1 h).imp fun _ _ => Json.string?_eq_some_iff.1
      have heq : items = texts.map Json.text := by
        rw [← List.forall₂_eq_eq_eq, List.forall₂_map_right_iff]
        exact hitems
      rw [heq]
      rfl
    | _ => cases h
  · rintro rfl
    exact strings?_textsToJson texts

theorem Json.optional?_string?_iff {value : Option Json} {file : Option String} :
    Json.optional? Json.string? value = some file ↔
      ((value = none ∨ value = some .null) ∧ file = none) ∨
        ∃ name, value = some (.text name) ∧ file = some name := by
  cases value with
  | none => simp [Json.optional?, eq_comm]
  | some j =>
    cases j with
    | string content => cases content <;> simp [Json.optional?, Json.string?, Json.text, eq_comm]
    | _ => simp [Json.optional?, Json.string?, Json.text, eq_comm]

/-! ### Kinds -/

/-- A value is a word of a choice that has no data: the word itself, or an object with the word as
its only key and nothing for it. -/
inductive IsChoice (word : String) : Json → Prop
  | itself : IsChoice word (.text word)
  | key {nothing : Json} (h : nothing = .null ∨ nothing = .object []) :
      IsChoice word (.object [(some word, nothing)])

/-- A value comes with a kind that has a word and a number: in an object among other members, or in
an array, where the number may stand for the kind. -/
inductive HasKind (word : String) (number : Nat) : Json → Json → Prop
  | object {members : List (Option String × Json)} {kind value : Json}
      (hkind : MemberIs members "kind" (some kind))
      (hvalue : MemberIs members "value" (some value)) (h : IsChoice word kind) :
      HasKind word number (.object members) value
  | named {value : Json} : HasKind word number (.array [.text word, value]) value
  | numbered {n : Numeral} {value : Json} (h : n.natural? = some number) :
      HasKind word number (.array [.number n, value]) value

/-- A value is a phrase: a text that is a literal or a reference. -/
inductive IsPhrase (j : Json) : Phrase → Prop
  | literal {s : String} (h : HasKind "literal" 0 j (.text s)) : IsPhrase j (.literal s)
  | reference {s : String} (h : HasKind "reference" 1 j (.text s)) : IsPhrase j (.reference s)

/-- A JSON value is a value of one of the four kinds. -/
inductive IsValue (j : Json) : Value → Prop
  | str {s : String} (h : HasKind "str" 0 j (.text s)) : IsValue j (.str s)
  | bool {b : Bool} (h : HasKind "bool" 1 j (.bool b)) : IsValue j (.bool b)
  | array {items : List String} (h : HasKind "array" 2 j (textsToJson items)) :
      IsValue j (.array items)
  | expr {s : String} (h : HasKind "expr" 3 j (.text s)) : IsValue j (.expr s)

/-- A value is an agent. -/
inductive IsAgent (j : Json) : Agent → Prop
  | bash (h : IsChoice "bash" j) : IsAgent j .bash
  | explore (h : IsChoice "explore" j) : IsAgent j .explore
  | plan (h : IsChoice "plan" j) : IsAgent j .plan
  | general (h : IsChoice "general" j) : IsAgent j .general

/-! ### Readers -/

section

variable {j value : Json} {word : String} {number : Nat}

theorem Json.choice?_eq_some_iff : j.choice? .lenient = some word ↔ IsChoice word j := by
  constructor
  · intro h
    unfold Json.choice? at h
    split at h
    · subst h
      exact .itself
    · split at h
      · next hnothing =>
        subst h
        refine .key ?_
        unfold Json.holdsNothing at hnothing
        split at hnothing
        · exact Or.inl rfl
        · exact Or.inr rfl
        · cases hnothing
      · cases h
    · cases h
  · rintro (_ | ⟨rfl | rfl⟩) <;> rfl

theorem Json.nameAmong?_eq_some_iff {kinds : List String} (hnodup : kinds.Nodup)
    (hword : kinds[number]? = some word) :
    j.nameAmong? .lenient kinds = some word ↔
      j = .text word ∨ ∃ n, j = .number n ∧ n.natural? = some number := by
  obtain ⟨hnumber, hget⟩ := List.getElem?_eq_some_iff.1 hword
  have hindex : ∀ i, kinds[i]? = some word ↔ i = number := by
    intro i
    rw [← hword, eq_comm, List.getElem?_inj hnumber hnodup, eq_comm]
  cases j with
  | string content => simp [Json.nameAmong?, Json.text]
  | number n => simp [Json.nameAmong?, Json.text, Option.bind_eq_some_iff, hindex]
  | _ => simp [Json.nameAmong?, Json.text]

/-- The readers of kinds agree with `HasKind`. -/
theorem Json.ofKind?_eq_some_iff {kinds : List String} (hnodup : kinds.Nodup)
    (hword : kinds[number]? = some word) {limit : Nat} (hj : j.readable limit = true) :
    j.ofKind? .lenient kinds = some (word, value) ↔ HasKind word number j value := by
  refine Option.bind_eq_some_iff.trans ?_
  cases j with
  | object members =>
    have hkeys : members.all (·.1.isSome) = true := List.all_eq_true.2 fun m hm =>
      (Json.soundMembers_iff.1 (Json.readable_iff.1 hj).1 m hm).1
    rw [Json.fields?, if_pos hkeys]
    constructor
    · rintro ⟨fields, hfields, h⟩
      split at h
      · obtain ⟨name, hname, h⟩ := Option.bind_eq_some_iff.1 h
        cases h
        rcases fieldsOfMembers?_eq_some_iff.1 hfields with _ | ⟨hkind, _ | ⟨hvalue, _⟩⟩
        exact .object hkind hvalue (Json.choice?_eq_some_iff.1 hname)
      · cases h
    · rintro ⟨hkind, hvalue, h⟩
      refine ⟨_, fieldsOfMembers?_eq_some_iff.2 (.cons hkind (.cons hvalue .nil)), ?_⟩
      exact Option.bind_eq_some_iff.2 ⟨word, Json.choice?_eq_some_iff.2 h, rfl⟩
  | array items =>
    constructor
    · rintro ⟨fields, hfields, h⟩
      split at h
      · obtain ⟨name, hname, h⟩ := Option.bind_eq_some_iff.1 h
        cases h
        match items, hfields with
        | [kind, value], hfields =>
          cases hfields
          obtain rfl | ⟨n, rfl, hn⟩ := (Json.nameAmong?_eq_some_iff hnodup hword).1 hname
          · exact .named
          · exact .numbered hn
      · cases h
    · rintro (_ | _ | hn)
      · exact ⟨_, rfl, rfl⟩
      · refine ⟨_, rfl, Option.bind_eq_some_iff.2 ⟨word, ?_, rfl⟩⟩
        exact (Json.nameAmong?_eq_some_iff hnodup hword).2 (Or.inr ⟨_, rfl, hn⟩)
  | _ =>
    constructor
    · rintro ⟨fields, hfields, -⟩
      cases hfields
    · intro h
      cases h

/-- Phrases are read from exactly the values that are phrases. -/
theorem Phrase.ofJson?_eq_some_iff {limit : Nat} (hj : j.readable limit = true) {p : Phrase} :
    Phrase.ofJson? .lenient j = some p ↔ IsPhrase j p := by
  have hkind : ∀ {word number value}, ["literal", "reference"][number]? = some word →
      (j.ofKind? .lenient ["literal", "reference"] = some (word, value) ↔
        HasKind word number j value) :=
    fun hword => Json.ofKind?_eq_some_iff (by decide) hword hj
  constructor
  · intro h
    obtain ⟨told, hread, h⟩ := Option.bind_eq_some_iff.1 h
    split at h
    · obtain ⟨s, hs, rfl⟩ := Option.map_eq_some_iff.1 h
      obtain rfl := Json.string?_eq_some_iff.1 hs
      exact .literal ((hkind rfl).1 hread)
    · obtain ⟨s, hs, rfl⟩ := Option.map_eq_some_iff.1 h
      obtain rfl := Json.string?_eq_some_iff.1 hs
      exact .reference ((hkind rfl).1 hread)
    · cases h
  · rintro (h | h)
    · exact Option.bind_eq_some_iff.2 ⟨_, (hkind rfl).2 h, rfl⟩
    · exact Option.bind_eq_some_iff.2 ⟨_, (hkind rfl).2 h, rfl⟩

/-- Values are read from exactly the JSON values that are values. -/
theorem Value.ofJson?_eq_some_iff {limit : Nat} (hj : j.readable limit = true) {v : Value} :
    Value.ofJson? .lenient j = some v ↔ IsValue j v := by
  have hkind : ∀ {word number value}, ["str", "bool", "array", "expr"][number]? = some word →
      (j.ofKind? .lenient ["str", "bool", "array", "expr"] = some (word, value) ↔
        HasKind word number j value) :=
    fun hword => Json.ofKind?_eq_some_iff (by decide) hword hj
  constructor
  · intro h
    obtain ⟨told, hread, h⟩ := Option.bind_eq_some_iff.1 h
    split at h
    · obtain ⟨s, hs, rfl⟩ := Option.map_eq_some_iff.1 h
      obtain rfl := Json.string?_eq_some_iff.1 hs
      exact .str ((hkind rfl).1 hread)
    · obtain ⟨b, hb, rfl⟩ := Option.map_eq_some_iff.1 h
      obtain rfl := Json.bool?_eq_some_iff.1 hb
      exact .bool ((hkind rfl).1 hread)
    · obtain ⟨items, hitems, rfl⟩ := Option.map_eq_some_iff.1 h
      obtain rfl := Json.strings?_eq_some_iff.1 hitems
      exact .array ((hkind rfl).1 hread)
    · obtain ⟨s, hs, rfl⟩ := Option.map_eq_some_iff.1 h
      obtain rfl := Json.string?_eq_some_iff.1 hs
      exact .expr ((hkind rfl).1 hread)
    · cases h
  · intro h
    cases h with
    | str h => exact Option.bind_eq_some_iff.2 ⟨_, (hkind rfl).2 h, rfl⟩
    | bool h => exact Option.bind_eq_some_iff.2 ⟨_, (hkind rfl).2 h, rfl⟩
    | @array items h =>
      refine Option.bind_eq_some_iff.2 ⟨_, (hkind rfl).2 h, ?_⟩
      exact Option.map_eq_some_iff.2 ⟨items, strings?_textsToJson items, rfl⟩
    | expr h => exact Option.bind_eq_some_iff.2 ⟨_, (hkind rfl).2 h, rfl⟩

/-- Agents are read from exactly the values that are agents. -/
theorem Agent.ofJson?_eq_some_iff {a : Agent} :
    Agent.ofJson? .lenient j = some a ↔ IsAgent j a := by
  constructor
  · intro h
    obtain ⟨word, hword, ha⟩ := Option.bind_eq_some_iff.1 h
    have hchoice := Json.choice?_eq_some_iff.1 hword
    have hkeyword : a.keyword = word := by simpa using List.find?_some ha
    rw [← hkeyword] at hchoice
    cases a with
    | bash => exact .bash hchoice
    | explore => exact .explore hchoice
    | plan => exact .plan hchoice
    | general => exact .general hchoice
  · intro h
    have hchoice : IsChoice a.keyword j := by cases h <;> assumption
    exact Option.bind_eq_some_iff.2
      ⟨_, Json.choice?_eq_some_iff.2 hchoice, Agent.ofKeyword?_keyword a⟩

end

end Playbook
