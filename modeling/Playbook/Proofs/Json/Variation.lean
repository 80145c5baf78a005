import Mathlib.Data.List.Perm.Basic
import Mathlib.Logic.Relation
import Playbook.Proofs.Json.Roles

/-!
# What readers pass over

The order of the members of an object does not count, and neither do members that the reader has no
name for.  `MemberEdit` is one change of this sort, at any place of a value: members in another
order, or one more member.  An edit leaves the parts of a value alike in their roles, and so the
value itself (`MemberEdit.alike`); along any number of edits a value is read as the same.

A statement is read as a whole, and what is added inside it must therefore be sound.  Outside of
statements a new member may hold anything.
-/

namespace Playbook

/-! ### Edits -/

/-- A change of a value that does not count for its role: members in another order or a member
without a name for the reader, in the value itself or in one of its parts. -/
inductive MemberEdit : Role → Json → Json → Prop
  | permute {role : Role} {members members' : List (Option String × Json)}
      (h : members.Perm members') : MemberEdit role (.object members) (.object members')
  | add {role : Role} {members : List (Option String × Json)} {key : String} {value : Json}
      (hrole : role.isRecord = true) (hkey : key ∉ role.names (.object members))
      (hvalue : role.passesOver = false → value.sound = true) :
      MemberEdit role (.object members) (.object ((some key, value) :: members))
  | member {role : Role} {before after : List (Option String × Json)} {key : Option String}
      {value value' : Json}
      (h : MemberEdit (role.member (.object (before ++ (key, value) :: after)) key) value value') :
      MemberEdit role (.object (before ++ (key, value) :: after))
        (.object (before ++ (key, value') :: after))
  | item {role : Role} {before after : List Json} {value value' : Json}
      (h : MemberEdit (role.item (.array (before ++ value :: after)) before.length) value value') :
      MemberEdit role (.array (before ++ value :: after)) (.array (before ++ value' :: after))

/-- A value comes from another one by changes that do not count for its role. -/
def MemberEdits (role : Role) : Json → Json → Prop := Relation.ReflTransGen (MemberEdit role)

/-! ### What an edit keeps -/

namespace Role

theorem passesOver_part (role : Role) (name : String) : (role.part name).passesOver = false := by
  unfold part
  split <;> rfl

theorem passesOver_member (role : Role) (j : Json) (key : Option String) :
    (role.member j key).passesOver = false := by
  unfold member
  split
  · split
    · exact role.passesOver_part _
    · rfl
  · rfl

theorem passesOver_item (role : Role) (j : Json) (i : Nat) :
    (role.item j i).passesOver = false := by
  unfold item
  split
  · rfl
  · rfl
  · cases (role.names j)[i]? with
    | none => rfl
    | some name => exact role.passesOver_part name

end Role

namespace MemberEdit

variable {role : Role} {j j' : Json}

/-- Edits do not bring anything into a statement that cannot be read. -/
theorem sound_eq (h : MemberEdit role j j') (hrole : role.passesOver = false) :
    j.sound = j'.sound := by
  induction h with
  | permute h =>
    rw [Bool.eq_iff_iff]
    simp only [Json.sound, Json.soundMembers_iff, h.mem_iff]
  | add _ _ hvalue => simp [Json.sound, Json.soundMembers, hvalue hrole]
  | member _ ih =>
    rw [Bool.eq_iff_iff]
    simp only [Json.sound, Json.soundMembers_iff, List.forall_mem_append, List.forall_mem_cons,
      ih (Role.passesOver_member ..)]
  | item _ ih =>
    rw [Bool.eq_iff_iff]
    simp only [Json.sound, Json.soundItems_iff, List.forall_mem_append, List.forall_mem_cons,
      ih (Role.passesOver_item ..)]

/-- Edits only add to what nests. -/
theorem depth_le (h : MemberEdit role j j') : j.depth ≤ j'.depth := by
  induction h with
  | permute h =>
    refine Nat.succ_le_succ (Json.depthOfMembers_le_iff.2 fun m hm => ?_)
    exact Json.depthOfMembers_le_iff.1 le_rfl m (h.subset hm)
  | add => exact Nat.succ_le_succ (le_max_right _ _)
  | @member _ before after key value value' _ ih =>
    refine Nat.succ_le_succ (Json.depthOfMembers_le_iff.2 ?_)
    have hmembers := Json.depthOfMembers_le_iff.1
      (le_refl (Json.depthOfMembers (before ++ (key, value') :: after)))
    rw [List.forall_mem_append, List.forall_mem_cons] at hmembers ⊢
    exact ⟨hmembers.1, ih.trans hmembers.2.1, hmembers.2.2⟩
  | @item _ before after value value' _ ih =>
    refine Nat.succ_le_succ (Json.depthOfItems_le_iff.2 ?_)
    have hitems := Json.depthOfItems_le_iff.1
      (le_refl (Json.depthOfItems (before ++ value' :: after)))
    rw [List.forall_mem_append, List.forall_mem_cons] at hitems ⊢
    exact ⟨hitems.1, ih.trans hitems.2.1, hitems.2.2⟩

end MemberEdit

/-! ### Edits are passed over -/

section Members

variable {name : String} {members members' before after : List (Option String × Json)}

theorem member?_of_perm (h : members.Perm members') :
    member? members name = member? members' name := by
  have hfilter := h.filter (·.1 == some name)
  unfold member?
  generalize members.filter (·.1 == some name) = found at hfilter ⊢
  generalize members'.filter (·.1 == some name) = found' at hfilter ⊢
  rcases found with _ | ⟨m, _ | ⟨second, rest⟩⟩
  · rw [hfilter.nil_eq]
  · rw [hfilter.singleton_eq]
  · have hlength := hfilter.length_eq
    match found', hlength with
    | _ :: _ :: _, _ => rfl

theorem member?_cons_of_ne {key : Option String} {value : Json} (h : key ≠ some name) :
    member? ((key, value) :: members) name = member? members name := by
  unfold member?
  rw [List.filter_cons_of_neg (by simpa using h)]

/-- A change in one member is a change in what is found under its name. -/
theorem rel_member?_of_rel {R : Json → Json → Prop} (hR : ∀ j, R j j) {key : Option String}
    {value value' : Json} (h : key = some name → R value value') :
    Option.Rel (Option.Rel R) (member? (before ++ (key, value) :: after) name)
      (member? (before ++ (key, value') :: after) name) := by
  unfold member?
  rw [List.filter_append, List.filter_append]
  by_cases hkey : key = some name
  · rw [List.filter_cons_of_pos (by simpa using hkey),
      List.filter_cons_of_pos (by simpa using hkey)]
    generalize before.filter (·.1 == some name) = front
    generalize after.filter (·.1 == some name) = rest
    match front, rest with
    | [], [] => exact .some (.some (h hkey))
    | [], _ :: _ => exact .none
    | [_], _ => exact .none
    | _ :: _ :: _, _ => exact .none
  · rw [List.filter_cons_of_neg (by simpa using hkey),
      List.filter_cons_of_neg (by simpa using hkey)]
    exact Outcome.rel_refl (Outcome.rel_refl hR) _

end Members

theorem getElem?_append_cons_of_ne {α : Type} {before after : List α} {a b : α} {i : Nat}
    (h : i ≠ before.length) : (before ++ a :: after)[i]? = (before ++ b :: after)[i]? := by
  rcases Nat.lt_or_gt_of_ne h with h | h
  · rw [List.getElem?_append_left h, List.getElem?_append_left h]
  · rw [List.getElem?_append_right h.le, List.getElem?_append_right h.le]
    obtain ⟨k, hk⟩ := Nat.exists_eq_add_of_lt h
    rw [show i - before.length = k + 1 by omega]
    rfl

namespace Role

variable {role : Role} {members members' : List (Option String × Json)}

theorem partsAlike_of_perm (h : members.Perm members') :
    role.PartsAlike (.object members) (.object members') := by
  refine .object h.all_eq fun name _ => ?_
  rw [member?_of_perm h]
  exact Outcome.rel_refl (Outcome.rel_refl (Alike.refl _)) _

theorem partsAlike_cons {key : String} (hkey : key ∉ role.names (.object members)) (value : Json) :
    role.PartsAlike (.object members) (.object ((some key, value) :: members)) := by
  refine .object (by simp) fun name hname => ?_
  have hne : some key ≠ some name := fun he => hkey (Option.some.inj he ▸ hname)
  rw [member?_cons_of_ne hne]
  exact Outcome.rel_refl (Outcome.rel_refl (Alike.refl _)) _

theorem partsAlike_of_member {before after : List (Option String × Json)} {key : Option String}
    {value value' : Json}
    (h : (role.member (.object (before ++ (key, value) :: after)) key).Alike value value') :
    role.PartsAlike (.object (before ++ (key, value) :: after))
      (.object (before ++ (key, value') :: after)) := by
  refine .object (by simp) fun name hname => rel_member?_of_rel (Alike.refl _) ?_
  rintro rfl
  rw [member, if_pos hname] at h
  exact h

theorem item_of_isRecord (hrole : role.isRecord = true) (j : Json) (i : Nat) :
    role.item j i = (role.names j)[i]?.elim .plain role.part := by
  cases role with
  | statements | tasks => cases hrole
  | _ => rfl

theorem partsAlike_of_item (hrole : role.isRecord = true) {before after : List Json}
    {value value' : Json}
    (h : (role.item (.array (before ++ value :: after)) before.length).Alike value value') :
    role.PartsAlike (.array (before ++ value :: after)) (.array (before ++ value' :: after)) := by
  refine .array (by simp) fun i name hname => ?_
  by_cases hi : i = before.length
  · subst hi
    rw [item_of_isRecord hrole, hname] at h
    simpa using h
  · rw [getElem?_append_cons_of_ne hi]
    exact Outcome.rel_refl (Alike.refl _) _

end Role

namespace Json.Interchangeable

theorem refl (j : Json) : j.Interchangeable j := Role.Alike.refl .plain j

theorem object {members members' : List (Option String × Json)}
    (hlength : members.length = members'.length)
    (hone : ∀ m m', members = [m] → members' = [m'] → m.1 = m'.1 ∧ m.2.Interchangeable m'.2) :
    (Json.object members).Interchangeable (.object members') := by
  match members, members', hlength, hone with
  | [], [], _, _ => exact .refl _
  | [(key, value)], [(key', value')], _, hone =>
    obtain ⟨rfl, hvalue⟩ : key = key' ∧ value.Interchangeable value' := hone _ _ rfl rfl
    refine ⟨by simp, rfl, rfl, rfl, fun _ => rfl, fun r => ?_, fun _ _ => rfl⟩
    rw [Json.choice?, Json.choice?, hvalue.holdsNothing_eq]
  | _ :: _ :: _, _ :: _ :: _, _, _ =>
    exact ⟨by simp, rfl, rfl, rfl, fun _ => rfl, fun _ => rfl, fun _ _ => rfl⟩

theorem of_perm {members members' : List (Option String × Json)} (h : members.Perm members') :
    (Json.object members).Interchangeable (.object members') := by
  refine object h.length_eq ?_
  rintro m m' rfl rfl
  rw [List.singleton_perm_singleton.1 h]
  exact ⟨rfl, refl _⟩

theorem of_member {before after : List (Option String × Json)} {key : Option String}
    {value value' : Json} (h : value.Interchangeable value') :
    (Json.object (before ++ (key, value) :: after)).Interchangeable
      (.object (before ++ (key, value') :: after)) := by
  refine object (by simp) fun m m' hm hm' => ?_
  cases before with
  | nil =>
    obtain ⟨rfl, -⟩ := List.cons.inj hm
    obtain ⟨rfl, -⟩ := List.cons.inj hm'
    exact ⟨rfl, h⟩
  | cons first rest => simp at hm

theorem of_item {before after : List Json} {value value' : Json}
    (h : value.Interchangeable value') :
    (Json.array (before ++ value :: after)).Interchangeable
      (.array (before ++ value' :: after)) :=
  ⟨by simp, rfl, Outcome.mapM_append_cons h.string_eq, rfl, fun _ => rfl, fun _ => rfl,
    fun _ _ => rfl⟩

end Json.Interchangeable

/-- An edit is passed over: in a record, because its parts stay alike, and in a list or in plain
data, because these have no members to add to. -/
theorem MemberEdit.alike {role : Role} {j j' : Json} (h : MemberEdit role j j') :
    role.Alike j j' := by
  induction h with
  | @permute role members members' hperm =>
    cases role with
    | plain => exact .of_perm hperm
    | statements =>
      have hedit : MemberEdit .statements (.object members) (.object members') := .permute hperm
      exact ⟨by simp, hedit.sound_eq rfl, rfl⟩
    | tasks => rfl
    | _ => exact Role.alike_of_partsAlike rfl (Role.partsAlike_of_perm hperm)
  | add hrole hkey => exact Role.alike_of_partsAlike hrole (Role.partsAlike_cons hkey _)
  | @member role before after key value value' h ih =>
    cases role with
    | plain =>
      have hplain : Role.plain.member (.object (before ++ (key, value) :: after)) key = .plain := by
        cases key <;> simp [Role.member, Role.names]
      rw [hplain] at ih
      exact .of_member ih
    | statements => exact ⟨by simp, (MemberEdit.member h).sound_eq rfl, rfl⟩
    | tasks => rfl
    | _ => exact Role.alike_of_partsAlike rfl (Role.partsAlike_of_member ih)
  | @item role before after value value' h ih =>
    cases role with
    | plain => exact .of_item ih
    | statements =>
      refine ⟨by simp, (MemberEdit.item h).sound_eq rfl, ?_⟩
      rw [View.statements_array, View.statements_array]
      exact Outcome.mapM_append_cons ih
    | tasks =>
      show (View.ofJson _).tasks = (View.ofJson _).tasks
      rw [View.tasks_array, View.tasks_array]
      exact Outcome.mapM_append_cons ih
    | _ => exact Role.alike_of_partsAlike rfl (Role.partsAlike_of_item rfl ih)

/-- What is read stays the same along edits, if each of them keeps it. -/
theorem MemberEdits.eq_of_forall {α : Type} {role : Role} {j j' : Json} (h : MemberEdits role j j')
    {limit : Nat} (hdepth : j'.depth ≤ limit) (read : Json → α)
    (hstep : ∀ j j', MemberEdit role j j' → j'.depth ≤ limit → read j = read j') :
    read j = read j' := by
  induction h with
  | refl => rfl
  | tail _ hlast ih => exact (ih (hlast.depth_le.trans hdepth)).trans (hstep _ _ hlast hdepth)

/-- Readers pass over edits: a value is read as the same, or fails in the same way, when its members
are put into another order and members are added that do not count, at any depth. -/
theorem ofJson?_eq_of_memberEdits {j j' : Json} (hdepth : j'.depth ≤ depthLimit) :
    (MemberEdits .command j j' → Command.ofJson? j = Command.ofJson? j') ∧
    (MemberEdits .statement j j' → Statement.ofJson? j = Statement.ofJson? j') ∧
    (MemberEdits (.task .strict) j j' → Task.ofJson? j = Task.ofJson? j') ∧
    (MemberEdits (.phrase .strict) j j' → Phrase.ofJson? .strict j = Phrase.ofJson? .strict j') ∧
    (MemberEdits (.value .strict) j j' → Value.ofJson? .strict j = Value.ofJson? .strict j') ∧
    (MemberEdits .settings j j' → Settings.ofJson? j = Settings.ofJson? j') := by
  refine ⟨fun h => h.eq_of_forall hdepth _ fun j j' hedit hj' => ?_,
    fun h => h.eq_of_forall hdepth _ fun j j' hedit hj' => ?_,
    fun h => h.eq_of_forall hdepth _ fun j j' hedit hj' => ?_,
    fun h => h.eq_of_forall hdepth (Phrase.ofJson? .strict) fun _ _ hedit _ => hedit.alike,
    fun h => h.eq_of_forall hdepth (Value.ofJson? .strict) fun _ _ hedit _ => hedit.alike,
    fun h => h.eq_of_forall hdepth Settings.ofJson? fun _ _ hedit _ => hedit.alike⟩
  · exact hedit.alike (hedit.depth_le.trans hj') hj'
  · have hstatement : (View.ofJson j).statement = (View.ofJson j').statement := hedit.alike
    have hread : j.readable depthLimit = j'.readable depthLimit := by
      simp [Json.readable, hedit.sound_eq rfl, hedit.depth_le.trans hj', hj']
    rw [Statement.ofJson?, Statement.ofJson?, hread, hstatement]
  · exact hedit.alike (hedit.depth_le.trans hj') hj'

/-- A number that is too large for double precision. -/
def overflowing : Json := .number ⟨false, ['1'], [], some 999⟩

/-- The members of a command with one statement. -/
def commandAround (statement : Json) : List (Option String × Json) :=
  [(some "name", .text "c"), (some "body", .array [statement])]

/-- A question in the usual order. -/
def plainQuestion : Json :=
  .record [("type", .text "ask"),
    ("question", .record [("kind", .text "literal"), ("value", .text "q")])]

/-- The same question with each tag behind what it governs, and a member that only another kind of
statement has. -/
def shuffledQuestion : Json :=
  .record [("message", .text "m"),
    ("question", .record [("value", .text "q"), ("kind", .text "literal")]),
    ("type", .text "ask")]

/-- The command around that question, with a member that cannot be read. -/
def shuffledCommand : Json := .object ((some "x", overflowing) :: commandAround shuffledQuestion)

theorem memberEdit_commandAround {s s' : Json} (h : MemberEdit .statement s s') :
    MemberEdit .command (.object (commandAround s)) (.object (commandAround s')) :=
  @MemberEdit.member .command [(some "name", .text "c")] [] (some "body") _ _
    (@MemberEdit.item .statements [] [] s s' h)

theorem memberEdits_shuffledCommand :
    MemberEdits .command (.object (commandAround plainQuestion)) shuffledCommand := by
  have hinner : MemberEdit .statement plainQuestion (.record [("type", .text "ask"),
      ("question", .record [("value", .text "q"), ("kind", .text "literal")])]) :=
    @MemberEdit.member .statement [(some "type", .text "ask")] [] (some "question") _ _
      (.permute (.swap ..))
  have houter : MemberEdit .statement (.record [("type", .text "ask"),
      ("question", .record [("value", .text "q"), ("kind", .text "literal")])])
      (.record [("question", .record [("value", .text "q"), ("kind", .text "literal")]),
        ("type", .text "ask")]) :=
    .permute (.swap ..)
  have hmessage : MemberEdit .statement
      (.record [("question", .record [("value", .text "q"), ("kind", .text "literal")]),
        ("type", .text "ask")]) shuffledQuestion :=
    .add rfl (by decide) fun _ => rfl
  have hunread : MemberEdit .command (.object (commandAround shuffledQuestion)) shuffledCommand :=
    .add rfl (by decide) nofun
  exact Relation.ReflTransGen.single (memberEdit_commandAround hinner)
    |>.tail (memberEdit_commandAround houter) |>.tail (memberEdit_commandAround hmessage)
    |>.tail hunread

theorem ofJson?_eq_of_memberEdits_shuffledCommand :
    shuffledCommand.depth ≤ depthLimit ∧
      MemberEdits .command (.object (commandAround plainQuestion)) shuffledCommand ∧
      Command.ofJson? shuffledCommand = some ⟨"c", [.ask (.literal "q")]⟩ := by
  have hdepth : shuffledCommand.depth ≤ depthLimit := by decide
  refine ⟨hdepth, memberEdits_shuffledCommand, ?_⟩
  rw [← (ofJson?_eq_of_memberEdits hdepth).1 memberEdits_shuffledCommand]
  rfl

/-- Not every new member is passed over.  Inside a statement it matters what a member holds: a
number that is too large cannot be read, and so the statement cannot either.  A key must spell a
text everywhere. -/
theorem ofJson?_of_unsound :
    ((Json.record [("x", overflowing), ("type", .text "break")]).depth ≤ depthLimit ∧
      "x" ∉ Role.statement.names (.record [("type", .text "break")]) ∧
      Statement.ofJson? (.record [("type", .text "break")]) = some .stop ∧
      Statement.ofJson? (.record [("x", overflowing), ("type", .text "break")]) = none) ∧
    Settings.ofJson? (.object []) = some .unset ∧
      Settings.ofJson? (.object [(none, .null)]) = none :=
  ⟨⟨by decide, by decide, rfl, rfl⟩, rfl, rfl⟩

end Playbook
