import Playbook.Proofs.Instructions.Layout
import Playbook.Proofs.Parser.Printer

/-!
# Blocks in a document of instructions

The statements of a block become bullets below its heading, and those of a block inside it follow as
bullets of the same level: nothing marks the end of the inner block.  So a statement after an inner
block and the last statement of it look the same, and an `Otherwise` may belong to any conditional
around it that is still open (`regrouped_compile_eq`).

Nothing else is lost.  Call a command *tidy* if a block inside a block is its last statement, and if
the first block of a conditional with two does not end inside a conditional with one.  The document
of a tidy command determines its statements, and every command of control statements has the
document of a tidy one (`Command.compile_determines_tidy`).

For the first part, two tidy blocks that are followed by something that cannot belong to them are
compared from the front, by induction on the statements.  For the second, what follows an inner
block is moved into it, and an `Otherwise` is given to the conditional that it is read with.
-/

namespace Playbook

/-! ### Tidy commands -/

/-- Whether a statement is one of control, with names for its condition, variable and iterable. -/
def Statement.isStructural : Statement → Bool
  | .stop | .waitForResponse => true
  | .ifThen condition _ | .ifElse condition _ _ | .whileLoop condition _ => isName condition.toList
  | .forEach item iterable _ => isName item.toList && isName iterable.toList
  | _ => false

/-- The blocks of a statement of control. -/
def Statement.blocks : Statement → List (List Statement)
  | .ifThen _ body | .whileLoop _ body | .forEach _ _ body => [body]
  | .ifElse _ body otherwise => [body, otherwise]
  | _ => []

mutual

/-- Whether a statement ends inside a conditional with one block, so that an `Otherwise` after it is
read with that conditional. -/
def Statement.leavesOpen : Statement → Bool
  | .ifThen _ _ => true
  | .ifElse _ _ otherwise => endsOpen otherwise
  | .whileLoop _ body => endsOpen body
  | .forEach _ _ body => endsOpen body
  | _ => false

/-- Whether the last statement of a block ends inside a conditional with one block. -/
def endsOpen : List Statement → Bool
  | [] => false
  | [s] => s.leavesOpen
  | _ :: rest => endsOpen rest

end

/-- A statement of control in which nothing stands where it could be taken for a part of something
else. -/
structure Statement.IsTidy (s : Statement) : Prop where
  isStructural : s.isStructural = true
  blocksLast : ∀ block ∈ s.blocks, ∀ inner ∈ block.dropLast, inner.blocks = []
  closed : ∀ condition body otherwise, s = .ifElse condition body otherwise → endsOpen body = false

/-- A command of nothing but statements of control. -/
def Command.IsStructural (c : Command) : Prop := c.Everywhere fun s => s.isStructural = true

/-- A command that is tidy at every depth. -/
def Command.IsTidy (c : Command) : Prop := c.Everywhere Statement.IsTidy

/-- A block whose statements are tidy, and in which only the last one has blocks. -/
structure TidyBlock (block : List Statement) : Prop where
  everywhere : ∀ s ∈ block, s.Everywhere Statement.IsTidy
  blocksLast : ∀ inner ∈ block.dropLast, inner.blocks = []

section Tidy

variable {s : Statement} {block body otherwise rest : List Statement}
  {condition item iterable : String}

theorem tidyBlock_nil : TidyBlock [] := ⟨nofun, nofun⟩

theorem tidyBlock_cons_iff :
    TidyBlock (s :: rest) ↔
      s.Everywhere Statement.IsTidy ∧ TidyBlock rest ∧ (rest = [] ∨ s.blocks = []) := by
  cases rest with
  | nil =>
    constructor
    · intro h
      exact ⟨h.everywhere s (List.mem_cons_self ..), tidyBlock_nil, .inl rfl⟩
    · rintro ⟨hs, -, -⟩
      exact ⟨List.forall_mem_singleton.2 hs, nofun⟩
  | cons next rest =>
    constructor
    · rintro ⟨hall, hlast⟩
      rw [List.forall_mem_cons] at hall
      rw [List.dropLast_cons_cons, List.forall_mem_cons] at hlast
      exact ⟨hall.1, ⟨hall.2, hlast.2⟩, .inr hlast.1⟩
    · rintro ⟨hs, hrest, hlast⟩
      refine ⟨List.forall_mem_cons.2 ⟨hs, hrest.everywhere⟩, ?_⟩
      rw [List.dropLast_cons_cons]
      exact List.forall_mem_cons.2 ⟨hlast.resolve_left nofun, hrest.blocksLast⟩

theorem tidyBlock_singleton (h : s.Everywhere Statement.IsTidy) : TidyBlock [s] :=
  tidyBlock_cons_iff.2 ⟨h, tidyBlock_nil, .inl rfl⟩

/-- The blocks of a tidy statement are tidy. -/
theorem tidyBlock_of_mem (h : s.Everywhere Statement.IsTidy) (hblock : block ∈ s.blocks) :
    TidyBlock block := by
  refine ⟨fun inner hinner => h.inside inner ?_, h.here.blocksLast block hblock⟩
  cases s with
  | ifThen | whileLoop | forEach =>
    obtain rfl := List.mem_singleton.1 hblock
    exact hinner
  | ifElse condition body otherwise =>
    rcases List.mem_pair.1 hblock with rfl | rfl
    · exact List.mem_append_left _ hinner
    · exact List.mem_append_right _ hinner
  | _ => cases hblock

namespace TidyBlock

theorem ifThen (h : TidyBlock body) (hname : isName condition.toList = true) :
    (Statement.ifThen condition body).Everywhere Statement.IsTidy :=
  .intro ⟨hname, List.forall_mem_singleton.2 h.blocksLast, nofun⟩ h.everywhere

theorem whileLoop (h : TidyBlock body) (hname : isName condition.toList = true) :
    (Statement.whileLoop condition body).Everywhere Statement.IsTidy :=
  .intro ⟨hname, List.forall_mem_singleton.2 h.blocksLast, nofun⟩ h.everywhere

theorem forEach (h : TidyBlock body)
    (hname : (isName item.toList && isName iterable.toList) = true) :
    (Statement.forEach item iterable body).Everywhere Statement.IsTidy :=
  .intro ⟨hname, List.forall_mem_singleton.2 h.blocksLast, nofun⟩ h.everywhere

theorem ifElse (h : TidyBlock body) (hclosed : endsOpen body = false) (ho : TidyBlock otherwise)
    (hname : isName condition.toList = true) :
    (Statement.ifElse condition body otherwise).Everywhere Statement.IsTidy := by
  refine .intro ⟨hname, ?_, ?_⟩ (List.forall_mem_append.2 ⟨h.everywhere, ho.everywhere⟩)
  · exact List.forall_mem_cons.2 ⟨h.blocksLast, List.forall_mem_singleton.2 ho.blocksLast⟩
  · rintro _ _ _ ⟨⟩
    exact hclosed

end TidyBlock

theorem endsOpen_cons (h : rest ≠ []) : endsOpen (s :: rest) = endsOpen rest := by
  obtain ⟨next, rest, rfl⟩ := List.exists_cons_of_ne_nil h
  simp only [endsOpen]

end Tidy

/-! ### Headings -/

theorem isPlain_of_isName {name : List Char} (h : isName name = true) : Text.IsPlain name :=
  ⟨not_mem_of_isName h (by decide), not_mem_of_isName h (by decide)⟩

theorem Statement.hasPlainTexts_of_isStructural {s : Statement} (h : s.isStructural = true) :
    s.HasPlainTexts := by
  cases s with
  | ifThen | ifElse | whileLoop => exact List.forall_mem_singleton.2 (isPlain_of_isName h)
  | forEach item iterable body =>
    rw [isStructural, Bool.and_eq_true] at h
    exact List.forall_mem_cons.2
      ⟨isPlain_of_isName h.1, List.forall_mem_singleton.2 (isPlain_of_isName h.2)⟩
  | stop | waitForResponse => nofun
  | _ => cases h

namespace Rendering

@[simp] theorem opening_ifThen (condition : String) (body : List Statement) :
    opening (.ifThen condition body) = "If ".toList ++ condition.toList ++ [':'] := rfl

@[simp] theorem opening_ifElse (condition : String) (body otherwise : List Statement) :
    opening (.ifElse condition body otherwise) = "If ".toList ++ condition.toList ++ [':'] := rfl

@[simp] theorem opening_whileLoop (condition : String) (body : List Statement) :
    opening (.whileLoop condition body) =
      "While ".toList ++ condition.toList ++ ", repeat:".toList := rfl

@[simp] theorem opening_forEach (item iterable : String) (body : List Statement) :
    opening (.forEach item iterable body) =
      "For each ".toList ++ item.toList ++ " in ".toList ++ iterable.toList ++ [':'] := rfl

@[simp] theorem opening_stop : opening .stop = "Stop current loop/process.".toList := rfl

@[simp] theorem opening_waitForResponse :
    opening .waitForResponse = "Wait for user response before continuing.".toList := rfl

/-- Two statements of control of one kind, with the same names but any blocks.  Conditionals are of
one kind whether they have one block or two. -/
inductive Alike : Statement → Statement → Prop
  | stop : Alike .stop .stop
  | waitForResponse : Alike .waitForResponse .waitForResponse
  | whileLoop (condition : String) (body body' : List Statement) :
    Alike (.whileLoop condition body) (.whileLoop condition body')
  | forEach (item iterable : String) (body body' : List Statement) :
    Alike (.forEach item iterable body) (.forEach item iterable body')
  | one_one (condition : String) (body body' : List Statement) :
    Alike (.ifThen condition body) (.ifThen condition body')
  | one_two (condition : String) (body body' otherwise' : List Statement) :
    Alike (.ifThen condition body) (.ifElse condition body' otherwise')
  | two_one (condition : String) (body otherwise body' : List Statement) :
    Alike (.ifElse condition body otherwise) (.ifThen condition body')
  | two_two (condition : String) (body otherwise body' otherwise' : List Statement) :
    Alike (.ifElse condition body otherwise) (.ifElse condition body' otherwise')

variable {s s' : Statement}

/-- The first line of a statement of control says of which kind it is. -/
theorem alike_of_opening_eq (hs : s.isStructural = true) (hs' : s'.isStructural = true)
    (h : opening s = opening s') : Alike s s' := by
  -- any other statement is not one of control or starts with other words
  cases s with
  | stop =>
    cases s' with
    | stop => exact .stop
    | _ => first | cases hs'; done | simp at h
  | waitForResponse =>
    cases s' with
    | waitForResponse => exact .waitForResponse
    | _ => first | cases hs'; done | simp at h
  | whileLoop condition body =>
    cases s' with
    | whileLoop condition' body' =>
      obtain rfl : condition = condition' := by simpa [String.toList_inj] using h
      exact .whileLoop condition body body'
    | _ => first | cases hs'; done | simp at h
  | forEach item iterable body =>
    cases s' with
    | forEach item' iterable' body' =>
      rw [Statement.isStructural, Bool.and_eq_true] at hs hs'
      have htexts : item.toList ++ ' ' :: ("in ".toList ++ (iterable.toList ++ [':'])) =
          item'.toList ++ ' ' :: ("in ".toList ++ (iterable'.toList ++ [':'])) := by
        simpa using h
      -- a name holds no blank, so the variable ends at the first one
      have hcut := congrArg (Text.splitOn ' ') htexts
      rw [Text.splitOn_append_cons (not_mem_of_isName hs.1 (by decide)),
        Text.splitOn_append_cons (not_mem_of_isName hs'.1 (by decide))] at hcut
      obtain rfl : item = item' := String.toList_inj.1 (List.cons.inj hcut).1
      obtain rfl : iterable = iterable' := by simpa [String.toList_inj] using h
      exact .forEach item iterable body body'
    | _ => first | cases hs'; done | simp at h
  | ifThen condition body =>
    cases s' with
    | ifThen condition' body' =>
      obtain rfl : condition = condition' := by simpa [String.toList_inj] using h
      exact .one_one condition body body'
    | ifElse condition' body' otherwise' =>
      obtain rfl : condition = condition' := by simpa [String.toList_inj] using h
      exact .one_two condition body body' otherwise'
    | _ => first | cases hs'; done | simp at h
  | ifElse condition body otherwise =>
    cases s' with
    | ifThen condition' body' =>
      obtain rfl : condition = condition' := by simpa [String.toList_inj] using h
      exact .two_one condition body otherwise body'
    | ifElse condition' body' otherwise' =>
      obtain rfl : condition = condition' := by simpa [String.toList_inj] using h
      exact .two_two condition body otherwise body' otherwise'
    | _ => first | cases hs'; done | simp at h
  | _ => nomatch hs

theorem opening_ne_otherwise (h : s.isStructural = true) : opening s ≠ "Otherwise:".toList := by
  cases s with
  | ifThen | ifElse | whileLoop | forEach | stop | waitForResponse => simp
  | _ => nomatch h

/-! ### Reading a tidy document -/

@[simp] theorem bullets_zero_nil : bullets 0 [] = [] := rfl

theorem bullets_zero_cons (s : Statement) (rest : List Statement) :
    bullets 0 (s :: rest) = ("- ".toList ++ opening s) :: (below 0 s ++ bullets 0 rest) := rfl

theorem below_zero_ifElse (condition : String) (body otherwise : List Statement) :
    below 0 (.ifElse condition body otherwise) =
      bullets 0 body ++ [] :: "Otherwise:".toList :: bullets 0 otherwise := rfl

/-- What may follow the bullets of a block without being taken for a part of it: nothing, or an
empty line with something other than an `Otherwise` that a conditional waits for. -/
def CanFollow (isOpen : Bool) (rest : List (List Char)) : Prop :=
  rest = [] ∨ ∃ line more, rest = [] :: line :: more ∧ (isOpen = true → line ≠ "Otherwise:".toList)

theorem CanFollow.weaken {isOpen : Bool} {rest : List (List Char)} (h : CanFollow true rest) :
    CanFollow isOpen rest := by
  rcases h with rfl | ⟨line, more, rfl, hline⟩
  · exact .inl rfl
  · exact .inr ⟨line, more, rfl, fun _ => hline rfl⟩

theorem CanFollow.ne_bullet {isOpen : Bool} {rest more : List (List Char)} {text : List Char}
    (h : CanFollow isOpen rest) : rest ≠ ("- ".toList ++ text) :: more := by
  rcases h with rfl | ⟨line, more, rfl, -⟩
  · nofun
  · simp

theorem canFollow_otherwise (lines : List (List Char)) :
    CanFollow false ([] :: "Otherwise:".toList :: lines) :=
  .inr ⟨_, lines, rfl, nofun⟩

theorem CanFollow.ne_otherwise {rest lines : List (List Char)} (h : CanFollow true rest) :
    rest ≠ [] :: "Otherwise:".toList :: lines := by
  rintro rfl
  rcases h with h | ⟨line, more, he, hline⟩
  · cases h
  · cases he
    exact hline rfl rfl

/-- A tidy statement can be told from any other one by its lines, whatever follows. -/
def IsDistinct (s : Statement) : Prop :=
  ∀ ⦃s' : Statement⦄ ⦃rest rest' : List (List Char)⦄, s'.Everywhere Statement.IsTidy →
    (s.blocks = [] ∨ CanFollow s.leavesOpen rest) →
    (s'.blocks = [] ∨ CanFollow s'.leavesOpen rest') → opening s = opening s' →
    below 0 s ++ rest = below 0 s' ++ rest' → s = s' ∧ rest = rest'

variable {block block' : List Statement} {rest rest' : List (List Char)}

/-- What may follow a block may follow its first statement, with the rest of the block between. -/
theorem canFollow_head (h : TidyBlock (s :: block))
    (hrest : CanFollow (endsOpen (s :: block)) rest) :
    s.blocks = [] ∨ CanFollow s.leavesOpen (bullets 0 block ++ rest) := by
  obtain ⟨-, -, rfl | hleaf⟩ := tidyBlock_cons_iff.1 h
  · exact .inr hrest
  · exact .inl hleaf

theorem canFollow_tail (h : CanFollow (endsOpen (s :: block)) rest) :
    CanFollow (endsOpen block) rest := by
  cases block with
  | nil =>
    rcases h with rfl | ⟨line, more, rfl, -⟩
    · exact .inl rfl
    · exact .inr ⟨line, more, rfl, nofun⟩
  | cons next block => rwa [endsOpen_cons (List.cons_ne_nil next block)] at h

theorem bullets_inj (hdistinct : ∀ s ∈ block, s.Everywhere Statement.IsTidy → IsDistinct s)
    (hb : TidyBlock block) (hb' : TidyBlock block') (hrest : CanFollow (endsOpen block) rest)
    (hrest' : CanFollow (endsOpen block') rest')
    (h : bullets 0 block ++ rest = bullets 0 block' ++ rest') : block = block' ∧ rest = rest' := by
  induction block generalizing block' with
  | nil =>
    cases block' with
    | nil => exact ⟨rfl, h⟩
    | cons s' block' => exact absurd h hrest.ne_bullet
  | cons s block ih =>
    cases block' with
    | nil => exact absurd h.symm hrest'.ne_bullet
    | cons s' block' =>
      rw [List.forall_mem_cons] at hdistinct
      rw [bullets_zero_cons, bullets_zero_cons, List.cons_append, List.cons_append,
        List.append_assoc, List.append_assoc, List.cons.injEq, List.append_cancel_left_eq] at h
      obtain ⟨hs, hblock, -⟩ := tidyBlock_cons_iff.1 hb
      obtain ⟨hs', hblock', -⟩ := tidyBlock_cons_iff.1 hb'
      obtain ⟨rfl, hlines⟩ := hdistinct.1 hs hs' (canFollow_head hb hrest)
        (canFollow_head hb' hrest') h.1 h.2
      obtain ⟨rfl, he⟩ := ih hdistinct.2 hblock hblock' (canFollow_tail hrest)
        (canFollow_tail hrest') hlines
      exact ⟨rfl, he⟩

/-- The first block of a tidy conditional with two ends where its `Otherwise` is. -/
theorem canFollow_of_ifElse {condition : String} {body otherwise : List Statement}
    (h : (Statement.ifElse condition body otherwise).IsTidy) (lines : List (List Char)) :
    CanFollow (endsOpen body) ([] :: "Otherwise:".toList :: lines) := by
  rw [h.closed condition body otherwise rfl]
  exact canFollow_otherwise lines

theorem isDistinct (hs : s.Everywhere Statement.IsTidy) : IsDistinct s := by
  induction s with
  | stop | waitForResponse =>
    intro s' rest rest' hs' _ _ hopening h
    cases alike_of_opening_eq hs.here.isStructural hs'.here.isStructural hopening
    exact ⟨rfl, h⟩
  | whileLoop condition body ih | forEach item iterable body ih =>
    intro s' rest rest' hs' hrest hrest' hopening h
    cases alike_of_opening_eq hs.here.isStructural hs'.here.isStructural hopening
    obtain ⟨rfl, he⟩ := bullets_inj ih (tidyBlock_of_mem hs (List.mem_singleton_self _))
      (tidyBlock_of_mem hs' (List.mem_singleton_self _)) (hrest.resolve_left nofun)
      (hrest'.resolve_left nofun) h
    exact ⟨rfl, he⟩
  | ifThen condition body ih =>
    intro s' rest rest' hs' hrest hrest' hopening h
    have hbody := tidyBlock_of_mem hs (List.mem_singleton_self _)
    replace hrest : CanFollow true rest := hrest.resolve_left nofun
    cases alike_of_opening_eq hs.here.isStructural hs'.here.isStructural hopening with
    | one_one _ _ body' =>
      have hbody' := tidyBlock_of_mem hs' (List.mem_singleton_self _)
      replace hrest' : CanFollow true rest' := hrest'.resolve_left nofun
      obtain ⟨rfl, he⟩ := bullets_inj ih hbody hbody' hrest.weaken hrest'.weaken h
      exact ⟨rfl, he⟩
    | one_two _ _ body' otherwise' =>
      -- the other conditional goes on with an `Otherwise`, which may not follow here
      have hbody' := tidyBlock_of_mem hs' (List.mem_cons_self ..)
      rw [below_zero_ifElse, List.append_assoc] at h
      obtain ⟨-, he⟩ := bullets_inj ih hbody hbody' hrest.weaken
        (canFollow_of_ifElse hs'.here _) h
      exact absurd he hrest.ne_otherwise
  | ifElse condition body otherwise ihb iho =>
    intro s' rest rest' hs' hrest hrest' hopening h
    have hbody := tidyBlock_of_mem hs (List.mem_cons_self ..)
    have hfollow := canFollow_of_ifElse hs.here
    rw [below_zero_ifElse, List.append_assoc] at h
    cases alike_of_opening_eq hs.here.isStructural hs'.here.isStructural hopening with
    | two_one _ _ _ body' =>
      have hbody' := tidyBlock_of_mem hs' (List.mem_singleton_self _)
      replace hrest' : CanFollow true rest' := hrest'.resolve_left nofun
      obtain ⟨-, he⟩ := bullets_inj ihb hbody hbody' (hfollow _) hrest'.weaken h
      exact absurd he.symm hrest'.ne_otherwise
    | two_two _ _ _ body' otherwise' =>
      have hbody' := tidyBlock_of_mem hs' (List.mem_cons_self ..)
      rw [below_zero_ifElse, List.append_assoc] at h
      obtain ⟨rfl, he⟩ := bullets_inj ihb hbody hbody' (hfollow _)
        (canFollow_of_ifElse hs'.here _) h
      have hlines : bullets 0 otherwise ++ rest = bullets 0 otherwise' ++ rest' := by simpa using he
      obtain ⟨rfl, hends⟩ := bullets_inj iho (tidyBlock_of_mem hs (by simp [Statement.blocks]))
        (tidyBlock_of_mem hs' (by simp [Statement.blocks])) (hrest.resolve_left nofun)
        (hrest'.resolve_left nofun) hlines
      exact ⟨rfl, hends⟩
  | _ => nomatch hs.here.isStructural

/-- The lines of the statements of a command, with an empty line in front of each. -/
def outline (body : List Statement) : List (List Char) :=
  body.flatMap fun s => [] :: opening s :: below 0 s

@[simp] theorem outline_cons (s : Statement) (body : List Statement) :
    outline (s :: body) = [] :: opening s :: (below 0 s ++ outline body) := rfl

/-- A further statement of a command cannot be taken for a part of the one before it. -/
theorem canFollow_outline {body : List Statement}
    (h : ∀ s ∈ body, s.Everywhere Statement.IsTidy) (isOpen : Bool) :
    CanFollow isOpen (outline body) := by
  cases body with
  | nil => exact .inl rfl
  | cons s body =>
    have hs := h s (List.mem_cons_self ..)
    exact .inr ⟨opening s, _, rfl, fun _ => opening_ne_otherwise hs.here.isStructural⟩

theorem outline_inj {body body' : List Statement} (hb : ∀ s ∈ body, s.Everywhere Statement.IsTidy)
    (hb' : ∀ s ∈ body', s.Everywhere Statement.IsTidy) (h : outline body = outline body') :
    body = body' := by
  induction body generalizing body' with
  | nil =>
    cases body' with
    | nil => rfl
    | cons s' body' => cases h
  | cons s body ih =>
    cases body' with
    | nil => cases h
    | cons s' body' =>
      rw [List.forall_mem_cons] at hb hb'
      rw [outline_cons, outline_cons, List.cons.injEq, List.cons.injEq] at h
      obtain ⟨rfl, he⟩ := isDistinct hb.1 hb'.1 (.inr (canFollow_outline hb.2 _))
        (.inr (canFollow_outline hb'.2 _)) h.2.1 h.2.2
      rw [ih hb.2 hb'.2 he]

/-! ### The text of a document -/

open Instructions Text

theorem ofStatement_of_isStructural (h : s.Everywhere fun s => s.isStructural = true) :
    ofStatement s = opening s ++ following (below 0 s) :=
  ofStatement_eq (h.imp fun _ => Statement.hasPlainTexts_of_isStructural)

theorem following_outline {body : List Statement}
    (h : ∀ s ∈ body, s.Everywhere fun s => s.isStructural = true) :
    following (outline body) = (ofStatements body).flatMap ("\n\n".toList ++ ·) := by
  rw [ofStatements_eq_map, outline, following, List.flatMap_assoc, List.flatMap_map]
  refine List.flatMap_congr fun s hs => ?_
  rw [ofStatement_of_isStructural (h s hs)]
  simp [following]

/-- Lines are recovered from what they are written as below others. -/
theorem following_inj {lines others : List (List Char)} (hl : ∀ line ∈ lines, '\n' ∉ line)
    (ho : ∀ line ∈ others, '\n' ∉ line) (h : following lines = following others) :
    lines = others := by
  have hcut : ∀ lines : List (List Char), (∀ line ∈ lines, '\n' ∉ line) →
      splitOn '\n' (following lines) = [] :: lines := by
    intro lines hlines
    have hall : ∀ line ∈ [] :: lines, '\n' ∉ line :=
      List.forall_mem_cons.2 ⟨List.not_mem_nil, hlines⟩
    rw [← splitOn_joinWith (List.cons_ne_nil _ _) hall, joinWith_cons_eq_following, List.nil_append]
  have hboth := congrArg (splitOn '\n') h
  rw [hcut lines hl, hcut others ho] at hboth
  exact (List.cons.inj hboth).2

theorem not_mem_of_mem_outline {body : List Statement}
    (h : ∀ s ∈ body, s.Everywhere fun s => s.isStructural = true) :
    ∀ line ∈ outline body, '\n' ∉ line := by
  intro line hline
  obtain ⟨s, hs, hline⟩ := List.mem_flatMap.1 hline
  have hplain : s.Everywhere Statement.HasPlainTexts :=
    (h s hs).imp fun _ => Statement.hasPlainTexts_of_isStructural
  rcases List.mem_cons.1 hline with rfl | hline
  · exact List.not_mem_nil
  · rcases List.mem_cons.1 hline with rfl | hline
    · exact (isPlain_opening hplain.here).1
    · exact ((isDocument_below hplain 0).plain line hline).1

/-- Texts that are not empty, joined with a separator, determine what each gives behind one. -/
theorem flatMap_eq_of_joinWith_eq {sep : List Char} {texts others : List (List Char)}
    (ht : ∀ text ∈ texts, text ≠ []) (ho : ∀ text ∈ others, text ≠ [])
    (h : joinWith sep texts = joinWith sep others) :
    texts.flatMap (sep ++ ·) = others.flatMap (sep ++ ·) := by
  have hne : ∀ {text : List Char} {rest : List (List Char)}, text ≠ [] →
      joinWith sep (text :: rest) ≠ [] := by
    intro text rest htext
    rw [joinWith_cons_eq_flatMap]
    exact List.append_ne_nil_of_left_ne_nil htext _
  cases texts with
  | nil =>
    cases others with
    | nil => rfl
    | cons other others => exact absurd h.symm (hne (ho other (List.mem_cons_self ..)))
  | cons text texts =>
    cases others with
    | nil => exact absurd h (hne (ht text (List.mem_cons_self ..)))
    | cons other others =>
      rw [joinWith_cons_eq_flatMap, joinWith_cons_eq_flatMap] at h
      rw [List.flatMap_cons, List.flatMap_cons, List.append_assoc, List.append_assoc, h]

end Rendering

theorem Command.outline_eq_of_compile_eq {c₁ c₂ : Command} (h₁ : c₁.IsStructural)
    (h₂ : c₂.IsStructural) (h : c₁.compile = c₂.compile) :
    Rendering.outline c₁.body = Rendering.outline c₂.body := by
  have hne : ∀ {c : Command}, c.IsStructural →
      ∀ text ∈ Instructions.ofStatements c.body, text ≠ [] := by
    intro c hc text htext
    rw [Instructions.ofStatements_eq_map] at htext
    obtain ⟨s, hs, rfl⟩ := List.mem_map.1 htext
    rw [Rendering.ofStatement_of_isStructural (hc s hs)]
    exact List.append_ne_nil_of_left_ne_nil (Rendering.opening_ne_nil s) _
  refine Rendering.following_inj (Rendering.not_mem_of_mem_outline h₁)
    (Rendering.not_mem_of_mem_outline h₂) ?_
  rw [Rendering.following_outline h₁, Rendering.following_outline h₂]
  exact Rendering.flatMap_eq_of_joinWith_eq (hne h₁) (hne h₂) (String.ofList_inj.1 h)

/-! ### Tidying up -/

namespace Rendering

/-- A tidy block has the bullets of the given one and then the given lines. -/
def BlockTakes (lines : List (List Char)) (block : List Statement) : Prop :=
  ∃ block', TidyBlock block' ∧ bullets 0 block' = bullets 0 block ++ lines

/-- A tidy statement has the lines of the given one and then the given lines. -/
def Takes (lines : List (List Char)) (s : Statement) : Prop :=
  ∃ s' : Statement, s'.Everywhere Statement.IsTidy ∧ opening s' = opening s ∧
    below 0 s' = below 0 s ++ lines

section Taking

variable {lines : List (List Char)} {s : Statement} {body otherwise rest : List Statement}
  {condition item iterable : String}

theorem Takes.singleton (h : Takes lines s) : BlockTakes lines [s] := by
  obtain ⟨s', hs', hopening, hbelow⟩ := h
  refine ⟨[s'], tidyBlock_singleton hs', ?_⟩
  rw [bullets_zero_cons, bullets_zero_cons, hopening, hbelow]
  simp

theorem BlockTakes.cons (hs : s.Everywhere Statement.IsTidy) (hleaf : s.blocks = [])
    (h : BlockTakes lines rest) : BlockTakes lines (s :: rest) := by
  obtain ⟨rest', hrest', hbullets⟩ := h
  refine ⟨s :: rest', tidyBlock_cons_iff.2 ⟨hs, hrest', .inr hleaf⟩, ?_⟩
  rw [bullets_zero_cons, bullets_zero_cons, hbullets]
  simp

namespace BlockTakes

theorem ifThen (h : BlockTakes lines body) (hname : isName condition.toList = true) :
    Takes lines (.ifThen condition body) := by
  obtain ⟨body', hbody', hbullets⟩ := h
  exact ⟨.ifThen condition body', hbody'.ifThen hname, rfl, hbullets⟩

theorem whileLoop (h : BlockTakes lines body) (hname : isName condition.toList = true) :
    Takes lines (.whileLoop condition body) := by
  obtain ⟨body', hbody', hbullets⟩ := h
  exact ⟨.whileLoop condition body', hbody'.whileLoop hname, rfl, hbullets⟩

theorem forEach (h : BlockTakes lines body)
    (hname : (isName item.toList && isName iterable.toList) = true) :
    Takes lines (.forEach item iterable body) := by
  obtain ⟨body', hbody', hbullets⟩ := h
  exact ⟨.forEach item iterable body', hbody'.forEach hname, rfl, hbullets⟩

theorem ifElse (h : BlockTakes lines otherwise)
    (hs : (Statement.ifElse condition body otherwise).Everywhere Statement.IsTidy) :
    Takes lines (.ifElse condition body otherwise) := by
  obtain ⟨otherwise', hotherwise', hbullets⟩ := h
  have hbody : TidyBlock body := tidyBlock_of_mem hs (List.mem_cons_self ..)
  have hclosed : endsOpen body = false := hs.here.closed condition body otherwise rfl
  refine ⟨.ifElse condition body otherwise', ?_, rfl, ?_⟩
  · exact hbody.ifElse hclosed hotherwise' hs.here.isStructural
  · rw [below_zero_ifElse, below_zero_ifElse, hbullets]
    simp

end BlockTakes

end Taking

section Tidying

variable {s : Statement} {block later otherwise : List Statement}

theorem blockTakes_bullets (hlater : TidyBlock later)
    (ih : ∀ s ∈ block, s.Everywhere Statement.IsTidy → s.blocks ≠ [] → Takes (bullets 0 later) s)
    (hb : TidyBlock block) : BlockTakes (bullets 0 later) block := by
  induction block with
  | nil => exact ⟨later, hlater, rfl⟩
  | cons s rest ihr =>
    rw [List.forall_mem_cons] at ih
    obtain ⟨hs, hrest, hlast⟩ := tidyBlock_cons_iff.1 hb
    by_cases hleaf : s.blocks = []
    · exact (ihr ih.2 hrest).cons hs hleaf
    · obtain rfl := hlast.resolve_right hleaf
      exact (ih.1 hs hleaf).singleton

/-- Statements that follow a tidy statement with a block are moved into it. -/
theorem takes_bullets (hlater : TidyBlock later) (hs : s.Everywhere Statement.IsTidy)
    (hblocks : s.blocks ≠ []) : Takes (bullets 0 later) s := by
  induction s with
  | ifThen condition body ih =>
    have hbody := tidyBlock_of_mem hs (List.mem_singleton_self _)
    exact (blockTakes_bullets hlater ih hbody).ifThen hs.here.isStructural
  | whileLoop condition body ih =>
    have hbody := tidyBlock_of_mem hs (List.mem_singleton_self _)
    exact (blockTakes_bullets hlater ih hbody).whileLoop hs.here.isStructural
  | forEach item iterable body ih =>
    have hbody := tidyBlock_of_mem hs (List.mem_singleton_self _)
    exact (blockTakes_bullets hlater ih hbody).forEach hs.here.isStructural
  | ifElse condition body otherwise ihb iho =>
    have hotherwise : TidyBlock otherwise := tidyBlock_of_mem hs (by simp [Statement.blocks])
    exact (blockTakes_bullets hlater iho hotherwise).ifElse hs
  | _ => exact absurd rfl hblocks

theorem blockTakes_otherwise (ih : ∀ s ∈ block, s.Everywhere Statement.IsTidy →
      s.leavesOpen = true → Takes ([] :: "Otherwise:".toList :: bullets 0 otherwise) s)
    (hb : TidyBlock block) (hopen : endsOpen block = true) :
    BlockTakes ([] :: "Otherwise:".toList :: bullets 0 otherwise) block := by
  induction block with
  | nil => cases hopen
  | cons s rest ihr =>
    rw [List.forall_mem_cons] at ih
    obtain ⟨hs, hrest, hlast⟩ := tidyBlock_cons_iff.1 hb
    by_cases hnil : rest = []
    · subst hnil
      exact (ih.1 hs hopen).singleton
    · rw [endsOpen_cons hnil] at hopen
      exact (ihr ih.2 hrest hopen).cons hs (hlast.resolve_left hnil)

/-- An `Otherwise` below a tidy statement that leaves a conditional open is given to the innermost
such conditional. -/
theorem takes_otherwise (hotherwise : TidyBlock otherwise) (hs : s.Everywhere Statement.IsTidy)
    (hopen : s.leavesOpen = true) :
    Takes ([] :: "Otherwise:".toList :: bullets 0 otherwise) s := by
  induction s with
  | ifThen condition body ih =>
    have hbody := tidyBlock_of_mem hs (List.mem_singleton_self _)
    by_cases hinner : endsOpen body = true
    · exact (blockTakes_otherwise ih hbody hinner).ifThen hs.here.isStructural
    · refine ⟨.ifElse condition body otherwise, ?_, rfl, rfl⟩
      exact hbody.ifElse (Bool.eq_false_iff.2 hinner) hotherwise hs.here.isStructural
  | whileLoop condition body ih =>
    have hbody := tidyBlock_of_mem hs (List.mem_singleton_self _)
    exact (blockTakes_otherwise ih hbody hopen).whileLoop hs.here.isStructural
  | forEach item iterable body ih =>
    have hbody := tidyBlock_of_mem hs (List.mem_singleton_self _)
    exact (blockTakes_otherwise ih hbody hopen).forEach hs.here.isStructural
  | ifElse condition body second ihb iho =>
    have hsecond : TidyBlock second := tidyBlock_of_mem hs (by simp [Statement.blocks])
    exact (blockTakes_otherwise iho hsecond hopen).ifElse hs
  | _ => cases hopen

/-- Tidying up statement by statement, from the last one on, tidies up a block. -/
theorem blockTakes_nil (ih : ∀ s ∈ block, Takes [] s) : BlockTakes [] block := by
  induction block with
  | nil => exact ⟨[], tidyBlock_nil, rfl⟩
  | cons s rest ihr =>
    rw [List.forall_mem_cons] at ih
    obtain ⟨s', hs', hopening, hbelow⟩ := ih.1
    obtain ⟨rest', hrest', hbullets⟩ := ihr ih.2
    have htakes : BlockTakes (bullets 0 rest') [s'] :=
      blockTakes_bullets hrest' (fun t _ ht hblocks => takes_bullets hrest' ht hblocks)
        (tidyBlock_singleton hs')
    obtain ⟨block', hblock', he⟩ := htakes
    refine ⟨block', hblock', ?_⟩
    rw [he, bullets_zero_cons, bullets_zero_cons, hopening, hbelow, hbullets]
    simp

/-- Every statement of control has the lines of a tidy one. -/
theorem takes_nil (hs : s.Everywhere fun s => s.isStructural = true) : Takes [] s := by
  induction s with
  | stop => exact ⟨.stop, .of_leaf ⟨rfl, nofun, nofun⟩ rfl, rfl, rfl⟩
  | waitForResponse => exact ⟨.waitForResponse, .of_leaf ⟨rfl, nofun, nofun⟩ rfl, rfl, rfl⟩
  | ifThen condition body ih =>
    exact (blockTakes_nil fun s hs' => ih s hs' (hs.inside s hs')).ifThen hs.here
  | whileLoop condition body ih =>
    exact (blockTakes_nil fun s hs' => ih s hs' (hs.inside s hs')).whileLoop hs.here
  | forEach item iterable body ih =>
    exact (blockTakes_nil fun s hs' => ih s hs' (hs.inside s hs')).forEach hs.here
  | ifElse condition body otherwise ihb iho =>
    obtain ⟨hbody, hotherwise⟩ := List.forall_mem_append.1 hs.inside
    obtain ⟨body', hbody', hb⟩ := blockTakes_nil fun s hs' => ihb s hs' (hbody s hs')
    obtain ⟨otherwise', hotherwise', ho⟩ := blockTakes_nil fun s hs' => iho s hs' (hotherwise s hs')
    rw [List.append_nil] at hb ho
    by_cases hopen : endsOpen body' = true
    · -- the `Otherwise` is read with a conditional inside the first block
      obtain ⟨body'', hbody'', he⟩ := blockTakes_otherwise
        (fun t _ ht hopen => takes_otherwise hotherwise' ht hopen) hbody' hopen
      refine ⟨.ifThen condition body'', hbody''.ifThen hs.here, rfl, ?_⟩
      rw [List.append_nil, below_zero_ifElse, ← hb, ← ho]
      exact he
    · refine ⟨.ifElse condition body' otherwise', ?_, rfl, ?_⟩
      · exact hbody'.ifElse (Bool.eq_false_iff.2 hopen) hotherwise' hs.here
      · rw [List.append_nil, below_zero_ifElse, below_zero_ifElse, hb, ho]
  | _ => cases hs.here

end Tidying

end Rendering

theorem Command.IsTidy.isStructural {c : Command} (h : c.IsTidy) : c.IsStructural :=
  Command.Everywhere.imp (fun _ hs => hs.isStructural) h

theorem exists_tidy_statements {body : List Statement}
    (h : ∀ s ∈ body, s.Everywhere fun s => s.isStructural = true) :
    ∃ body', (∀ s ∈ body', s.Everywhere Statement.IsTidy) ∧
      Instructions.ofStatements body' = Instructions.ofStatements body := by
  induction body with
  | nil => exact ⟨[], nofun, rfl⟩
  | cons s rest ih =>
    rw [List.forall_mem_cons] at h
    obtain ⟨s', hs', hopening, hbelow⟩ := Rendering.takes_nil h.1
    obtain ⟨rest', hrest', he⟩ := ih h.2
    refine ⟨s' :: rest', List.forall_mem_cons.2 ⟨hs', hrest'⟩, ?_⟩
    have hs'' := hs'.imp fun _ ht => ht.isStructural
    rw [Instructions.ofStatements, Instructions.ofStatements, he,
      Rendering.ofStatement_of_isStructural hs'', Rendering.ofStatement_of_isStructural h.1,
      hopening, hbelow, List.append_nil]

/-- The document of a tidy command determines its statements, and every command of control
statements has the document of a tidy one. -/
theorem Command.compile_determines_tidy (c₁ c₂ : Command) :
    (c₁.IsTidy → c₂.IsTidy → c₁.compile = c₂.compile → c₁.body = c₂.body) ∧
      (c₁.IsStructural → ∃ tidy : Command,
        tidy.IsTidy ∧ tidy.name = c₁.name ∧ tidy.compile = c₁.compile) := by
  constructor
  · intro h₁ h₂ h
    exact Rendering.outline_inj h₁ h₂
      (Command.outline_eq_of_compile_eq h₁.isStructural h₂.isStructural h)
  · intro h
    obtain ⟨body, hbody, he⟩ := exists_tidy_statements h
    exact ⟨⟨c₁.name, body⟩, hbody, rfl, by rw [Command.compile, Command.compile, he]⟩

/-- A statement after an inner block. -/
def afterBlock : Command := ⟨"c", [.ifThen "a" [.whileLoop "b" [], .stop]]⟩

/-- The same statement inside the inner block. -/
def inBlock : Command := ⟨"c", [.ifThen "a" [.whileLoop "b" [.stop]]]⟩

/-- A second block of the outer one of two conditionals. -/
def outerOtherwise : Command :=
  ⟨"c", [.ifElse "a" [.ifThen "b" [.stop]] [.waitForResponse]]⟩

/-- The same block as the second one of the inner conditional. -/
def innerOtherwise : Command :=
  ⟨"c", [.ifThen "a" [.ifElse "b" [.stop] [.waitForResponse]]]⟩

/-- Commands of control statements that differ in what belongs to which block may have one document:
neither the end of an inner block nor the conditional of an `Otherwise` shows. -/
theorem regrouped_compile_eq :
    (afterBlock.IsStructural ∧ inBlock.IsStructural ∧ afterBlock.compile = inBlock.compile ∧
      afterBlock.body ≠ inBlock.body) ∧
    (outerOtherwise.IsStructural ∧ innerOtherwise.IsStructural ∧
      outerOtherwise.compile = innerOtherwise.compile ∧
      outerOtherwise.body ≠ innerOtherwise.body) := by
  refine ⟨⟨?_, ?_, by decide +kernel, by simp [afterBlock, inBlock]⟩, ?_, ?_, by decide +kernel,
    by simp [outerOtherwise, innerOtherwise]⟩
  all_goals
    repeat' first
      | exact .of_leaf rfl rfl
      | exact List.forall_mem_nil _
      | refine List.forall_mem_cons.2 ⟨?_, ?_⟩
      | refine .intro rfl ?_

theorem isTidy_inBlock : inBlock.IsTidy := by
  have hstop : Statement.stop.Everywhere Statement.IsTidy := .of_leaf ⟨rfl, nofun, nofun⟩ rfl
  have hloop := (tidyBlock_singleton hstop).whileLoop (show isName "b".toList = true from rfl)
  exact List.forall_mem_singleton.2 ((tidyBlock_singleton hloop).ifThen rfl)

/-- The tidy command for a document with a statement after an inner block has it inside. -/
theorem Command.compile_determines_tidy_afterBlock :
    ∃ tidy : Command, tidy.IsTidy ∧ tidy.compile = afterBlock.compile ∧
      tidy.body = inBlock.body := by
  have hstructural : afterBlock.IsStructural := by
    refine List.forall_mem_singleton.2 (.intro rfl (List.forall_mem_cons.2 ⟨.of_leaf rfl rfl, ?_⟩))
    exact List.forall_mem_singleton.2 (.of_leaf rfl rfl)
  have hdocument : afterBlock.compile = inBlock.compile := by decide +kernel
  obtain ⟨tidy, htidy, -, hsame⟩ :=
    (Command.compile_determines_tidy afterBlock inBlock).2 hstructural
  refine ⟨tidy, htidy, hsame, ?_⟩
  exact (Command.compile_determines_tidy tidy inBlock).1 htidy isTidy_inBlock
    (hsame.trans hdocument)

end Playbook
