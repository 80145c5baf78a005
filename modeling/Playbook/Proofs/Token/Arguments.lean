import Playbook.Token.Nesting

/-!
# Arguments, one token at a time

`arguments?` first finds the end of an argument list and then cuts what stands before it at its
commas.  The list can also be read in one go, with the arguments so far and the tokens of the next
one at hand (`collect`), and this comes to the same (`arguments?_eq_collect`).
-/

namespace Playbook.Token

variable {rest run after : List Token} {t : Token}

/-- Goes on with an argument list, given the arguments so far, the tokens of the next one and the
number of open brackets. -/
def collect (args : List (List Token)) (current : List Token) (depth : Nat) :
    List Token → Option (List (List Token) × List Token)
  | [] => none
  | t :: rest =>
    if t.lexeme = .lineBreak then none
    else if depth = 0 ∧ t.lexeme = .symbol .closeParen then
      if !current.isEmpty then some (args ++ [current], rest)
      else if args.isEmpty then some (args, rest)
      else none
    else if depth = 0 ∧ t.lexeme = .symbol .comma then
      if current.isEmpty then none else collect (args ++ [current]) [] depth rest
    else collect args (current ++ [t]) (nestBrackets depth t.lexeme) rest

/-- What becomes of an argument list, given what was read of it before, the number of open brackets,
the tokens up to its end and those from there on. -/
def finish (args : List (List Token)) (current : List Token) (depth : Nat) (run : List Token) :
    List Token → Option (List (List Token) × List Token)
  | [] => none
  | t :: rest =>
    if t.is .closeParen then
      if args = [] ∧ current ++ run = [] then some ([], rest)
      else
        let pieces := (cutAtCommas depth run).modifyHead (current ++ ·)
        if pieces.any List.isEmpty then none else some (args ++ pieces, rest)
    else none

theorem modifyHead_self (pieces : List (List Token)) :
    pieces.modifyHead (fun piece => piece) = pieces :=
  congrFun List.modifyHead_id pieces

theorem finish_of_comma (ht : t.lexeme = .symbol .comma) (args : List (List Token))
    (current run after : List Token) :
    finish args current 0 (t :: run) after =
      if current.isEmpty then none else finish (args ++ [current]) [] 0 run after := by
  have hcut : cutAtCommas 0 (t :: run) = [] :: cutAtCommas 0 run := by simp [cutAtCommas, is, ht]
  cases after with
  | nil => simp [finish]
  | cons u after =>
    cases current with
    | nil => simp [finish, hcut]
    | cons c current =>
      simp [finish, hcut, modifyHead_self]

theorem finish_of_not_comma {depth : Nat} (ht : ¬(depth = 0 ∧ t.lexeme = .symbol .comma))
    (args : List (List Token)) (current run after : List Token) :
    finish args current depth (t :: run) after =
      finish args (current ++ [t]) (nestBrackets depth t.lexeme) run after := by
  have hcut : (cutAtCommas depth (t :: run)).modifyHead (current ++ ·) =
      (cutAtCommas (nestBrackets depth t.lexeme) run).modifyHead (current ++ [t] ++ ·) := by
    rw [cutAtCommas, if_neg (by simpa [is] using ht), List.modifyHead_modifyHead]
    congr 1
    funext piece
    simp
  cases after with
  | nil => rfl
  | cons u after => simp [finish, hcut]

/-- Collected step by step, the arguments are the pieces of the run between its commas. -/
theorem collect_eq_finish {args : List (List Token)} {current : List Token} {depth : Nat}
    (hrun : takeNested nestBrackets .closeParen depth rest = (run, after)) :
    collect args current depth rest = finish args current depth run after := by
  induction rest generalizing args current depth run after with
  | nil =>
    cases hrun
    rfl
  | cons t rest ih =>
    rw [takeNested] at hrun
    rw [collect]
    by_cases hb : t.lexeme = .lineBreak
    · rw [if_pos (by simp [isBreak, hb])] at hrun
      cases hrun
      simp [hb, finish, is]
    · by_cases hclose : depth = 0 ∧ t.lexeme = .symbol .closeParen
      · rw [if_pos (by simp [isBreak, is, hclose])] at hrun
        cases hrun
        obtain ⟨rfl, ht⟩ := hclose
        cases args <;> cases current <;> simp [ht, finish, is, cutAtCommas]
      · rw [if_neg (by simp [isBreak, is, hb, hclose])] at hrun
        cases hrun
        rw [if_neg hb, if_neg hclose]
        split
        · rename_i hcomma
          obtain ⟨rfl, ht⟩ := hcomma
          rw [finish_of_comma ht]
          split
          · rfl
          · have hdepth : nestBrackets 0 t.lexeme = 0 := by
              rw [ht]
              rfl
            rw [hdepth]
            exact ih rfl
        · rename_i hcomma
          rw [finish_of_not_comma hcomma]
          exact ih rfl

theorem arguments?_eq_collect (tokens : List Token) :
    arguments? tokens = (after? .openParen tokens).bind (collect [] [] 0) := by
  unfold arguments?
  refine congrArg (Option.bind _) (funext fun inner => ?_)
  cases hrun : takeNested nestBrackets .closeParen 0 inner with
  | mk run after =>
    rw [collect_eq_finish hrun, runBefore?, hrun]
    cases after with
    | nil => rfl
    | cons t after => by_cases ht : t.is .closeParen = true <;> simp [finish, ht, modifyHead_self]

end Playbook.Token
