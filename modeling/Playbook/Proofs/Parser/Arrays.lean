import Playbook.Proofs.Parser.Braces
import Playbook.Proofs.Parser.Positions

/-!
# What arrays are

The right-hand side of an assignment is an array exactly if it is a pair of square brackets around a
run in which they are balanced, so `[a] + [b]` and `[a]]` are expressions.  The reader sees this
from one count of open brackets, which is to reach zero at the last token and not before
(`closesAtEnd_iff`).

The elements of an array do not come from its tokens.  They are the pieces of the text between the
two brackets, which is cut at every comma, those in strings and inner brackets included
(`Elements`).  Where this text stands in the source, and that of an expression, is told by the
places of the first and the last token (`Value.ofTokens_rightHandSide`).
-/

namespace Playbook

namespace Token

variable {depth : Nat} {rest run : List Token} {t : Token} {interior : List Char}

/-! ### Square brackets -/

/-- The number of times that a sign stands in a run. -/
def occurrences (s : Symbol) (run : List Token) : Nat := run.countP (·.is s)

/-- With the given number of square brackets open in front of a run, it closes these and those that
it opens, and never one more than are open. -/
structure Balanced (depth : Nat) (run : List Token) : Prop where
  front : ∀ front, front <+: run →
    occurrences .closeBracket front ≤ depth + occurrences .openBracket front
  total : occurrences .closeBracket run = depth + occurrences .openBracket run

theorem balanced_nil : Balanced depth [] ↔ depth = 0 := by
  constructor
  · intro h
    simpa [occurrences] using h.total.symm
  · rintro rfl
    refine ⟨fun front hfront => ?_, rfl⟩
    obtain rfl := List.prefix_nil.1 hfront
    exact Nat.le_refl 0

/-- A token in front of a run may change the number of brackets that are open in front of it. -/
theorem balanced_cons {other : Nat}
    (h : ∀ front,
      occurrences .closeBracket front + (depth + occurrences .openBracket (t :: front)) =
        occurrences .closeBracket (t :: front) + (other + occurrences .openBracket front)) :
    Balanced depth (t :: run) ↔ Balanced other run := by
  have hle (front : List Token) : occurrences .closeBracket (t :: front) ≤
      depth + occurrences .openBracket (t :: front) ↔
        occurrences .closeBracket front ≤ other + occurrences .openBracket front := by
    have := h front
    omega
  constructor
  · intro hrun
    refine ⟨fun front hfront => ?_, ?_⟩
    · exact (hle front).1 (hrun.front _ (List.cons_prefix_cons.2 ⟨rfl, hfront⟩))
    · have := h run
      have := hrun.total
      omega
  · intro hrun
    refine ⟨fun front hfront => ?_, ?_⟩
    · rcases List.prefix_cons_iff.1 hfront with rfl | ⟨more, rfl, hmore⟩
      · exact Nat.zero_le _
      · exact (hle more).2 (hrun.front more hmore)
    · have := h run
      have := hrun.total
      omega

theorem occurrences_cons (s : Symbol) (t : Token) (run : List Token) :
    occurrences s (t :: run) = occurrences s run + if t.is s then 1 else 0 :=
  List.countP_cons

theorem balanced_cons_open (ht : t.is .openBracket = true) :
    Balanced depth (t :: run) ↔ Balanced (depth + 1) run := by
  have hlexeme : t.lexeme = .symbol .openBracket := beq_iff_eq.1 ht
  refine balanced_cons fun front => ?_
  simp [occurrences_cons, is, hlexeme]
  omega

theorem balanced_cons_close (ht : t.is .closeBracket = true) :
    Balanced (depth + 1) (t :: run) ↔ Balanced depth run := by
  have hlexeme : t.lexeme = .symbol .closeBracket := beq_iff_eq.1 ht
  refine balanced_cons fun front => ?_
  simp [occurrences_cons, is, hlexeme]
  omega

theorem not_balanced_zero_cons (ht : t.is .closeBracket = true) : ¬Balanced 0 (t :: run) := by
  intro h
  have hlexeme : t.lexeme = .symbol .closeBracket := beq_iff_eq.1 ht
  have hfirst := h.front [t] (List.prefix_append [t] run)
  simp [occurrences, is, hlexeme] at hfirst

theorem balanced_cons_other (hopen : ¬t.is .openBracket = true)
    (hclose : ¬t.is .closeBracket = true) : Balanced depth (t :: run) ↔ Balanced depth run := by
  refine balanced_cons fun front => ?_
  simp [occurrences_cons, hopen, hclose]

/-- A bracket is closed by the last of the tokens behind it if the ones between are balanced. -/
theorem closesAtEnd_iff :
    closesAtEnd depth rest = true ↔
      ∃ run last, rest = run ++ [last] ∧ last.is .closeBracket = true ∧ Balanced depth run := by
  -- a run behind which the last token stands either has a first token or is empty
  have hsplit (t : Token) (rest : List Token) (P : List Token → Prop) :
      (∃ run last, t :: rest = run ++ [last] ∧ last.is .closeBracket = true ∧ P run) ↔
        (rest = [] ∧ t.is .closeBracket = true ∧ P []) ∨
          ∃ run last, rest = run ++ [last] ∧ last.is .closeBracket = true ∧ P (t :: run) := by
    constructor
    · rintro ⟨run, last, hrest, hlast, hrun⟩
      cases run with
      | nil =>
        cases hrest
        exact .inl ⟨rfl, hlast, hrun⟩
      | cons u run =>
        cases hrest
        exact .inr ⟨run, last, rfl, hlast, hrun⟩
    · rintro (⟨rfl, ht, hnil⟩ | ⟨run, last, rfl, hlast, hrun⟩)
      · exact ⟨[], t, rfl, ht, hnil⟩
      · exact ⟨t :: run, last, rfl, hlast, hrun⟩
  fun_induction closesAtEnd depth rest with
  | case1 => simp
  | case2 depth t rest hopen ih =>
    have hclose : ¬t.is .closeBracket = true := by
      simp [is, beq_iff_eq.1 (show (t.lexeme == .symbol .openBracket) = true from hopen)]
    simp [hsplit, ih, hclose, balanced_cons_open hopen]
  | case3 t rest hopen hclose =>
    simp [hsplit, hclose, balanced_nil, not_balanced_zero_cons hclose]
  | case4 t rest hopen hclose depth ih =>
    simp [hsplit, ih, balanced_nil, balanced_cons_close hclose]
  | case5 depth t rest hopen hclose ih =>
    simp [hsplit, ih, hclose, balanced_cons_other hopen hclose]

/-- What stands between two brackets that belong together is the interior of an array. -/
theorem arrayInterior?_eq_some_iff :
    arrayInterior? run = some interior ↔
      ∃ first inner last, run = first :: (inner ++ [last]) ∧ first.is .openBracket = true ∧
        last.is .closeBracket = true ∧ Balanced 0 inner ∧ interior = written inner ++ last.gap := by
  have hdrop {inner : List Token} {last : Token} (hlast : last.is .closeBracket = true) :
      (written (inner ++ [last])).dropLast = written inner ++ last.gap := by
    have hlexeme : last.lexeme = .symbol .closeBracket := beq_iff_eq.1 hlast
    simp [hlexeme, Lexeme.text, ← List.append_assoc]
  constructor
  · intro h
    cases run with
    | nil => cases h
    | cons first rest =>
      rw [arrayInterior?_cons] at h
      split at h
      · rename_i hclosed
        obtain ⟨inner, last, rfl, hlast, hinner⟩ := closesAtEnd_iff.1 hclosed.2
        rw [hdrop hlast, Option.some.injEq] at h
        exact ⟨first, inner, last, rfl, hclosed.1, hlast, hinner, h.symm⟩
      · cases h
  · rintro ⟨first, inner, last, rfl, hfirst, hlast, hinner, rfl⟩
    rw [arrayInterior?_cons, if_pos ⟨hfirst, closesAtEnd_iff.2 ⟨inner, last, rfl, hlast, hinner⟩⟩,
      hdrop hlast]

/-- The interior of an array goes from the stop of its first token to the start of its last one. -/
theorem LieIn.slice?_interior {source : String} {tokens before inner after : List Token}
    {opening closing : Token} {first last : Located} (h : LieIn tokens source)
    (htokens : tokens = before ++ (opening :: (inner ++ [closing])) ++ after)
    (hfirst : (locate 0 tokens)[before.length]? = some first)
    (hlast : (locate 0 tokens)[before.length + (opening :: (inner ++ [closing])).length - 1]? =
      some last) :
    Text.slice? source first.stop last.start =
      some (String.ofList (written inner ++ closing.gap)) := by
  have hopening : opening.locatedAt (Text.size (written before)) = first := by
    rw [htokens, List.append_assoc, List.cons_append, getElem?_locate, Nat.zero_add] at hfirst
    exact Option.some.inj hfirst
  have hclosing : closing.locatedAt (Text.size (written (before ++ opening :: inner))) = last := by
    have hsplit : tokens = (before ++ opening :: inner) ++ closing :: after := by
      simp [htokens]
    have hlength : before.length + (opening :: (inner ++ [closing])).length - 1 =
        (before ++ opening :: inner).length := by
      simp [← Nat.add_assoc]
    rw [hlength, hsplit, getElem?_locate, Nat.zero_add] at hlast
    exact Option.some.inj hlast
  rw [← hopening, ← hclosing]
  exact h.slice?_between htokens

end Token

/-! ### Elements -/

/-- A text is an element between its marks: one quotation mark is taken from the front, and one from
the end of what is left, wherever there is one. -/
structure Strips (text lead item trail : List Char) : Prop where
  text_eq : text = lead ++ (item ++ trail)
  lead : lead = [] ∧ (∀ c ∈ text.head?, isQuote c = false) ∨ ∃ c, isQuote c = true ∧ lead = [c]
  trail : trail = [] ∧ (∀ c ∈ item.getLast?, isQuote c = false) ∨
    ∃ c, isQuote c = true ∧ trail = [c]

theorem exists_trail (opened : List Char) :
    ∃ item trail, opened = item ++ trail ∧
      (trail = [] ∧ (∀ c ∈ item.getLast?, isQuote c = false) ∨
        ∃ c, isQuote c = true ∧ trail = [c]) ∧
      item = match opened.getLast? with
        | some c => if isQuote c then opened.dropLast else opened
        | none => [] := by
  rcases List.eq_nil_or_concat opened with rfl | ⟨init, c, rfl⟩
  · exact ⟨[], [], rfl, .inl ⟨rfl, by simp⟩, rfl⟩
  · rw [List.concat_eq_append, List.getLast?_concat, List.dropLast_concat]
    cases hc : isQuote c with
    | true => exact ⟨init, [c], rfl, .inr ⟨c, hc, rfl⟩, by simp [hc]⟩
    | false => exact ⟨init ++ [c], [], by simp, .inl ⟨rfl, by simpa using hc⟩, by simp [hc]⟩

theorem exists_strips_unquote (text : List Char) :
    ∃ lead trail, Strips text lead (unquote text) trail := by
  cases text with
  | nil => exact ⟨[], [], rfl, .inl ⟨rfl, by simp⟩, .inl ⟨rfl, by simp [unquote]⟩⟩
  | cons c rest =>
    cases hc : isQuote c with
    | true =>
      obtain ⟨item, trail, hrest, htrail, hitem⟩ := exists_trail rest
      have hunquote : unquote (c :: rest) = item := by
        rw [hitem, unquote, hc]
        rfl
      rw [hunquote]
      exact ⟨[c], trail, congrArg (c :: ·) hrest, .inr ⟨c, hc, rfl⟩, htrail⟩
    | false =>
      obtain ⟨item, trail, htext, htrail, hitem⟩ := exists_trail (c :: rest)
      have hunquote : unquote (c :: rest) = item := by
        rw [hitem, unquote, hc]
        rfl
      rw [hunquote]
      exact ⟨[], trail, htext, .inl ⟨rfl, by simpa using hc⟩, htrail⟩

/-- The elements of an array with the given text between its brackets. -/
inductive Elements (interior : List Char) : List String → Prop
  | blank (h : ∀ c ∈ interior, Text.isBlank c = true) : Elements interior []
  | pieces {pieces : List (List Char)} {items : List String}
      (hfull : ∃ c ∈ interior, Text.isBlank c = false)
      (hjoin : Text.joinWith [','] pieces = interior) (hne : pieces ≠ [])
      (hcut : ∀ piece ∈ pieces, ',' ∉ piece)
      (hitems : List.Forall₂ (fun piece item => ∃ lead trail,
        Strips (Text.trim piece) lead item.toList trail) pieces items) :
      Elements interior items

theorem elements_arrayItems (interior : List Char) : Elements interior (arrayItems interior) := by
  unfold arrayItems
  split
  · rename_i hblank
    exact .blank (Text.trim_eq_nil_iff.1 (List.isEmpty_iff.1 hblank))
  · rename_i hfull
    refine .pieces ?_ (Text.joinWith_splitOn ',' interior) (Text.splitOn_ne_nil ',' interior)
      (fun piece => Text.not_mem_of_mem_splitOn) ?_
    · rw [List.isEmpty_iff, Text.trim_eq_nil_iff] at hfull
      simpa using hfull
    · rw [List.forall₂_map_right_iff, List.forall₂_same]
      intro piece _
      rw [String.toList_ofList]
      exact exists_strips_unquote (Text.trim piece)

/-! ### Right-hand sides -/

namespace Value

open Token

variable {run : List Token}

theorem ofTokens_eq_array_iff {items : List String} :
    ofTokens run = .array items ↔
      ∃ interior, arrayInterior? run = some interior ∧ arrayItems interior = items := by
  constructor
  · intro h
    unfold ofTokens at h
    split at h
    · cases h
    · split at h
      · cases h
      · split at h
        · rename_i interior hinterior
          cases h
          exact ⟨interior, hinterior, rfl⟩
        · cases h
  · rintro ⟨interior, hinterior, rfl⟩
    -- an array has two tokens at least, so it is neither a string nor a word
    obtain ⟨hliteral, hword⟩ : literal? run = none ∧ word? run = none := by
      obtain ⟨first, inner, last, rfl, -⟩ := arrayInterior?_eq_some_iff.1 hinterior
      cases inner <;> exact ⟨rfl, rfl⟩
    simp only [ofTokens, hliteral, hword, hinterior, Option.bind_none]

/-- A run of tokens is an array exactly if it is a pair of brackets around a balanced run. -/
theorem exists_ofTokens_eq_array_iff :
    (∃ items, ofTokens run = .array items) ↔
      ∃ first inner last, run = first :: (inner ++ [last]) ∧ first.is .openBracket = true ∧
        last.is .closeBracket = true ∧ Balanced 0 inner := by
  constructor
  · rintro ⟨items, hitems⟩
    obtain ⟨interior, hinterior, -⟩ := ofTokens_eq_array_iff.1 hitems
    obtain ⟨first, inner, last, hrun, hfirst, hlast, hinner, -⟩ :=
      arrayInterior?_eq_some_iff.1 hinterior
    exact ⟨first, inner, last, hrun, hfirst, hlast, hinner⟩
  · rintro ⟨first, inner, last, hrun, hfirst, hlast, hinner⟩
    have hinterior := arrayInterior?_eq_some_iff.2
      ⟨first, inner, last, hrun, hfirst, hlast, hinner, rfl⟩
    exact ⟨_, ofTokens_eq_array_iff.2 ⟨_, hinterior, rfl⟩⟩

theorem eq_of_ofTokens_eq_expr {e : String} (h : ofTokens run = .expr e) :
    e = String.ofList (span run) := by
  unfold ofTokens at h
  split at h
  · cases h
  · split at h
    · cases h
    · split at h
      · cases h
      · cases h
        rfl

/-- The right-hand side of an assignment is read in place, and it is an array exactly if it is a
pair of square brackets around a run in which they are balanced.  The elements are those of the text
between the two brackets, and an expression is the text from the first token to the last one. -/
theorem ofTokens_rightHandSide {source : String} {s : Scan} {before rest after : List Token}
    (h : scan source.toList = .ok s) (htokens : s.tokens = before ++ rest)
    (hrun : takeNested nestBrackets .closeBrace 0 rest = (run, after)) (hne : run ≠ []) :
    (Tape.ofTokens source s.tokens).valueAt before.length (before.length + run.length) =
      some (ofTokens run) ∧
    ((∃ items, ofTokens run = .array items) ↔
      ∃ first inner last, run = first :: (inner ++ [last]) ∧ first.is .openBracket = true ∧
        last.is .closeBracket = true ∧ Balanced 0 inner) ∧
    ∃ first last, (locate 0 s.tokens)[before.length]? = some first ∧
      (locate 0 s.tokens)[before.length + run.length - 1]? = some last ∧
      (∀ items, ofTokens run = .array items → ∃ interior,
        Text.slice? source first.stop last.start = some interior ∧
          Elements interior.toList items) ∧
      ∀ e, ofTokens run = .expr e → Text.slice? source first.start last.stop = some e := by
  have hlie := lieIn_of_scan h
  obtain ⟨happend, -⟩ := append_of_takeNested hrun
  have hparts : s.tokens = before ++ run ++ after := by
    rw [htokens, ← happend, List.append_assoc]
  refine ⟨?_, exists_ofTokens_eq_array_iff, ?_⟩
  · have hleft : Left s.tokens before.length rest := ⟨before, htokens, rfl⟩
    obtain ⟨-, hbetween, hwithin⟩ := hleft.of_takeNested hrun
    exact hbetween.valueAt_eq hlie (hwithin hne)
  · obtain ⟨first, last, hfirst, hlast, hslice⟩ := hlie.slice?_span hparts hne
    rw [List.length_append] at hlast
    refine ⟨first, last, hfirst, hlast, fun items hitems => ?_, fun e he => ?_⟩
    · obtain ⟨interior, hinterior, rfl⟩ := ofTokens_eq_array_iff.1 hitems
      obtain ⟨opening, inner, closing, rfl, -, -, -, rfl⟩ := arrayInterior?_eq_some_iff.1 hinterior
      have hbetween := hlie.slice?_interior hparts hfirst hlast
      refine ⟨_, hbetween, ?_⟩
      rw [String.toList_ofList]
      exact elements_arrayItems _
    · rw [hslice, eq_of_ofTokens_eq_expr he]

/-- An array with brackets and a comma in its elements, and a sum of two arrays. -/
def arraySource : String := "x = [[a], \"b, c\"]\ny = [a] + [b]"

theorem ofTokens_rightHandSide_arraySource :
    (∃ first last interior, (locate 0 (scanned arraySource).tokens)[2]? = some first ∧
      (locate 0 (scanned arraySource).tokens)[8]? = some last ∧
      Text.slice? arraySource first.stop last.start = some interior ∧
      Elements interior.toList ["[a]", "b", "c"]) ∧
    (∃ first last, (locate 0 (scanned arraySource).tokens)[12]? = some first ∧
      (locate 0 (scanned arraySource).tokens)[18]? = some last ∧
      Text.slice? arraySource first.start last.stop = some "[a] + [b]") ∧
    ¬∃ first inner last, (scanned arraySource).tokens.drop 12 = first :: (inner ++ [last]) ∧
      first.is .openBracket = true ∧ last.is .closeBracket = true ∧ Balanced 0 inner := by
  have hs : scan arraySource.toList = .ok (scanned arraySource) := by with_unfolding_all rfl
  have hrun : takeNested nestBrackets .closeBrace 0 ((scanned arraySource).tokens.drop 2) =
      (((scanned arraySource).tokens.drop 2).take 7, (scanned arraySource).tokens.drop 9) := by
    with_unfolding_all rfl
  have hrun' : takeNested nestBrackets .closeBrace 0 ((scanned arraySource).tokens.drop 12) =
      ((scanned arraySource).tokens.drop 12, []) := by
    with_unfolding_all rfl
  have harray : ofTokens (((scanned arraySource).tokens.drop 2).take 7) =
      .array ["[a]", "b", "c"] := by
    with_unfolding_all rfl
  have hsum : ofTokens ((scanned arraySource).tokens.drop 12) = .expr "[a] + [b]" := by
    with_unfolding_all rfl
  obtain ⟨-, -, first, last, hfirst, hlast, hitems, -⟩ := ofTokens_rightHandSide hs
    (List.take_append_drop 2 (scanned arraySource).tokens).symm hrun (by decide +kernel)
  obtain ⟨-, hiff, first', last', hfirst', hlast', -, hexpr⟩ := ofTokens_rightHandSide hs
    (List.take_append_drop 12 (scanned arraySource).tokens).symm hrun' (by decide +kernel)
  obtain ⟨interior, hslice, helements⟩ := hitems _ harray
  have hlength : (scanned arraySource).tokens.length = 19 := by decide +kernel
  simp only [List.length_take, List.length_drop, hlength] at hfirst hlast hfirst' hlast'
  refine ⟨⟨first, last, interior, hfirst, hlast, hslice, helements⟩,
    ⟨first', last', hfirst', hlast', hexpr _ hsum⟩, fun hbalanced => ?_⟩
  obtain ⟨items, hitems⟩ := hiff.2 hbalanced
  rw [hsum] at hitems
  cases hitems

end Value

end Playbook
