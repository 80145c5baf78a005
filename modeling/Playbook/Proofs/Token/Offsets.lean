import Playbook.Proofs.Text.Bytes
import Playbook.Proofs.Token.Tiling

/-!
# Where tokens start and stop

The place of a token can also be told by two counts of bytes, where its lexeme starts and where it
stops.  It starts behind all that is written in front of it.  Where it stops is counted on from
there in a way of its own for each kind of lexeme (`Lexeme.width`), without looking at its text
again, and this is right for every lexeme that is read.

So the text from the start of one token to the stop of another, or from a stop to a start, is a part
of the source: both counts are ends of characters and they are in order
(`Token.LieIn.slice?_span`, `Token.LieIn.slice?_between`).
-/

namespace Playbook

/-- The number of bytes from the start of a lexeme to its stop: signs of the grammar and breaks have
one, a string stops one byte behind its content, a word one byte behind the start of its last
letter, and an operator behind its first sign or, if there is a second, one byte behind the start of
that. -/
def Lexeme.width : Lexeme → Nat
  | .symbol _ => 1
  | .lineBreak => 1
  | .quoted mark content => mark.utf8Size + Text.size content + 1
  | .word letters => Text.size letters.dropLast + 1
  | .operator [c] => c.utf8Size
  | .operator (c :: _) => c.utf8Size + 1
  | .operator [] => 0

/-- A token with the counts of bytes at which its lexeme starts and stops. -/
structure Located extends Token where
  start : Nat
  stop : Nat
  deriving DecidableEq, Repr

/-- A token behind a text with the given number of bytes. -/
def Token.locatedAt (t : Token) (offset : Nat) : Located where
  toToken := t
  start := offset + Text.size t.gap
  stop := offset + Text.size t.gap + t.lexeme.width

/-- Tokens behind a text with the given number of bytes. -/
def locate (offset : Nat) : List Token → List Located
  | [] => []
  | t :: rest => t.locatedAt offset :: locate (offset + Text.size t.toPiece.written) rest

/-! ### Widths -/

theorem utf8Size_of_isQuote {c : Char} (h : isQuote c = true) : c.utf8Size = 1 := by
  simp only [isQuote, Bool.or_eq_true, beq_iff_eq] at h
  rcases h with rfl | rfl <;> rfl

theorem utf8Size_of_pairsUp {c d : Char} (h : pairsUp c d = true) : d.utf8Size = 1 := by
  simp only [pairsUp, Bool.or_eq_true, Bool.and_eq_true, beq_iff_eq] at h
  rcases h with (⟨rfl, -⟩ | ⟨-, rfl⟩) | ⟨-, rfl⟩ <;> rfl

theorem utf8Size_of_isWordChar {c : Char} (h : isWordChar c = true) : c.utf8Size = 1 := by
  rw [Char.utf8Size_eq_one_iff, UInt32.le_iff_toNat_le]
  change c.toNat ≤ 127
  rcases Bool.or_eq_true_iff.1 h with h | h
  · change ((decide (65 ≤ c.toNat ∧ c.toNat ≤ 90) ||
      (decide (97 ≤ c.toNat) && decide (c.toNat ≤ 122))) ||
        (decide (48 ≤ c.toNat) && decide (c.toNat ≤ 57))) = true at h
    simp only [Bool.or_eq_true, Bool.and_eq_true, decide_eq_true_eq] at h
    omega
  · obtain rfl := beq_iff_eq.1 h
    decide

theorem utf8Size_char (s : Symbol) : s.char.utf8Size = 1 := by
  cases s <;> rfl

theorem width_word {letters : List Char} (hne : letters ≠ [])
    (h : ∀ c ∈ letters, isWordChar c = true) :
    (Lexeme.word letters).width = Text.size letters := by
  obtain ⟨init, last, rfl⟩ := (List.eq_nil_or_concat letters).resolve_left hne
  have hlast : last.utf8Size = 1 := utf8Size_of_isWordChar (h last (by simp))
  simp [Lexeme.width, hlast]

theorem width_of_readSign {c : Char} {rest after : List Char} {l : Lexeme}
    (h : readSign c rest = (l, after)) : l.width = Text.size l.text := by
  have halone : (if c = '=' then Lexeme.symbol .assign else .operator [c]).width =
      Text.size (if c = '=' then Lexeme.symbol .assign else .operator [c]).text := by
    split
    · rfl
    · simp [Lexeme.width, Lexeme.text]
  unfold readSign at h
  split at h
  · split at h
    · rename_i hpair
      cases h
      simp [Lexeme.width, Lexeme.text, utf8Size_of_pairsUp hpair]
    · cases h
      exact halone
  · cases h
    exact halone

/-- However the width of a lexeme is counted, it is the number of bytes of its text. -/
theorem width_of_readLexeme {c : Char} {rest after : List Char} {l : Lexeme}
    (h : readLexeme c rest = some (l, after)) : l.width = Text.size l.text := by
  unfold readLexeme at h
  split at h
  · cases h
    simp [Lexeme.width, Lexeme.text, utf8Size_char]
  · split at h
    · rename_i hquote
      obtain ⟨⟨content, after'⟩, -, he⟩ := Option.map_eq_some_iff.1 h
      cases he
      simp [Lexeme.width, Lexeme.text, utf8Size_of_isQuote hquote, Nat.add_assoc]
    · split at h
      · rename_i hword
        cases h
        refine width_word (List.cons_ne_nil _ _) (List.forall_mem_cons.2 ⟨hword, fun d hd => ?_⟩)
        exact List.mem_takeWhile_imp hd
      · exact width_of_readSign (Option.some.inj h)

theorem width_of_scanLine {line trailing : List Char} {pieces : List Piece}
    (h : scanLine line = some (pieces, trailing)) :
    ∀ p ∈ pieces, p.lexeme.width = Text.size p.lexeme.text := by
  have hread {c : Char} {rest after : List Char} {l : Lexeme} (_ : Text.isBlank c = false)
      (hl : readLexeme c rest = some (l, after)) : l.width = Text.size l.text :=
    width_of_readLexeme hl
  exact forall_lexeme_of_scanLine hread h

theorem standsOn_of_scan {source : List Char} {s : Scan} (h : scan source = .ok s) {t : Token}
    (ht : t ∈ s.tokens) (hb : t.isBreak = false) :
    Token.StandsOn (Text.splitOn '\n' source) 1 [t] := by
  obtain ⟨before, after, he⟩ := List.append_of_mem ht
  have hpart : [t] <:+: s.tokens := ⟨before, after, by simp [he]⟩
  exact Token.standsOn_of_scanLines h hpart (List.cons_ne_nil t []) (List.forall_mem_singleton.2 hb)

/-! ### Tokens in a list -/

theorem locate_append (offset : Nat) (tokens more : List Token) :
    locate offset (tokens ++ more) =
      locate offset tokens ++ locate (offset + Text.size (Token.written tokens)) more := by
  induction tokens generalizing offset with
  | nil => simp [locate]
  | cons t tokens ih =>
    rw [List.cons_append, locate, ih, locate, List.cons_append]
    simp [Piece.written, Nat.add_assoc]

@[simp] theorem length_locate (offset : Nat) (tokens : List Token) :
    (locate offset tokens).length = tokens.length := by
  induction tokens generalizing offset with
  | nil => rfl
  | cons t tokens ih => rw [locate, List.length_cons, ih, List.length_cons]

@[simp] theorem map_toToken_locate (offset : Nat) (tokens : List Token) :
    (locate offset tokens).map Located.toToken = tokens := by
  induction tokens generalizing offset with
  | nil => rfl
  | cons t tokens ih =>
    rw [locate, List.map_cons, ih]
    rfl

theorem getElem?_locate (offset : Nat) (front : List Token) (t : Token) (rest : List Token) :
    (locate offset (front ++ t :: rest))[front.length]? =
      some (t.locatedAt (offset + Text.size (Token.written front))) := by
  rw [locate_append, List.getElem?_append_right (by simp), length_locate, Nat.sub_self]
  rfl

/-! ### Parts of the source -/

namespace Token

/-- Tokens lie in a source: it starts with what they are written as, they are as wide as their
texts, and none but a line break starts or ends with a blank. -/
structure LieIn (tokens : List Token) (source : String) : Prop where
  text : written tokens <+: source.toList
  width : ∀ t ∈ tokens, t.lexeme.width = Text.size t.lexeme.text
  isRead : ∀ t ∈ tokens, t.isBreak = false → t.lexeme.IsRead

theorem lieIn_of_scan {source : String} {s : Scan} (h : scan source.toList = .ok s) :
    LieIn s.tokens source where
  text := ⟨s.trailing, written_of_scan h⟩
  width := by
    intro t ht
    cases hb : t.isBreak with
    | true =>
      rw [beq_iff_eq.1 hb]
      rfl
    | false =>
      obtain ⟨_, _, pieces, _, -, hline, hfrom⟩ := standsOn_of_scan h ht hb
      obtain ⟨p, hp, hlexeme⟩ := hfrom.lexeme_mem t (List.mem_singleton_self t)
      rw [← hlexeme]
      exact width_of_scanLine hline p hp
  isRead := fun t ht hb => (standsOn_of_scan h ht hb).isRead t (List.mem_singleton_self t)

/-- A token of the right width stops behind what is written up to it. -/
theorem stop_locatedAt {t : Token} (h : t.lexeme.width = Text.size t.lexeme.text)
    (before : List Token) :
    (t.locatedAt (Text.size (written before))).stop = Text.size (written (before ++ [t])) := by
  simp [locatedAt, h, Nat.add_assoc]

theorem start_locatedAt (t : Token) (before : List Token) :
    (t.locatedAt (Text.size (written before))).start = Text.size (written before ++ t.gap) := by
  simp [locatedAt]

variable {tokens before run after : List Token} {source : String}

/-- The text of a run goes from the start of its first token to the stop of its last one. -/
theorem LieIn.slice?_span (h : LieIn tokens source) (htokens : tokens = before ++ run ++ after)
    (hne : run ≠ []) :
    ∃ first last, (locate 0 tokens)[before.length]? = some first ∧
      (locate 0 tokens)[(before ++ run).length - 1]? = some last ∧
      Text.slice? source first.start last.stop = some (String.ofList (span run)) := by
  obtain ⟨trailing, htext⟩ := h.text
  obtain ⟨first, rest, hfirst⟩ := List.exists_cons_of_ne_nil hne
  obtain ⟨init, last, hlast⟩ := (List.eq_nil_or_concat run).resolve_left hne
  rw [List.concat_eq_append] at hlast
  have hwidth := h.width last (by simp [htokens, hlast])
  have hstart : (locate 0 tokens)[before.length]? =
      some (first.locatedAt (Text.size (written before))) := by
    rw [htokens, hfirst, List.append_assoc, List.cons_append, getElem?_locate, Nat.zero_add]
  have hstop : (locate 0 tokens)[(before ++ run).length - 1]? =
      some (last.locatedAt (Text.size (written (before ++ init)))) := by
    have htokens' : tokens = (before ++ init) ++ last :: after := by simp [htokens, hlast]
    have hlength : (before ++ run).length - 1 = (before ++ init).length := by
      simp [hlast, ← Nat.add_assoc]
    rw [htokens', hlength, getElem?_locate, Nat.zero_add]
  refine ⟨_, _, hstart, hstop, ?_⟩
  rw [start_locatedAt, stop_locatedAt hwidth]
  have hspan : written before ++ first.gap ++ span run = written (before ++ init ++ [last]) := by
    rw [List.append_assoc before, ← hlast]
    simp [hfirst]
  have hsource : source.toList =
      (written before ++ first.gap) ++ span run ++ (written after ++ trailing) := by
    rw [hspan, ← htext, htokens, hlast]
    simp
  rw [← hspan, Text.size_append (written before ++ first.gap)]
  exact Text.slice?_of_toList_eq hsource

/-- The text between the first token of a run and its last one goes from the stop of the one to the
start of the other. -/
theorem LieIn.slice?_between (h : LieIn tokens source) {first last : Token}
    (htokens : tokens = before ++ (first :: run ++ [last]) ++ after) :
    Text.slice? source (first.locatedAt (Text.size (written before))).stop
      (last.locatedAt (Text.size (written (before ++ first :: run)))).start =
      some (String.ofList (written run ++ last.gap)) := by
  obtain ⟨trailing, htext⟩ := h.text
  have hwidth := h.width first (by simp [htokens])
  rw [start_locatedAt, stop_locatedAt hwidth]
  have hbetween : written (before ++ first :: run) ++ last.gap =
      written (before ++ [first]) ++ (written run ++ last.gap) := by
    simp
  have hsource : source.toList = written (before ++ [first]) ++ (written run ++ last.gap) ++
      (last.lexeme.text ++ written after ++ trailing) := by
    rw [← htext, htokens]
    simp
  rw [hbetween, Text.size_append (written (before ++ [first]))]
  exact Text.slice?_of_toList_eq hsource

end Token

end Playbook
