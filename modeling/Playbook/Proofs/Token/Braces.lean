import Mathlib.Data.List.Infix
import Playbook.Token

/-!
# Braces that pair up

Braces are counted.  In tokens whose braces pair up (`Paired`) there are as many that close as open,
and no prefix has more that close.  If a prefix of some tokens closes more than it opens, then there
is a first brace to blame, and what stands before it pairs up (`exists_stray`).  If more braces are
opened than closed, then there is a last one without partner, and what stands after it pairs up
(`exists_unclosed`).
-/

namespace Playbook.Token

/-- The number of opening braces. -/
def opens (tokens : List Token) : Nat := tokens.countP (·.is .openBrace)

/-- The number of closing braces. -/
def closes (tokens : List Token) : Nat := tokens.countP (·.is .closeBrace)

/-- The braces pair up: as many close as open, and none closes before its partner opens. -/
structure Paired (tokens : List Token) : Prop where
  le : ∀ front, front <+: tokens → closes front ≤ opens front
  eq : closes tokens = opens tokens

instance (tokens : List Token) : Decidable (Paired tokens) :=
  decidable_of_iff
    ((∀ front ∈ tokens.inits, closes front ≤ opens front) ∧ closes tokens = opens tokens)
    ⟨fun h => ⟨fun front hfront => h.1 front ((List.mem_inits front tokens).2 hfront), h.2⟩,
      fun h => ⟨fun front hfront => h.le front ((List.mem_inits front tokens).1 hfront), h.eq⟩⟩

/-- A brace that is followed by these tokens has a partner among them. -/
def IsMatched (after : List Token) : Prop :=
  ∃ inside close rest, after = inside ++ close :: rest ∧ close.is .closeBrace = true ∧
    Paired inside

/-! ### Counting -/

@[simp] theorem opens_nil : opens [] = 0 := rfl

@[simp] theorem closes_nil : closes [] = 0 := rfl

@[simp] theorem opens_append (tokens more : List Token) :
    opens (tokens ++ more) = opens tokens + opens more := List.countP_append

@[simp] theorem closes_append (tokens more : List Token) :
    closes (tokens ++ more) = closes tokens + closes more := List.countP_append

theorem opens_cons (t : Token) (rest : List Token) :
    opens (t :: rest) = opens rest + if t.is .openBrace then 1 else 0 := List.countP_cons

theorem closes_cons (t : Token) (rest : List Token) :
    closes (t :: rest) = closes rest + if t.is .closeBrace then 1 else 0 := List.countP_cons

variable {t : Token} {tokens more : List Token}

theorem not_closeBrace_of_openBrace (h : t.is .openBrace = true) : t.is .closeBrace = false := by
  rw [is, beq_iff_eq] at h
  rw [is, h]
  rfl

theorem opens_of_openBrace (h : t.is .openBrace = true) (rest : List Token) :
    opens (t :: rest) = opens rest + 1 := by
  rw [opens_cons, if_pos h]

theorem closes_of_openBrace (h : t.is .openBrace = true) (rest : List Token) :
    closes (t :: rest) = closes rest := by
  simp [closes_cons, not_closeBrace_of_openBrace h]

theorem opens_of_closeBrace (h : t.is .closeBrace = true) (rest : List Token) :
    opens (t :: rest) = opens rest := by
  have hopen : t.is .openBrace = false := by
    rw [is, beq_iff_eq] at h
    rw [is, h]
    rfl
  simp [opens_cons, hopen]

theorem closes_of_closeBrace (h : t.is .closeBrace = true) (rest : List Token) :
    closes (t :: rest) = closes rest + 1 := by
  rw [closes_cons, if_pos h]

/-- A token is an opening brace, a closing brace, or not counted. -/
theorem brace_cases (t : Token) :
    t.is .openBrace = true ∨ t.is .closeBrace = true ∨
      ∀ rest, opens (t :: rest) = opens rest ∧ closes (t :: rest) = closes rest := by
  cases hopen : t.is .openBrace with
  | true => exact .inl rfl
  | false =>
    cases hclose : t.is .closeBrace with
    | true => exact .inr (.inl rfl)
    | false => exact .inr (.inr fun rest => by simp [opens_cons, closes_cons, hopen, hclose])

/-! ### Pairs -/

namespace Paired

theorem nil : Paired [] where
  le := by
    intro front h
    rw [List.prefix_nil.1 h]
    rfl
  eq := rfl

theorem append (h : Paired tokens) (hmore : Paired more) : Paired (tokens ++ more) where
  le := by
    intro front hfront
    rcases List.prefix_or_prefix_of_prefix hfront (List.prefix_append tokens more) with hf | hf
    · exact h.le front hf
    · obtain ⟨rest, rfl⟩ := hf
      have hrest := hmore.le rest ((List.prefix_append_right_inj tokens).1 hfront)
      have heq := h.eq
      simp only [opens_append, closes_append]
      omega
  eq := by rw [opens_append, closes_append, h.eq, hmore.eq]

/-- What is counted as no brace pairs up. -/
theorem of_forall (h : ∀ t ∈ tokens, t.is .openBrace = false ∧ t.is .closeBrace = false) :
    Paired tokens := by
  have hnone : ∀ front, front <+: tokens → closes front = 0 ∧ opens front = 0 := by
    intro front hfront
    refine ⟨List.countP_eq_zero.2 fun t ht => ?_, List.countP_eq_zero.2 fun t ht => ?_⟩
    · simp [(h t (hfront.subset ht)).2]
    · simp [(h t (hfront.subset ht)).1]
  refine ⟨fun front hfront => ?_, ?_⟩
  · rw [(hnone front hfront).1, (hnone front hfront).2]
  · rw [(hnone tokens List.prefix_rfl).1, (hnone tokens List.prefix_rfl).2]

/-- A block pairs up if what is in it does. -/
theorem block {first last : Token} (hfirst : first.is .openBrace = true)
    (hlast : last.is .closeBrace = true) (h : Paired tokens) :
    Paired (first :: (tokens ++ [last])) where
  le := by
    intro front hfront
    rcases List.prefix_cons_iff.1 hfront with rfl | ⟨inside, rfl, hinside⟩
    · rfl
    · rw [opens_of_openBrace hfirst, closes_of_openBrace hfirst]
      rcases List.prefix_concat_iff.1 hinside with rfl | hinside
      · have heq := h.eq
        simp only [opens_append, closes_append, closes_of_closeBrace hlast, closes_nil]
        omega
      · have hle := h.le inside hinside
        omega
  eq := by
    rw [opens_of_openBrace hfirst, closes_of_openBrace hfirst, opens_append, closes_append,
      opens_of_closeBrace hlast, closes_of_closeBrace hlast, h.eq]
    rfl

end Paired

/-! ### The brace to blame -/

/-- The first closing brace without a partner stands behind braces that pair up. -/
theorem exists_stray (h : ∃ front, front <+: tokens ∧ opens front < closes front) :
    ∃ before t after, tokens = before ++ t :: after ∧ t.is .closeBrace = true ∧
      Paired before := by
  induction tokens using List.reverseRecOn with
  | nil =>
    obtain ⟨front, hfront, hlt⟩ := h
    rw [List.prefix_nil.1 hfront] at hlt
    exact absurd hlt (Nat.lt_irrefl _)
  | append_singleton tokens t ih =>
    by_cases hearlier : ∃ front, front <+: tokens ∧ opens front < closes front
    · obtain ⟨before, u, after, rfl, hu, hpaired⟩ := ih hearlier
      exact ⟨before, u, after ++ [t], by simp, hu, hpaired⟩
    · -- the last token makes the difference
      have hle : ∀ front, front <+: tokens → closes front ≤ opens front := by
        intro front hfront
        by_contra hlt
        exact hearlier ⟨front, hfront, by omega⟩
      obtain ⟨front, hfront, hlt⟩ := h
      rcases List.prefix_concat_iff.1 hfront with rfl | hfront
      · have hwhole := hle tokens List.prefix_rfl
        rw [opens_append, closes_append] at hlt
        rcases brace_cases t with ht | ht | ht
        · rw [opens_of_openBrace ht, closes_of_openBrace ht, opens_nil, closes_nil] at hlt
          omega
        · rw [opens_of_closeBrace ht, closes_of_closeBrace ht, opens_nil, closes_nil] at hlt
          exact ⟨tokens, t, [], rfl, ht, hle, by omega⟩
        · rw [(ht []).1, (ht []).2, opens_nil, closes_nil] at hlt
          omega
      · exact absurd hlt (by have := hle front hfront; omega)

/-- The last opening brace without a partner stands in front of braces that pair up. -/
theorem exists_unclosed (h : ∃ back, back <:+ tokens ∧ closes back < opens back) :
    ∃ before t after, tokens = before ++ t :: after ∧ t.is .openBrace = true ∧
      Paired after := by
  induction tokens with
  | nil =>
    obtain ⟨back, hback, hlt⟩ := h
    rw [List.suffix_nil.1 hback] at hlt
    exact absurd hlt (Nat.lt_irrefl _)
  | cons t tokens ih =>
    by_cases hlater : ∃ back, back <:+ tokens ∧ closes back < opens back
    · obtain ⟨before, u, after, rfl, hu, hpaired⟩ := ih hlater
      exact ⟨t :: before, u, after, rfl, hu, hpaired⟩
    · have hle : ∀ back, back <:+ tokens → opens back ≤ closes back := by
        intro back hback
        by_contra hlt
        exact hlater ⟨back, hback, by omega⟩
      have hwhole := hle tokens List.suffix_rfl
      obtain ⟨back, hback, hlt⟩ := h
      rcases List.suffix_cons_iff.1 hback with rfl | hback
      · rcases brace_cases t with ht | ht | ht
        · rw [opens_of_openBrace ht, closes_of_openBrace ht] at hlt
          have heq : closes tokens = opens tokens := by omega
          refine ⟨[], t, tokens, rfl, ht, ?_, heq⟩
          -- what a prefix lacks, the rest would have too much of
          rintro front ⟨rest, rfl⟩
          have hrest := hle rest (List.suffix_append front rest)
          simp only [opens_append, closes_append] at heq
          omega
        · rw [opens_of_closeBrace ht, closes_of_closeBrace ht] at hlt
          omega
        · rw [(ht tokens).1, (ht tokens).2] at hlt
          omega
      · exact absurd hlt (by have := hle back hback; omega)

/-- In front of braces that pair up, a brace finds no partner. -/
theorem Paired.not_isMatched (h : Paired tokens) : ¬IsMatched tokens := by
  rintro ⟨inside, close, rest, rfl, hclose, hinside⟩
  have hfront : inside ++ [close] <+: inside ++ close :: rest :=
    ⟨rest, by simp⟩
  have hle := h.le _ hfront
  have heq := hinside.eq
  rw [opens_append, closes_append, opens_of_closeBrace hclose, closes_of_closeBrace hclose,
    opens_nil, closes_nil] at hle
  omega

/-- Among braces that pair up, every opening brace finds its partner. -/
theorem Paired.isMatched_of_openBrace {before after : List Token} (h : Paired tokens)
    (htokens : tokens = before ++ t :: after) (ht : t.is .openBrace = true) : IsMatched after := by
  subst htokens
  have hle := h.le before (List.prefix_append before _)
  have heq := h.eq
  rw [opens_append, closes_append, opens_of_openBrace ht, closes_of_openBrace ht] at heq
  have hlt : ∃ front, front <+: after ∧ opens front < closes front :=
    ⟨after, List.prefix_rfl, by omega⟩
  obtain ⟨inside, close, rest, hafter, hclose, hinside⟩ := exists_stray hlt
  exact ⟨inside, close, rest, hafter, hclose, hinside⟩

end Playbook.Token
