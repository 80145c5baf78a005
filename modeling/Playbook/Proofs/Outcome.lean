import Mathlib.Data.List.Forall2

/-!
# Outcomes

Most functions of the library return `Except`.  These lemmas take a successful computation apart
into the successes of its steps, and trace the error of a failed one to a step, so that no proof has
to unfold the monad.  Where two computations are compared, related steps give related outcomes.
-/

namespace Playbook.Outcome

variable {ε ε' α β : Type}

/-- A sequence succeeds when its first step does, and then the rest. -/
theorem bind_eq_ok_iff {x : Except ε α} {f : α → Except ε β} {b : β} :
    x >>= f = .ok b ↔ ∃ a, x = .ok a ∧ f a = .ok b := by
  cases x with
  | error e => simp [bind, Except.bind]
  | ok a => simp [bind, Except.bind]

theorem exists_ok_of_isOk {x : Except ε α} (h : x.isOk = true) : ∃ a, x = .ok a := by
  cases x with
  | error e => cases h
  | ok a => exact ⟨a, rfl⟩

theorem toOption_eq_some_iff {x : Except ε α} {a : α} : x.toOption = some a ↔ x = .ok a := by
  cases x with
  | error e => simp [Except.toOption]
  | ok a' => simp [Except.toOption]

/-- A computation that returns a state beside its outcome succeeds when the outcome does. -/
theorem exists_state_of_toOption {σ : Type} {x : σ × Except ε α} {a : α}
    (h : x.2.toOption = some a) : ∃ s, x = (s, .ok a) :=
  ⟨x.1, Prod.ext rfl (toOption_eq_some_iff.1 h)⟩

theorem bind_ok_eq_map {x : Except ε α} {f : α → β} : (x >>= fun a => .ok (f a)) = x.map f := by
  cases x <;> rfl

theorem map_eq_ok_iff {x : Except ε α} {f : α → β} {b : β} :
    x.map f = .ok b ↔ ∃ a, x = .ok a ∧ f a = b := by
  cases x with
  | error e => simp [Except.map]
  | ok a => simp [Except.map]

theorem map_succeeds_iff {x : Except ε α} {f : α → β} :
    (∃ b, x.map f = .ok b) ↔ ∃ a, x = .ok a := by
  simp [map_eq_ok_iff]

theorem map_eq_error_iff {x : Except ε α} {f : α → β} {e : ε} :
    x.map f = .error e ↔ x = .error e := by
  cases x with
  | error e' => simp [Except.map]
  | ok a => simp [Except.map]

theorem bind_eq_error_iff {x : Except ε α} {f : α → Except ε β} {e : ε} :
    x >>= f = .error e ↔ x = .error e ∨ ∃ a, x = .ok a ∧ f a = .error e := by
  cases x with
  | error e' => simp [bind, Except.bind]
  | ok a => simp [bind, Except.bind]

theorem mapError_eq_ok_iff {x : Except ε α} {f : ε → ε'} {a : α} :
    x.mapError f = .ok a ↔ x = .ok a := by
  cases x with
  | error e => simp [Except.mapError]
  | ok a => simp [Except.mapError]

theorem mapError_eq_error_iff {x : Except ε α} {f : ε → ε'} {e : ε'} :
    x.mapError f = .error e ↔ ∃ e', x = .error e' ∧ f e' = e := by
  cases x with
  | error e' => simp [Except.mapError]
  | ok a => simp [Except.mapError]

/-- Going through a list succeeds when every element does. -/
theorem mapM_eq_ok_iff {f : α → Except ε β} {list : List α} {results : List β} :
    list.mapM f = .ok results ↔ List.Forall₂ (fun a b => f a = .ok b) list results := by
  induction list generalizing results with
  | nil =>
    rw [List.mapM_nil, List.forall₂_nil_left_iff]
    exact ⟨fun h => (Except.ok.inj h).symm, fun h => h ▸ rfl⟩
  | cons a rest ih =>
    rw [List.mapM_cons, bind_eq_ok_iff, List.forall₂_cons_left_iff]
    constructor
    · rintro ⟨b, hb, h⟩
      obtain ⟨bs, hbs, h⟩ := bind_eq_ok_iff.1 h
      exact ⟨b, bs, hb, ih.1 hbs, (Except.ok.inj h).symm⟩
    · rintro ⟨b, bs, hb, hbs, rfl⟩
      exact ⟨b, hb, bind_eq_ok_iff.2 ⟨bs, ih.2 hbs, rfl⟩⟩

/-- The results stand in the places of the elements they come from. -/
theorem getElem?_of_mapM {f : α → Except ε β} {list : List α} {results : List β}
    (h : list.mapM f = .ok results) {i : Nat} {a : α} (ha : list[i]? = some a) :
    ∃ b, results[i]? = some b ∧ f a = .ok b := by
  replace h := mapM_eq_ok_iff.1 h
  induction h generalizing i with
  | nil => simp at ha
  | @cons _ b _ _ hb _ ih =>
    cases i with
    | zero =>
      obtain rfl := Option.some.inj ha
      exact ⟨b, rfl, hb⟩
    | succ i => exact ih ha

/-- What holds of each element and its result holds along the whole list. -/
theorem forall₂_of_mapM {f : α → Except ε β} {R : α → β → Prop} {list : List α} {results : List β}
    (h : list.mapM f = .ok results) (hR : ∀ a ∈ list, ∀ b, f a = .ok b → R a b) :
    List.Forall₂ R list results := by
  replace h := mapM_eq_ok_iff.1 h
  induction h with
  | nil => exact .nil
  | cons hb _ ih =>
    rw [List.forall_mem_cons] at hR
    exact .cons (hR.1 _ hb) (ih hR.2)

/-- What is related to the elements of a list one by one comes from some element. -/
theorem exists_mem_of_forall₂ {R : α → β → Prop} {list : List α} {results : List β}
    (h : List.Forall₂ R list results) : ∀ b ∈ results, ∃ a ∈ list, R a b := by
  induction h with
  | nil => exact List.forall_mem_nil _
  | @cons a b _ _ hb _ ih =>
    refine List.forall_mem_cons.2 ⟨⟨a, List.mem_cons_self, hb⟩, fun b' hb' => ?_⟩
    obtain ⟨a', ha', he⟩ := ih b' hb'
    exact ⟨a', List.mem_cons_of_mem a ha', he⟩

/-- Each result comes from some element. -/
theorem exists_mem_of_mapM_eq_ok {f : α → Except ε β} {list : List α} {results : List β}
    (h : list.mapM f = .ok results) : ∀ b ∈ results, ∃ a ∈ list, f a = .ok b :=
  exists_mem_of_forall₂ (mapM_eq_ok_iff.1 h)

theorem mapM_succeeds_iff {f : α → Except ε β} {list : List α} :
    (∃ results, list.mapM f = .ok results) ↔ ∀ a ∈ list, ∃ b, f a = .ok b := by
  simp only [mapM_eq_ok_iff]
  induction list with
  | nil => simp
  | cons a rest ih =>
    rw [List.forall_mem_cons, ← ih]
    constructor
    · rintro ⟨results, h⟩
      obtain ⟨b, bs, hb, hbs, -⟩ := List.forall₂_cons_left_iff.1 h
      exact ⟨⟨b, hb⟩, bs, hbs⟩
    · rintro ⟨⟨b, hb⟩, bs, hbs⟩
      exact ⟨b :: bs, .cons hb hbs⟩

/-- Going through a list fails with the error of one of its elements. -/
theorem exists_mem_of_mapM_eq_error {f : α → Except ε β} {list : List α} {e : ε}
    (h : list.mapM f = .error e) : ∃ a ∈ list, f a = .error e := by
  induction list with
  | nil => cases h
  | cons a rest ih =>
    rw [List.mapM_cons] at h
    rcases bind_eq_error_iff.1 h with h | ⟨b, -, h⟩
    · exact ⟨a, List.mem_cons_self, h⟩
    · rcases bind_eq_error_iff.1 h with h | ⟨bs, -, h⟩
      · obtain ⟨a', ha', he⟩ := ih h
        exact ⟨a', List.mem_cons_of_mem a ha', he⟩
      · cases h

theorem mapM_congr {m : Type → Type} [Monad m] [LawfulMonad m] {f g : α → m β} {list : List α}
    (h : ∀ a ∈ list, f a = g a) : list.mapM f = list.mapM g := by
  induction list with
  | nil => rfl
  | cons a rest ih =>
    rw [List.forall_mem_cons] at h
    rw [List.mapM_cons, List.mapM_cons, h.1, ih h.2]

/-- A list is gone through alike if an element is replaced by one of the same outcome. -/
theorem mapM_append_cons {m : Type → Type} [Monad m] [LawfulMonad m] {f : α → m β}
    {before after : List α} {a b : α} (h : f a = f b) :
    (before ++ a :: after).mapM f = (before ++ b :: after).mapM f := by
  rw [List.mapM_append, List.mapM_append, List.mapM_cons, List.mapM_cons, h]

/-- A function that undoes another one on every element undoes it on the whole list. -/
theorem mapM_map_eq_some {f : β → Option α} {g : α → β} {list : List α}
    (h : ∀ a ∈ list, f (g a) = some a) : (list.map g).mapM f = some list := by
  have hpure : list.mapM (f ∘ g) = list.mapM fun a => pure (id a) := mapM_congr h
  rw [List.mapM_map, hpure, List.mapM_pure, List.map_id]
  rfl

theorem mapM_eq_some_iff {f : α → Option β} {list : List α} {results : List β} :
    list.mapM f = some results ↔ List.Forall₂ (fun a b => f a = some b) list results := by
  induction list generalizing results with
  | nil =>
    rw [List.mapM_nil, List.forall₂_nil_left_iff]
    exact ⟨fun h => (Option.some.inj h).symm, fun h => h ▸ rfl⟩
  | cons a rest ih =>
    rw [List.mapM_cons, List.forall₂_cons_left_iff]
    constructor
    · intro h
      obtain ⟨b, hb, h⟩ := Option.bind_eq_some_iff.1 h
      obtain ⟨bs, hbs, h⟩ := Option.bind_eq_some_iff.1 h
      exact ⟨b, bs, hb, ih.1 hbs, (Option.some.inj h).symm⟩
    · rintro ⟨b, bs, hb, hbs, rfl⟩
      exact Option.bind_eq_some_iff.2 ⟨b, hb, Option.bind_eq_some_iff.2 ⟨bs, ih.2 hbs, rfl⟩⟩

/-- Each result comes from some element. -/
theorem exists_mem_of_mapM_eq_some {f : α → Option β} {list : List α} {results : List β}
    (h : list.mapM f = some results) : ∀ b ∈ results, ∃ a ∈ list, f a = some b :=
  exists_mem_of_forall₂ (mapM_eq_some_iff.1 h)

/-! ### Related outcomes -/

section Related

variable {γ δ : Type} {R : α → β → Prop} {S : γ → δ → Prop} {x : Option α} {y : Option β}

theorem exists_some_of_rel (h : Option.Rel R x y) {a : α} (hx : x = some a) :
    ∃ b, y = some b ∧ R a b := by
  cases h with
  | some hab =>
    cases hx
    exact ⟨_, rfl, hab⟩
  | none => cases hx

theorem eq_none_of_rel (h : Option.Rel R x y) (hx : x = none) : y = none := by
  cases h with
  | some hab => cases hx
  | none => rfl

theorem rel_bind {f : α → Option γ} {g : β → Option δ} (h : Option.Rel R x y)
    (hfg : ∀ a b, R a b → Option.Rel S (f a) (g b)) : Option.Rel S (x.bind f) (y.bind g) := by
  cases h with
  | some hab => exact hfg _ _ hab
  | none => exact .none

theorem rel_refl {R : α → α → Prop} (hR : ∀ a, R a a) (x : Option α) : Option.Rel R x x := by
  cases x with
  | some a => exact .some (hR a)
  | none => exact .none

theorem rel_join {x : Option (Option α)} {y : Option (Option β)}
    (h : Option.Rel (Option.Rel R) x y) : Option.Rel R x.join y.join := by
  cases h with
  | some hab => exact hab
  | none => exact .none

theorem bind_eq_of_rel {f : α → Option γ} {g : β → Option γ} (h : Option.Rel R x y)
    (hfg : ∀ a b, R a b → f a = g b) : x.bind f = y.bind g := by
  cases h with
  | some hab => exact hfg _ _ hab
  | none => rfl

end Related

/-- Two outcomes of the same sort: related results, or related errors. -/
inductive Alike (E : ε → ε → Prop) (R : α → β → Prop) : Except ε α → Except ε β → Prop
  | ok {a : α} {b : β} (h : R a b) : Alike E R (.ok a) (.ok b)
  | error {e e' : ε} (h : E e e') : Alike E R (.error e) (.error e')

namespace Alike

variable {γ δ : Type} {E : ε → ε → Prop} {R : α → β → Prop} {S : γ → δ → Prop} {x : Except ε α}
  {y : Except ε β}

theorem refl {R : α → α → Prop} {x : Except ε α} (hE : ∀ e, E e e) (hR : ∀ a, R a a) :
    Alike E R x x := by
  cases x with
  | error e => exact .error (hE e)
  | ok a => exact .ok (hR a)

theorem succeeds_iff (h : Alike E R x y) : (∃ a, x = .ok a) ↔ ∃ b, y = .ok b := by
  cases h <;> simp

theorem rel_of_ok (h : Alike E R x y) {a : α} {b : β} (hx : x = .ok a) (hy : y = .ok b) :
    R a b := by
  cases h with
  | ok hab =>
    cases hx
    cases hy
    exact hab
  | error _ => cases hx

theorem rel_of_error (h : Alike E R x y) {e e' : ε} (hx : x = .error e) (hy : y = .error e') :
    E e e' := by
  cases h with
  | ok _ => cases hx
  | error he =>
    cases hx
    cases hy
    exact he

theorem bind {f : α → Except ε γ} {g : β → Except ε δ} (h : Alike E R x y)
    (hfg : ∀ a b, R a b → Alike E S (f a) (g b)) : Alike E S (x >>= f) (y >>= g) := by
  cases h with
  | ok hab => exact hfg _ _ hab
  | error he => exact .error he

theorem imp {R' : α → β → Prop} (h : Alike E R x y) (hR : ∀ a b, R a b → R' a b) :
    Alike E R' x y := by
  cases h with
  | ok hab => exact .ok (hR _ _ hab)
  | error he => exact .error he

theorem map_iff {f : α → γ} {g : β → δ} :
    Alike E S (x.map f) (y.map g) ↔ Alike E (fun a b => S (f a) (g b)) x y := by
  constructor
  · intro h
    cases x <;> cases y <;> cases h <;> constructor <;> assumption
  · intro h
    cases h <;> constructor <;> assumption

/-- Going through lists of the same length gives outcomes of the same sort if their elements, one
by one, do. -/
theorem mapM {f : α → Except ε γ} {g : β → Except ε δ} {list : List α} {others : List β}
    (h : List.Forall₂ (fun a b => Alike E S (f a) (g b)) list others) :
    Alike E (List.Forall₂ S) (list.mapM f) (others.mapM g) := by
  induction h with
  | nil => exact .ok .nil
  | cons hab _ ih =>
    rw [List.mapM_cons, List.mapM_cons]
    exact hab.bind fun _ _ hfirst => ih.bind fun _ _ hrest => .ok (.cons hfirst hrest)

end Alike

end Playbook.Outcome
