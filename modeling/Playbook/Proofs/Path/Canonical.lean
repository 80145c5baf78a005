import Playbook.Proofs.Path.Joining

/-!
# Normalized paths are canonical

A path means where it leads from each place.  Normalizing keeps that, and two paths that lead to the
same place from everywhere are normalized to the same text, so `normalize` picks one path for each
meaning.

A normalized path is told by the place it leads to and by its spelling: absolute, or relative with a
number of steps up (`eq_of_walk_eq`).  Where it leads from the top gives its names, and how many
names it keeps of a place that is far enough from the top gives its spelling.
-/

namespace Playbook.Path

variable {p q : Path}

/-! ### The spelling of a normalized path -/

/-- Which of the paths that lead to a place this is: the absolute one, or the one with a number of
steps up. -/
def spelling (p : Path) : Nat :=
  if p.components.head? = some .root then 0 else p.components.count .up + 1

theorem components_of_normal {p : Path} (h : p.normalize = p) :
    ∃ names : List String, p.components = .root :: names.map .name ∨
      ∃ ups, p.components = List.replicate ups .up ++ names.map .name := by
  obtain ⟨names, -, he⟩ := (isNormal_foldl_components p).exists_names
  rw [← components_normalize, h] at he
  exact ⟨names, he⟩

theorem spelling_absolute {p : Path} {names : List String}
    (h : p.components = .root :: names.map .name) : p.spelling = 0 := by
  simp [spelling, h]

theorem spelling_relative {p : Path} {ups : Nat} {names : List String}
    (h : p.components = List.replicate ups .up ++ names.map .name) : p.spelling = ups + 1 := by
  have hhead : p.components.head? ≠ some .root := by
    rw [h]
    cases ups <;> cases names <;> simp [List.replicate_succ]
  have hnames : (names.map Component.name).count .up = 0 := by
    rw [List.count_eq_zero]
    simp
  rw [spelling, if_neg hhead, h, List.count_append, List.count_replicate_self, hnames]

/-- A normalized path is determined by its spelling and the place it leads to. -/
theorem eq_of_walk_eq {p q : Path} (hp : p.normalize = p) (hq : q.normalize = q) {place : Place}
    (hwalk : p.walk place = q.walk place) (hspelling : p.spelling = q.spelling) : p = q := by
  have hcomponents : p.components = q.components := by
    -- once the spellings agree, the places differ only in the names that follow
    obtain ⟨names, hn | ⟨ups, hn⟩⟩ := components_of_normal hp <;>
      obtain ⟨names', hn' | ⟨ups', hn'⟩⟩ := components_of_normal hq
    · simp only [walk, hn, hn', List.foldl_cons, foldl_along_names, Place.along,
        List.nil_append] at hwalk
      rw [hn, hn', hwalk]
    · rw [spelling_absolute hn, spelling_relative hn'] at hspelling
      omega
    · rw [spelling_relative hn, spelling_absolute hn'] at hspelling
      omega
    · rw [spelling_relative hn, spelling_relative hn'] at hspelling
      obtain rfl : ups = ups' := by omega
      simp only [walk, hn, hn', List.foldl_append, foldl_along_names,
        List.append_cancel_left_eq] at hwalk
      rw [hn, hn', hwalk]
  rw [← hp, ← hq, normalize, normalize, hcomponents]

/-- Each step up takes one name back, as long as there are any. -/
theorem length_foldl_along_up (ups : Nat) (place : Place) :
    ((List.replicate ups Component.up).foldl Place.along place).length = place.length - ups := by
  induction ups generalizing place with
  | zero => simp
  | succ ups ih =>
    rw [List.replicate_succ, List.foldl_cons, ih, Place.along, List.length_dropLast]
    omega

/-- How far from the top a normalized path leads: its own names, and what the steps up leave of the
names of the place unless it is absolute. -/
theorem length_walk_of_normal (h : p.normalize = p) (place : Place) :
    (p.walk place).length =
      (p.walk []).length + if p.spelling = 0 then 0 else place.length + 1 - p.spelling := by
  obtain ⟨names, hn | ⟨ups, hn⟩⟩ := components_of_normal h
  · simp [walk, hn, Place.along, foldl_along_names, spelling_absolute hn]
  · rw [spelling_relative hn, if_neg (Nat.succ_ne_zero ups)]
    simp only [walk, hn, List.foldl_append, foldl_along_names, List.length_append,
      length_foldl_along_up, List.length_nil]
    omega

theorem isName_of_mem_replicate {n : Nat} : ∀ s ∈ List.replicate n "a", IsName s := by
  intro s hs
  rw [List.eq_of_mem_replicate hs]
  decide

/-- Normalized paths that lead to the same places have the same spelling. -/
theorem spelling_eq_of_walk_eq (hp : p.normalize = p) (hq : q.normalize = q)
    (h : ∀ place : Place, (∀ s ∈ place, IsName s) → p.walk place = q.walk place) :
    p.spelling = q.spelling := by
  -- a place that lies deeper than both paths climb
  have hdeep := congrArg List.length (h _ (isName_of_mem_replicate (n := p.spelling + q.spelling)))
  have htop := congrArg List.length (h [] (List.forall_mem_nil _))
  rw [length_walk_of_normal hp, length_walk_of_normal hq, htop, List.length_replicate] at hdeep
  split_ifs at hdeep <;> omega

/-! ### The meaning of a path -/

/-- Paths are normalized alike exactly if they lead to the same place from everywhere. -/
theorem normalize_eq_normalize_iff : p.normalize = q.normalize ↔
    ∀ place : Place, (∀ s ∈ place, IsName s) → p.walk place = q.walk place := by
  constructor
  · intro h place _
    rw [← walk_normalize p, ← walk_normalize q, h]
  · intro h
    have hwalk : ∀ place : Place, (∀ s ∈ place, IsName s) →
        p.normalize.walk place = q.normalize.walk place := by
      intro place hplace
      rw [walk_normalize, walk_normalize, h place hplace]
    have hp := normalize_normalize p
    have hq := normalize_normalize q
    apply eq_of_walk_eq hp hq (hwalk [] (List.forall_mem_nil _))
    exact spelling_eq_of_walk_eq hp hq hwalk

theorem normalize_eq_ofComponents (p : Path) :
    p.normalize = ofComponents p.normalize.components := by
  rw [components_normalize]
  rfl

/-- The steps of a normalized path are the top or some steps up, and then names. -/
theorem exists_names_normalize (p : Path) :
    ∃ names : List String, (∀ s ∈ names, IsName s) ∧
      (p.normalize.components = .root :: names.map .name ∨
        ∃ ups, p.normalize.components = List.replicate ups .up ++ names.map .name) := by
  rw [components_normalize]
  exact (isNormal_foldl_components p).exists_names

/-- `normalize` computes a canonical form.  It leads from every place to where the path leads; it is
the same for two paths exactly if these lead to the same place from everywhere; and it is not
changed by normalizing again, is written with its steps and nothing else, and has no `.`, and `..`
only in front of a relative path. -/
theorem normalize_canonical :
    (∀ (p : Path) (place : Place), p.normalize.walk place = p.walk place) ∧
    (∀ p q : Path, p.normalize = q.normalize ↔
      ∀ place : Place, (∀ s ∈ place, IsName s) → p.walk place = q.walk place) ∧
    ∀ p : Path, p.normalize.normalize = p.normalize ∧
      p.normalize = ofComponents p.normalize.components ∧
      ∃ names : List String, (∀ s ∈ names, IsName s) ∧
        (p.normalize.components = .root :: names.map .name ∨
          ∃ ups, p.normalize.components = List.replicate ups .up ++ names.map .name) :=
  ⟨walk_normalize, fun _ _ => normalize_eq_normalize_iff, fun p =>
    ⟨normalize_normalize p, p.normalize_eq_ofComponents, p.exists_names_normalize⟩⟩

/-- Two spellings of one path, and two paths that differ below the top only. -/
theorem normalize_canonical_spellings :
    (Path.mk "../x//./y/../z/").normalize = (Path.mk "./../x/z").normalize ∧
      (Path.mk "/../x").normalize ≠ (Path.mk "../x").normalize := by
  have hlong : (Path.mk "../x//./y/../z/").components =
      [.up, .name "x", .name "y", .up, .name "z"] := by decide +kernel
  have hshort : (Path.mk "./../x/z").components = [.here, .up, .name "x", .name "z"] := by
    decide +kernel
  refine ⟨(normalize_canonical.2.1 _ _).2 fun place _ => ?_, fun h => ?_⟩
  · simp [walk, hlong, hshort, Place.along]
  · have hwalk := (normalize_canonical.2.1 _ _).1 h ["d", "e"] (by decide)
    exact absurd hwalk (by decide +kernel)

end Playbook.Path
