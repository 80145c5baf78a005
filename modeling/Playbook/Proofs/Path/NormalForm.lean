import Playbook.Path
import Playbook.Proofs.Text

/-!
# Normal forms of paths

The steps of a normalized path are the top followed by names, or steps up followed by names.
`IsNormal` says so without mentioning `normalize`.  Following any steps gives normal ones, a path
written from normal steps has exactly these steps, and so normalizing twice changes nothing.
-/

namespace Playbook.Path

/-- A name that can stand between slashes and is not mistaken for another kind of step. -/
def IsName (s : String) : Prop :=
  '/' ∉ s.toList ∧ s.toList ≠ [] ∧ s.toList ≠ ['.'] ∧ s.toList ≠ ['.', '.']

instance : DecidablePred IsName := fun _ => inferInstanceAs (Decidable (_ ∧ _ ∧ _ ∧ _))

/-- The steps of a path without detours, the last one first: from the top, or from some directory
above, down along names. -/
inductive IsNormal : List Component → Prop
  | top : IsNormal [.root]
  | above (ups : Nat) : IsNormal (List.replicate ups .up)
  | down {steps : List Component} {s : String} (h : IsNormal steps) (hs : IsName s) :
    IsNormal (.name s :: steps)

/-- A step that can be read back from its segment. -/
def Component.IsPlain (step : Component) : Prop :=
  '/' ∉ step.text ∧ step.text ≠ [] ∧ step.text ≠ ['.'] ∧
    Component.ofSegment? step.text = some step

theorem Component.ofSegment?_name {s : String} (h : IsName s) :
    Component.ofSegment? s.toList = some (.name s) := by
  obtain ⟨-, h₀, h₁, h₂⟩ := h
  unfold Component.ofSegment?
  split
  · exact absurd ‹_› h₀
  · exact absurd ‹_› h₁
  · exact absurd ‹_› h₂
  · rw [String.ofList_toList]

theorem Component.IsPlain.name {s : String} (h : IsName s) : (Component.name s).IsPlain :=
  ⟨h.1, h.2.1, h.2.2.1, Component.ofSegment?_name h⟩

theorem Component.IsPlain.up : Component.up.IsPlain := by
  refine ⟨?_, ?_, ?_, rfl⟩ <;> decide

/-! ### Reading the steps of a written path -/

theorem filterMap_ofSegment?_text {steps : List Component} (h : ∀ s ∈ steps, s.IsPlain) :
    (steps.map Component.text).filterMap Component.ofSegment? = steps := by
  induction steps with
  | nil => rfl
  | cons step rest ih =>
    have hstep := (h step (List.mem_cons_self ..)).2.2.2
    rw [List.map_cons, List.filterMap_cons_some hstep,
      ih fun s hs => h s (List.mem_cons_of_mem _ hs)]

theorem segments_join {steps : List Component} (hne : steps ≠ []) (h : ∀ s ∈ steps, s.IsPlain) :
    Text.splitOn '/' (Text.joinWith ['/'] (steps.map Component.text)) =
      steps.map Component.text := by
  refine Text.splitOn_joinWith (by simpa using hne) fun piece hp => ?_
  obtain ⟨step, hs, rfl⟩ := List.mem_map.1 hp
  exact (h step hs).1

/-- A path written from steps below the top starts with the text of the first one. -/
theorem head?_join {steps : List Component} (h : ∀ s ∈ steps, s.IsPlain) :
    (Text.joinWith ['/'] (steps.map Component.text)).head? ≠ some '/' := by
  cases steps with
  | nil => simp
  | cons step rest =>
    obtain ⟨hslash, hne, -, -⟩ := h step (List.mem_cons_self ..)
    cases ht : step.text with
    | nil => exact absurd ht hne
    | cons c text =>
      have hc : c ≠ '/' := by
        rintro rfl
        exact hslash (ht ▸ List.mem_cons_self ..)
      cases rest with
      | nil => simpa [ht] using hc
      | cons next more => simpa [ht, Text.joinWith] using hc

theorem components_relative {steps : List Component} (h : ∀ s ∈ steps, s.IsPlain) :
    components ⟨String.ofList (Text.joinWith ['/'] (steps.map Component.text))⟩ = steps := by
  cases steps with
  | nil => rfl
  | cons step rest =>
    have hseg := segments_join (List.cons_ne_nil step rest) h
    have hdot : step.text ≠ ['.'] := (h step (List.mem_cons_self ..)).2.2.1
    simp only [components, segments, isAbsolute, String.toList_ofList, hseg,
      filterMap_ofSegment?_text h]
    rw [if_neg (by simpa using head?_join h), if_neg (by simpa using hdot)]

theorem components_absolute {steps : List Component} (h : ∀ s ∈ steps, s.IsPlain) :
    components ⟨String.ofList ('/' :: Text.joinWith ['/'] (steps.map Component.text))⟩ =
      .root :: steps := by
  have hseg : (Text.splitOn '/' ('/' :: Text.joinWith ['/'] (steps.map Component.text))).filterMap
      Component.ofSegment? = steps := by
    rw [Text.splitOn, if_pos rfl]
    cases steps with
    | nil => rfl
    | cons step rest =>
      rw [segments_join (List.cons_ne_nil step rest) h]
      exact filterMap_ofSegment?_text h
  simp only [components, segments, isAbsolute, String.toList_ofList, hseg, List.head?_cons,
    beq_self_eq_true, if_true]

/-- Normal steps in the order of the path: the top or some steps up, and then names. -/
theorem IsNormal.exists_names {steps : List Component} (h : IsNormal steps) :
    ∃ names : List String, (∀ s ∈ names, IsName s) ∧
      (steps.reverse = .root :: names.map .name ∨
        ∃ ups, steps.reverse = List.replicate ups .up ++ names.map .name) := by
  induction h with
  | top => exact ⟨[], by simp, Or.inl rfl⟩
  | above ups => exact ⟨[], by simp, Or.inr ⟨ups, by simp⟩⟩
  | @down steps s _ hs ih =>
    obtain ⟨names, hnames, he⟩ := ih
    refine ⟨names ++ [s], ?_, ?_⟩
    · intro t ht
      rcases List.mem_append.1 ht with ht | ht
      · exact hnames t ht
      · exact List.mem_singleton.1 ht ▸ hs
    · rcases he with he | ⟨ups, he⟩
      · exact Or.inl (by simp [he])
      · exact Or.inr ⟨ups, by simp [he]⟩

/-- A path written from normal steps has these steps. -/
theorem components_ofComponents {steps : List Component} (h : IsNormal steps) :
    (ofComponents steps.reverse).components = steps.reverse := by
  obtain ⟨names, hnames, he⟩ := h.exists_names
  have hplain : ∀ step ∈ names.map Component.name, step.IsPlain := by
    intro step hs
    obtain ⟨s, hm, rfl⟩ := List.mem_map.1 hs
    exact .name (hnames s hm)
  rcases he with he | ⟨ups, he⟩
  · rw [he]
    exact components_absolute hplain
  · have hall : ∀ step ∈ steps.reverse, step.IsPlain := by
      intro step hs
      rw [he] at hs
      rcases List.mem_append.1 hs with hs | hs
      · exact List.eq_of_mem_replicate hs ▸ .up
      · exact hplain step hs
    have hroot : ∀ rest, steps.reverse ≠ .root :: rest := by
      intro rest hr
      exact (hall .root (hr ▸ List.mem_cons_self ..)).2.1 rfl
    rw [ofComponents]
    · exact components_relative hall
    · exact hroot

/-! ### Following steps -/

/-- Following normal steps takes nothing back. -/
theorem IsNormal.foldl_follow {steps : List Component} (h : IsNormal steps) :
    steps.reverse.foldl follow [] = steps := by
  rw [List.foldl_reverse]
  induction h with
  | top => rfl
  | above ups =>
    induction ups with
    | zero => rfl
    | succ ups ih =>
      rw [List.replicate_succ, List.foldr_cons, ih]
      cases ups <;> rfl
  | down _ _ ih =>
    rw [List.foldr_cons, ih]
    rfl

/-- The steps that lie inside a path. -/
inductive IsInner : Component → Prop
  | here : IsInner .here
  | up : IsInner .up
  | name {s : String} (h : IsName s) : IsInner (.name s)

theorem IsNormal.follow {steps : List Component} (h : IsNormal steps) {step : Component}
    (hstep : IsInner step) : IsNormal (follow steps step) := by
  cases hstep with
  | here => exact h
  | name hs => exact .down h hs
  | up =>
    cases h with
    | top => exact .top
    | down h _ => exact h
    | above ups =>
      cases ups with
      | zero => exact .above 1
      | succ ups => exact .above (ups + 2)

theorem IsNormal.foldl {steps : List Component} (h : IsNormal steps) {more : List Component}
    (hmore : ∀ step ∈ more, IsInner step) : IsNormal (more.foldl Path.follow steps) := by
  induction more generalizing steps with
  | nil => exact h
  | cons step rest ih =>
    exact ih (h.follow (hmore step (List.mem_cons_self ..)))
      fun s hs => hmore s (List.mem_cons_of_mem _ hs)

theorem isInner_of_ofSegment? {segment : List Char} (hslash : '/' ∉ segment) {step : Component}
    (h : Component.ofSegment? segment = some step) : IsInner step := by
  unfold Component.ofSegment? at h
  split at h
  · cases h
  · cases h
  · cases h
    exact .up
  · next h₀ h₁ h₂ =>
    cases h
    refine .name ⟨?_, ?_, ?_, ?_⟩ <;> rw [String.toList_ofList] <;> assumption

/-- What stands between the slashes of a path are steps that lie inside it. -/
theorem isInner_of_mem_segments {p : Path} {step : Component}
    (h : step ∈ p.segments.filterMap Component.ofSegment?) : IsInner step := by
  obtain ⟨segment, hseg, hstep⟩ := List.mem_filterMap.1 h
  exact isInner_of_ofSegment? (Text.not_mem_of_mem_splitOn hseg) hstep

/-- The steps that `normalize` writes are normal. -/
theorem isNormal_foldl_components (p : Path) : IsNormal (p.components.foldl follow []) := by
  have hinner : ∀ s ∈ p.segments.filterMap Component.ofSegment?, IsInner s :=
    fun s hs => isInner_of_mem_segments hs
  unfold components
  split
  · exact IsNormal.top.foldl hinner
  · split
    · refine (IsNormal.above 0).foldl fun s hs => ?_
      rcases List.mem_cons.1 hs with rfl | hs
      · exact .here
      · exact hinner s hs
    · exact (IsNormal.above 0).foldl hinner

theorem components_normalize (p : Path) :
    p.normalize.components = (p.components.foldl follow []).reverse :=
  components_ofComponents (isNormal_foldl_components p)

/-- Normalizing a second time changes nothing. -/
@[simp] theorem normalize_normalize (p : Path) : p.normalize.normalize = p.normalize := by
  have h : p.normalize.components.foldl follow [] = p.components.foldl follow [] := by
    rw [components_normalize, (isNormal_foldl_components p).foldl_follow]
  rw [normalize, h]
  rfl

end Playbook.Path
