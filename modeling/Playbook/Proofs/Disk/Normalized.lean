import Mathlib.Algebra.Order.BigOperators.Group.List
import Mathlib.Algebra.Order.Group.Nat
import Mathlib.Algebra.Ring.Nat
import Playbook.Proofs.Path.Joining
import Playbook.Proofs.Text.Bytes

/-!
# Looking up normalized paths

A path is normalized by its text alone, and a path that cannot be followed may become one that can.
The other way round nothing is lost on a disk without links: a file that is found at a path is found
at the normalized one (`Disk.find_normalize`).  What is left of the steps are some of them in their
order, so the text gets no longer, and each is taken from the directory that it was taken from.

A directory may be lost, because the normalized path to the working directory is empty.  With links,
a `..` may lead elsewhere than back, and then the normalized path leads to another file or to none.
-/

namespace Playbook

namespace Path

/-! ### The steps that are left -/

theorem reverse_follow_sublist (steps : List Component) (step : Component) :
    (follow steps step).reverse.Sublist (steps.reverse ++ [step]) := by
  have hkeep : steps.reverse.Sublist (steps.reverse ++ [step]) := List.sublist_append_left _ _
  cases step with
  | here => exact hkeep
  | root | name s => simp [follow]
  | up =>
    cases steps with
    | nil => exact List.Sublist.refl _
    | cons last below =>
      cases last with
      | name s =>
        refine List.Sublist.trans ?_ hkeep
        simp [follow]
      | root => exact hkeep
      | here | up => simp [follow]

/-- Following steps leaves some of them, in their order. -/
theorem reverse_foldl_follow_sublist (more steps : List Component) :
    (more.foldl follow steps).reverse.Sublist (steps.reverse ++ more) := by
  induction more generalizing steps with
  | nil => simp
  | cons step rest ih =>
    refine (ih (follow steps step)).trans ?_
    rw [List.append_cons]
    exact (reverse_follow_sublist steps step).append_right rest

theorem root_mem_foldl_follow {steps : List Component} (h : .root ∈ steps)
    (more : List Component) : .root ∈ more.foldl follow steps := by
  induction more generalizing steps with
  | nil => exact h
  | cons step rest ih =>
    refine ih ?_
    cases step with
    | here => exact h
    | root | name s => simp [follow, h]
    | up =>
      cases steps with
      | nil => cases h
      | cons last below => cases last <;> simp_all [follow]

theorem isAbsolute_iff_root_mem {p : Path} : p.isAbsolute = true ↔ .root ∈ p.components := by
  have hinner : .root ∉ p.segments.filterMap Component.ofSegment? := by
    intro hroot
    cases isInner_of_mem_segments hroot
  unfold components
  split
  · simp [*]
  · split <;> simp [*]

theorem isAbsolute_normalize (p : Path) : p.normalize.isAbsolute = p.isAbsolute := by
  rw [Bool.eq_iff_iff, isAbsolute_iff_root_mem, isAbsolute_iff_root_mem, components_normalize,
    List.mem_reverse]
  constructor
  · intro h
    simpa using (reverse_foldl_follow_sublist p.components []).subset (List.mem_reverse.2 h)
  · intro h
    obtain ⟨rest, hp⟩ : ∃ rest, p.components = .root :: rest := by
      rw [← isAbsolute_iff_root_mem] at h
      exact ⟨_, if_pos h⟩
    rw [hp]
    exact root_mem_foldl_follow (List.mem_singleton_self Component.root) rest

/-! ### The segments that are left -/

theorem text_of_ofSegment? {segment : List Char} {step : Component}
    (h : Component.ofSegment? segment = some step) : step.text = segment := by
  unfold Component.ofSegment? at h
  split at h
  · cases h
  · cases h
  · cases h
    rfl
  · cases h
    exact String.toList_ofList

theorem map_text_filterMap_sublist (segments : List (List Char)) :
    ((segments.filterMap Component.ofSegment?).map Component.text).Sublist segments := by
  induction segments with
  | nil => exact List.Sublist.refl []
  | cons segment rest ih =>
    cases h : Component.ofSegment? segment with
    | none =>
      rw [List.filterMap_cons_none h]
      exact ih.cons segment
    | some step =>
      rw [List.filterMap_cons_some h, List.map_cons, text_of_ofSegment? h]
      exact ih.cons_cons segment

/-- A segment in front that stands for no step of its own. -/
theorem map_text_filterMap_sublist_of_head? {segments : List (List Char)} {first : List Char}
    (hfirst : segments.head? = some first) (hidle : isIdle first = true) :
    (first :: (segments.filterMap Component.ofSegment?).map Component.text).Sublist segments := by
  cases segments with
  | nil => cases hfirst
  | cons segment rest =>
    cases hfirst
    rw [List.filterMap_cons_none (by simpa [isIdle] using hidle)]
    exact (map_text_filterMap_sublist rest).cons_cons first

/-- The steps of a path are written as some of its segments. -/
theorem map_text_components_sublist (p : Path) :
    (p.components.map Component.text).Sublist p.segments := by
  unfold components
  split
  · rename_i habs
    exact map_text_filterMap_sublist_of_head? (isAbsolute_iff.1 habs).1 rfl
  · split
    · rename_i hhere
      exact map_text_filterMap_sublist_of_head? hhere rfl
    · exact map_text_filterMap_sublist p.segments

/-- Normal steps can be read back from their segments, but for the top. -/
theorem IsNormal.isPlain_or {steps : List Component} (h : IsNormal steps) :
    (∀ step ∈ steps, step.IsPlain) ∨
      ∃ inner, steps = inner ++ [.root] ∧ ∀ step ∈ inner, step.IsPlain := by
  induction h with
  | top => exact .inr ⟨[], rfl, List.forall_mem_nil _⟩
  | above ups => exact .inl fun step hs => List.eq_of_mem_replicate hs ▸ .up
  | @down steps s _ hs ih =>
    rcases ih with ih | ⟨inner, rfl, ih⟩
    · exact .inl (List.forall_mem_cons.2 ⟨.name hs, ih⟩)
    · exact .inr ⟨.name s :: inner, rfl, List.forall_mem_cons.2 ⟨.name hs, ih⟩⟩

/-- A normalized path is written with its steps, unless it leads nowhere. -/
theorem segments_normalize {p : Path} (hne : p.normalize.components ≠ [])
    (htop : p.normalize.components ≠ [.root]) :
    p.normalize.segments = p.normalize.components.map Component.text := by
  rw [components_normalize] at hne htop ⊢
  rw [normalize]
  rcases (isNormal_foldl_components p).isPlain_or with hplain | ⟨inner, he, hplain⟩
  · have hplain : ∀ step ∈ (p.components.foldl follow []).reverse, step.IsPlain :=
      fun step hs => hplain step (List.mem_reverse.1 hs)
    rw [ofComponents]
    · rw [segments, String.toList_ofList, segments_join hne hplain]
    · intro rest hrest
      exact (hplain .root (hrest ▸ List.mem_cons_self)).2.1 rfl
  · rw [he, List.reverse_append, List.reverse_singleton, List.singleton_append] at htop ⊢
    have hinner : inner.reverse ≠ [] := fun hnil => htop (by rw [hnil])
    rw [ofComponents, segments, String.toList_ofList, Text.splitOn, if_pos rfl,
      segments_join hinner fun step hs => hplain step (List.mem_reverse.1 hs)]
    rfl

theorem segments_normalize_sublist {p : Path} (hne : p.normalize.components ≠ [])
    (htop : p.normalize.components ≠ [.root]) : p.normalize.segments.Sublist p.segments := by
  rw [segments_normalize hne htop, components_normalize]
  have hleft := reverse_foldl_follow_sublist p.components []
  exact (hleft.map Component.text).trans (map_text_components_sublist p)

/-! ### The text that is left -/

theorem size_joinWith {pieces : List (List Char)} (hne : pieces ≠ []) :
    Text.size (Text.joinWith ['/'] pieces) + 1 =
      (pieces.map fun piece => Text.size piece + 1).sum := by
  induction pieces with
  | nil => exact absurd rfl hne
  | cons piece rest ih =>
    cases rest with
    | nil => simp
    | cons next more =>
      rw [Text.joinWith_cons _ _ (List.cons_ne_nil next more), List.map_cons, List.sum_cons,
        ← ih (List.cons_ne_nil next more), Text.size_append, Text.size_append, Text.size_cons]
      have hslash : Char.utf8Size '/' = 1 := rfl
      rw [hslash, Text.size_nil]
      omega

theorem utf8ByteSize_add_one (p : Path) :
    p.text.utf8ByteSize + 1 = (p.segments.map fun piece => Text.size piece + 1).sum := by
  rw [← size_joinWith p.segments_ne_nil, segments, Text.joinWith_splitOn, Text.size_toList]

/-- A path with fewer segments is no longer. -/
theorem utf8ByteSize_le_of_sublist {p q : Path} (h : p.segments.Sublist q.segments) :
    p.text.utf8ByteSize ≤ q.text.utf8ByteSize := by
  have hp := utf8ByteSize_add_one p
  have hq := utf8ByteSize_add_one q
  have hle := (h.map fun piece => Text.size piece + 1).sum_le_sum (fun _ _ => Nat.zero_le _)
  omega

theorem not_mem_text_of_sublist {p q : Path} (h : p.segments.Sublist q.segments) {c : Char}
    (hc : c ≠ '/') (hq : c ∉ q.text.toList) : c ∉ p.text.toList := by
  have hjoin : Text.joinWith ['/'] p.segments = p.text.toList := Text.joinWith_splitOn _ _
  rw [← hjoin]
  refine Text.not_mem_joinWith (by simpa using hc) fun piece hpiece hmem => hq ?_
  exact (Text.infix_of_mem_splitOn (h.subset hpiece)).subset hmem

end Path

namespace Disk

variable {d : Disk} {p : Path}

/-! ### Steps from directories -/

/-- Each step is taken from a directory; the last one comes first. -/
def FromDirectories (d : Disk) (start : Place) : List Path.Component → Prop
  | [] => True
  | _ :: below =>
    d.get? (below.reverse.foldl Place.along start) = some .directory ∧
      d.FromDirectories start below

theorem FromDirectories.follow {start : Place} {steps : List Path.Component}
    (h : d.FromDirectories start steps)
    (hplace : d.get? (steps.reverse.foldl Place.along start) = some .directory)
    (step : Path.Component) : d.FromDirectories start (Path.follow steps step) := by
  cases step with
  | here => exact h
  | root | name s => exact ⟨hplace, h⟩
  | up =>
    cases steps with
    | nil => exact ⟨hplace, h⟩
    | cons last below =>
      cases last with
      | name s => exact h.2
      | root => exact h
      | here | up => exact ⟨hplace, h⟩

/-- What is left of the steps of a way are steps from directories. -/
theorem FromDirectories.foldl_follow {start : Place} {steps : List Path.Component}
    (h : d.FromDirectories start steps) {segments : List (List Char)}
    (hway : d.IsWay (steps.reverse.foldl Place.along start) segments) :
    d.FromDirectories start
      ((segments.filterMap Path.Component.ofSegment?).foldl Path.follow steps) := by
  induction segments generalizing steps with
  | nil => exact h
  | cons segment rest ih =>
    obtain ⟨⟨hplace, -⟩, hrest⟩ := hway
    rw [Place.step_eq] at hrest
    cases hstep : Path.Component.ofSegment? segment with
    | none =>
      rw [List.filterMap_cons_none hstep]
      rw [hstep] at hrest
      exact ih h hrest
    | some step =>
      rw [List.filterMap_cons_some hstep, List.foldl_cons]
      rw [hstep] at hrest
      refine ih (h.follow hplace step) ?_
      rwa [Path.foldl_along_follow]

theorem FromDirectories.of_root {steps : List Path.Component}
    (h : d.FromDirectories [] (steps ++ [.root])) : d.FromDirectories [] steps := by
  induction steps with
  | nil => trivial
  | cons step steps ih =>
    rw [List.cons_append] at h
    obtain ⟨hplace, h⟩ := h
    rw [List.reverse_append] at hplace
    exact ⟨hplace, ih h⟩

/-- Steps from directories can be followed, as they are written. -/
theorem FromDirectories.isWay {start : Place} {steps : List Path.Component}
    (h : d.FromDirectories start steps) (hplain : ∀ step ∈ steps, step.IsPlain)
    (hshort : ∀ step ∈ steps, Text.size step.text ≤ nameLimit) :
    d.IsWay start (steps.reverse.map Path.Component.text) := by
  induction steps with
  | nil => trivial
  | cons step below ih =>
    rw [List.forall_mem_cons] at hplain hshort
    rw [List.reverse_cons, List.map_append, List.map_singleton, isWay_concat, Place.foldl_step,
      Path.filterMap_ofSegment?_text fun s hs => hplain.2 s (List.mem_reverse.1 hs)]
    exact ⟨ih h.2 hplain.2 hshort.2, h.1, hshort.1⟩

theorem short_of_isWay {start : Place} {segments : List (List Char)}
    (h : d.IsWay start segments) : ∀ segment ∈ segments, Text.size segment ≤ nameLimit := by
  induction segments generalizing start with
  | nil => exact List.forall_mem_nil _
  | cons segment rest ih => exact List.forall_mem_cons.2 ⟨h.1.2, ih h.2⟩

/-- The steps that normalizing a path leaves are taken from directories. -/
theorem fromDirectories_normalize (hway : d.IsWay (d.start p) p.segments) :
    d.FromDirectories (d.start p) (p.components.foldl Path.follow []) := by
  unfold start Path.origin at hway ⊢
  unfold Path.components
  split
  · rename_i habs
    rw [if_pos habs] at hway
    have htop : d.FromDirectories [] [.root] := ⟨rfl, trivial⟩
    exact htop.foldl_follow hway
  · rename_i habs
    rw [if_neg habs] at hway
    have hnone : d.FromDirectories d.here [] := trivial
    split
    · exact hnone.foldl_follow hway
    · exact hnone.foldl_follow hway

/-- A normalized path can be followed if the path can, unless it leads nowhere. -/
theorem isWay_normalize (hway : d.IsWay (d.start p) p.segments)
    (hne : p.normalize.components ≠ []) (htop : p.normalize.components ≠ [.root]) :
    d.IsWay (d.start p) p.normalize.segments := by
  have hfrom := fromDirectories_normalize hway
  have hsegments := Path.segments_normalize hne htop
  have hshort : ∀ segment ∈ p.normalize.segments, Text.size segment ≤ nameLimit :=
    fun segment hs => short_of_isWay hway segment
      ((Path.segments_normalize_sublist hne htop).subset hs)
  rw [hsegments, Path.components_normalize] at hshort ⊢
  have hshort : ∀ step ∈ p.components.foldl Path.follow [], Text.size step.text ≤ nameLimit :=
    fun step hs => hshort _ (List.mem_map_of_mem (List.mem_reverse.2 hs))
  rcases (Path.isNormal_foldl_components p).isPlain_or with hplain | ⟨inner, he, hplain⟩
  · exact hfrom.isWay hplain hshort
  · have habs : p.isAbsolute = true := by
      rw [← Path.isAbsolute_normalize, Path.isAbsolute_iff_root_mem, Path.components_normalize, he]
      simp
    rw [start, Path.origin, if_pos habs] at hfrom ⊢
    rw [he] at hfrom hshort ⊢
    rw [List.reverse_append]
    have hinner := hfrom.of_root.isWay hplain fun step hs => hshort step (List.mem_append_left _ hs)
    exact ⟨⟨rfl, Nat.zero_le _⟩, hinner⟩

/-- Without links, a file that is found at a path is found at the normalized one. -/
theorem find_normalize (hl : d.LinkFree) {content : ByteArray}
    (h : d.find p = .ok (.file content)) : d.find p.normalize = .ok (.file content) := by
  obtain ⟨hcheck, hway, hentry⟩ := (find_eq_ok_iff_isWay hl).1 h
  obtain ⟨hzero, -, hlong⟩ := checkPath_eq_ok_iff.1 hcheck
  -- a path that leads nowhere ends at a directory
  have hstart : d.get? (d.start p) = some .directory := by
    obtain ⟨first, rest, hp⟩ := List.exists_cons_of_ne_nil p.segments_ne_nil
    rw [hp] at hway
    exact hway.1.1
  have hwalk := Path.walk_normalize p d.here
  have hne : p.normalize.components ≠ [] := by
    intro hnil
    have habs : ¬p.isAbsolute = true := by
      rw [← Path.isAbsolute_normalize, Path.isAbsolute_iff_root_mem, hnil]
      exact List.not_mem_nil
    rw [start, Path.origin, if_neg habs] at hstart
    rw [Path.walk, hnil, List.foldl_nil] at hwalk
    rw [← hwalk, hstart] at hentry
    cases hentry
  have htop : p.normalize.components ≠ [.root] := by
    intro htop
    rw [Path.walk, htop] at hwalk
    rw [← hwalk] at hentry
    cases hentry
  have hsub := Path.segments_normalize_sublist hne htop
  refine (find_eq_ok_iff_isWay hl).2 ⟨checkPath_eq_ok_iff.2 ⟨?_, ?_, ?_⟩, ?_, ?_⟩
  · exact Path.not_mem_text_of_sublist hsub (by decide) hzero
  · intro hempty
    have hp : p.normalize = ⟨""⟩ := congrArg Path.mk hempty
    exact hne (by rw [hp]; rfl)
  · exact (Path.utf8ByteSize_le_of_sublist hsub).trans hlong
  · rw [start_eq_of_isAbsolute p.isAbsolute_normalize]
    exact isWay_normalize hway hne htop
  · rwa [hwalk]

end Disk

end Playbook
