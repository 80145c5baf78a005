import Playbook.Proofs.Disk.Lookup

/-!
# Joined paths, and the paths above them

A path is read segment by segment, and segments that stand for no step make no difference but at the
front.  So a joined path leads where its second part leads from the place of the first one
(`walk_join`).  A name that is joined to a path is one more step, whatever the spelling of the path,
and the path above the joined one has the steps of the path that was joined to.

Where a path leads does not change when it is normalized: a step that `normalize` takes back is one
that the walk takes back too.
-/

namespace Playbook

namespace Path

/-! ### Steps and segments -/

theorem segments_ne_nil (p : Path) : p.segments ≠ [] := Text.splitOn_ne_nil _ _

theorem text_eq_empty_iff {p : Path} : p.text = "" ↔ p.segments = [[]] := by
  constructor
  · intro h
    rw [segments, h]
    rfl
  · intro h
    have hjoin : Text.joinWith ['/'] p.segments = p.text.toList := Text.joinWith_splitOn _ _
    rw [h] at hjoin
    exact String.toList_eq_nil_iff.1 hjoin.symm

/-- A path is absolute if its first segment is empty and not its only one. -/
theorem isAbsolute_iff {p : Path} :
    p.isAbsolute = true ↔ p.segments.head? = some [] ∧ p.segments ≠ [[]] := by
  unfold isAbsolute segments
  cases p.text.toList with
  | nil => simp
  | cons c rest =>
    rw [Text.splitOn]
    by_cases hc : c = '/'
    · simp [hc, Text.splitOn_ne_nil]
    · cases hs : Text.splitOn '/' rest with
      | nil => exact absurd hs (Text.splitOn_ne_nil '/' rest)
      | cons first more => simp [hc]

theorem filterMap_of_isIdle {idle : List (List Char)} (h : ∀ s ∈ idle, isIdle s = true) :
    idle.filterMap Component.ofSegment? = [] := by
  rw [List.filterMap_eq_nil_iff]
  intro s hs
  simpa [isIdle] using h s hs

/-- Segments that stand for no step lead nowhere else. -/
theorem foldl_step_of_isIdle {idle : List (List Char)}
    (h : ∀ s ∈ idle, isIdle s = true) (place : Place) : idle.foldl Place.step place = place := by
  rw [Place.foldl_step, filterMap_of_isIdle h]
  rfl

/-- The steps of a path, by the segments in front of those that stand for no step. -/
theorem components_of_segments {p : Path} {kept idle : List (List Char)}
    (hp : p.segments = kept ++ idle) (hidle : ∀ s ∈ idle, isIdle s = true) (hne : kept ≠ []) :
    p.components =
      (if p.isAbsolute then [.root] else if kept.head? = some ['.'] then [.here] else []) ++
        kept.filterMap Component.ofSegment? := by
  have hhead : p.segments.head? = kept.head? := by
    rw [hp, List.head?_append_of_ne_nil _ hne]
  have hinner : p.segments.filterMap Component.ofSegment? =
      kept.filterMap Component.ofSegment? := by
    rw [hp, List.filterMap_append, filterMap_of_isIdle hidle, List.append_nil]
  simp only [components, hinner, hhead]
  split
  · rfl
  · split <;> rfl

/-! ### The path above -/

/-- The path with the given segments; a path with nothing but the one in front of the top is the top
itself. -/
def ofSegments (kept : List (List Char)) : Path :=
  ⟨if kept = [[]] then "/" else String.ofList (Text.joinWith ['/'] kept)⟩

theorem exists_segments_ofSegments {kept : List (List Char)} (hne : kept ≠ [])
    (hslash : ∀ s ∈ kept, '/' ∉ s) :
    ∃ idle, (ofSegments kept).segments = kept ++ idle ∧ ∀ s ∈ idle, isIdle s = true := by
  unfold ofSegments segments
  by_cases htop : kept = [[]]
  · refine ⟨[[]], ?_, by decide⟩
    subst htop
    decide
  · refine ⟨[], ?_, by simp⟩
    simp [htop, Text.splitOn_joinWith hne hslash]

theorem isAbsolute_ofSegments {kept : List (List Char)} (hne : kept ≠ [])
    (hslash : ∀ s ∈ kept, '/' ∉ s) :
    (ofSegments kept).isAbsolute = true ↔ kept.head? = some [] := by
  by_cases htop : kept = [[]]
  · subst htop
    decide
  · have hsegments : (ofSegments kept).segments = kept := by
      simp [ofSegments, segments, htop, Text.splitOn_joinWith hne hslash]
    rw [isAbsolute_iff, hsegments]
    simp [htop]

/-- What is left of segments without those at the end that stand for no step. -/
theorem exists_append_dropIdle (segments : List (List Char)) :
    ∃ idle, segments = (segments.reverse.dropWhile isIdle).reverse ++ idle ∧
      ∀ s ∈ idle, isIdle s = true := by
  refine ⟨(segments.reverse.takeWhile isIdle).reverse, ?_, ?_⟩
  · rw [← List.reverse_append, List.takeWhile_append_dropWhile, List.reverse_reverse]
  · intro s hs
    exact List.mem_takeWhile_imp (List.mem_reverse.1 hs)

/-- The path above one that ends with a step. -/
theorem parent?_of_segments {p : Path} {first step : List Char} {rest : List (List Char)}
    (hp : p.segments = first :: (rest ++ [step])) (hstep : isIdle step = false) :
    p.parent? = some (ofSegments (first :: (rest.reverse.dropWhile isIdle).reverse)) := by
  have hreverse : (rest ++ [step]).reverse.dropWhile isIdle = step :: rest.reverse := by
    rw [List.reverse_append, List.reverse_singleton, List.singleton_append,
      List.dropWhile_cons_of_neg (by simp [hstep])]
  rw [parent?, hp]
  simp only [hreverse]
  rfl

/-- The path above another one has the segments of that one up to some step; if there are none left
it is empty. -/
theorem parent?_cases {p above : Path} (h : p.parent? = some above) :
    (above = ⟨""⟩ ∧ p.isAbsolute = false) ∨
      ∃ kept tail, p.segments = kept ++ tail ∧ kept ≠ [] ∧ tail ≠ [] ∧
        above = ofSegments kept := by
  obtain ⟨first, inner, hp⟩ := List.exists_cons_of_ne_nil p.segments_ne_nil
  simp only [parent?, hp] at h
  split at h
  · split at h
    · cases h
    · next hfirst =>
      refine Or.inl ⟨(Option.some.inj h).symm, ?_⟩
      rw [← Bool.not_eq_true, isAbsolute_iff, hp]
      simp_all
  · next step before hinner =>
    obtain ⟨idle, hidle, -⟩ := exists_append_dropIdle inner
    obtain ⟨idle', hidle', -⟩ := exists_append_dropIdle before.reverse
    rw [List.reverse_reverse] at hidle'
    rw [hinner, List.reverse_cons, hidle'] at hidle
    refine Or.inr ⟨_, idle' ++ [step] ++ idle, ?_, List.cons_ne_nil _ _, by simp,
      (Option.some.inj h).symm⟩
    rw [hp, hidle]
    simp

/-! ### Joining -/

/-- A relative path that is joined to another one goes on with its segments, in the place of an
empty one at the end; if that one is empty it stands alone. -/
theorem join_cases (base : Path) {p : Path} (hp : p.isAbsolute = false) :
    (base = ⟨""⟩ ∧ base.join p = p) ∨
      ∃ kept idle, kept ≠ [] ∧ (base.join p).segments = kept ++ p.segments ∧
        base.segments = kept ++ idle ∧ (∀ s ∈ idle, isIdle s = true) ∧
        (base.isAbsolute = true ↔ kept.head? = some []) := by
  unfold join
  rw [hp, Bool.false_or]
  by_cases hempty : base.text.isEmpty = true
  · have htext : base.text = "" := by simpa using hempty
    exact Or.inl ⟨congrArg Path.mk htext, by rw [if_pos hempty]⟩
  · rw [if_neg hempty]
    right
    by_cases hend : (base.text.toList.getLast? == some '/') = true
    · obtain ⟨init, hinit⟩ := List.getLast?_eq_some_iff.1 (by simpa using hend)
      have hne := Text.splitOn_ne_nil '/' init
      have hbase : base.segments = Text.splitOn '/' init ++ [[]] := by
        rw [segments, hinit, Text.splitOn_append_sep]
        rfl
      refine ⟨Text.splitOn '/' init, [[]], hne, ?_, hbase, by decide, ?_⟩
      · rw [if_pos hend, segments, String.toList_append, hinit, List.append_assoc,
          List.singleton_append, Text.splitOn_append_sep]
        rfl
      · rw [isAbsolute_iff, hbase, List.head?_append_of_ne_nil _ hne]
        simp [hne]
    · refine ⟨base.segments, [], base.segments_ne_nil, ?_, by simp, by simp, ?_⟩
      · have hsep : "/".toList = ['/'] := rfl
        rw [if_neg hend, segments, String.toList_append, String.toList_append, hsep,
          List.append_assoc, List.singleton_append, Text.splitOn_append_sep]
        rfl
      · have hsegments : base.segments ≠ [[]] := by
          intro h
          exact hempty (by simpa using text_eq_empty_iff.2 h)
        simp [isAbsolute_iff, hsegments]

/-- Joining a relative path does not change where the other one starts. -/
theorem isAbsolute_join (base : Path) {p : Path} (hp : p.isAbsolute = false) :
    (base.join p).isAbsolute = base.isAbsolute := by
  rcases base.join_cases hp with ⟨rfl, hjoin⟩ | ⟨kept, idle, hne, hjoin, hbase, hidle, habs⟩
  · rw [hjoin, hp]
    rfl
  · rw [Bool.eq_iff_iff, habs, isAbsolute_iff, hjoin, List.head?_append_of_ne_nil _ hne]
    simp [List.append_eq_singleton_iff, hne, p.segments_ne_nil]

/-- An absolute path leads to the same place from everywhere. -/
theorem walk_of_isAbsolute {p : Path} (h : p.isAbsolute = true) (place other : Place) :
    p.walk place = p.walk other := by
  rw [walk_eq_foldl_step, walk_eq_foldl_step, if_pos h, if_pos h]

/-- A joined path leads where the second path leads from the place that the first one leads to. -/
theorem walk_join (base p : Path) (place : Place) :
    (base.join p).walk place = p.walk (base.walk place) := by
  cases habs : p.isAbsolute with
  | true =>
    have hjoin : base.join p = p := by simp [join, habs]
    rw [hjoin]
    exact walk_of_isAbsolute habs _ _
  | false =>
    have hstart := base.isAbsolute_join habs
    rcases base.join_cases habs with ⟨rfl, hjoin⟩ | ⟨kept, idle, -, hjoin, hbase, hidle, -⟩
    · rw [hjoin]
      rfl
    · simp only [walk_eq_foldl_step, hstart, habs, hjoin, hbase, List.foldl_append,
        foldl_step_of_isIdle hidle, Bool.false_eq_true, if_false]

/-! ### Joining a name -/

section Name

variable {name : String}

theorem segments_name (hname : IsName name) : (Path.mk name).segments = [name.toList] :=
  Text.splitOn_of_not_mem hname.1

theorem isAbsolute_name (hname : IsName name) : (Path.mk name).isAbsolute = false := by
  have hne : ¬(Path.mk name).isAbsolute = true := by
    rw [isAbsolute_iff, segments_name hname]
    simp [hname.2.1]
  simpa using hne

theorem components_name (hname : IsName name) : (Path.mk name).components = [.name name] := by
  have hdot : ([name.toList] : List (List Char)).head? ≠ some ['.'] := by
    simpa using hname.2.2.1
  have hsegments : (Path.mk name).segments = [name.toList] ++ [] := segments_name hname
  rw [components_of_segments hsegments (by simp) (by simp), isAbsolute_name hname,
    if_neg (by simp), if_neg hdot]
  simp [Component.ofSegment?_name hname]

theorem isIdle_name (hname : IsName name) : isIdle name.toList = false := by
  simp [isIdle, Component.ofSegment?_name hname]

/-- A name that is joined to a path is one more segment, in the place of an empty one at the end; if
the path is empty it stands alone. -/
theorem join_name_cases (base : Path) (hname : IsName name) :
    (base = ⟨""⟩ ∧ base.join ⟨name⟩ = ⟨name⟩) ∨
      ∃ kept idle, kept ≠ [] ∧ (base.join ⟨name⟩).segments = kept ++ [name.toList] ∧
        base.segments = kept ++ idle ∧ (∀ s ∈ idle, isIdle s = true) ∧
        (base.isAbsolute = true ↔ kept.head? = some []) := by
  rw [← segments_name hname]
  exact base.join_cases (isAbsolute_name hname)

/-- Joining a name does not change where the path starts. -/
theorem isAbsolute_join_name (base : Path) (hname : IsName name) :
    (base.join ⟨name⟩).isAbsolute = base.isAbsolute :=
  base.isAbsolute_join (isAbsolute_name hname)

/-- Joining a name adds one step. -/
theorem components_join_name (base : Path) (hname : IsName name) :
    (base.join ⟨name⟩).components = base.components ++ [.name name] := by
  have habs' := base.isAbsolute_join_name hname
  rcases base.join_name_cases hname with ⟨rfl, hjoin⟩ | ⟨kept, idle, hne, hjoin, hbase, hidle, habs⟩
  · rw [hjoin, components_name hname]
    rfl
  · rw [← List.append_nil (kept ++ [name.toList])] at hjoin
    rw [components_of_segments hbase hidle hne, components_of_segments hjoin (by simp) (by simp),
      habs', List.head?_append_of_ne_nil _ hne, List.filterMap_append]
    simp [Component.ofSegment?_name hname]

/-- The path above a joined name has the steps of the path that it was joined to. -/
theorem exists_parent?_join_name (base : Path) (hname : IsName name) :
    ∃ above, (base.join ⟨name⟩).parent? = some above ∧ above.components = base.components := by
  rcases base.join_name_cases hname with ⟨rfl, hjoin⟩ | ⟨kept, idle, hne, hjoin, hbase, hidle, habs⟩
  · refine ⟨⟨""⟩, ?_, rfl⟩
    rw [hjoin, parent?, segments_name hname]
    simp [hname.2.1]
  · obtain ⟨first, rest, rfl⟩ := List.exists_cons_of_ne_nil hne
    obtain ⟨more, hmore, hidle'⟩ := exists_append_dropIdle rest
    refine ⟨_, parent?_of_segments hjoin (isIdle_name hname), ?_⟩
    generalize (rest.reverse.dropWhile isIdle).reverse = left at hmore
    -- what is left out stands for no step, here and at the end of the other path
    have hslash : ∀ s ∈ first :: left, '/' ∉ s := by
      intro s hs
      have hmem : s ∈ base.segments := by
        rw [hbase, hmore]
        rcases List.mem_cons.1 hs with rfl | hs <;> simp [*]
      exact Text.not_mem_of_mem_splitOn hmem
    obtain ⟨idle', hsegments, hidle''⟩ :=
      exists_segments_ofSegments (List.cons_ne_nil first left) hslash
    have habs' : (ofSegments (first :: left)).isAbsolute = base.isAbsolute := by
      rw [Bool.eq_iff_iff, habs, isAbsolute_ofSegments (List.cons_ne_nil first left) hslash]
      simp
    rw [hmore, ← List.cons_append, List.append_assoc] at hbase
    rw [components_of_segments hsegments hidle'' (by simp),
      components_of_segments hbase (List.forall_mem_append.2 ⟨hidle', hidle⟩) (by simp), habs']

theorem fileName?_join_name (base : Path) (hname : IsName name) :
    (base.join ⟨name⟩).fileName? = some name := by
  simp [fileName?, components_join_name base hname]

end Name

/-! ### Where normalized paths lead -/

/-- Following one more step leads where the step leads from the place so far. -/
theorem foldl_along_follow (steps : List Component) (step : Component) (place : Place) :
    (follow steps step).reverse.foldl Place.along place =
      (steps.reverse.foldl Place.along place).along step := by
  cases step with
  | here => rfl
  | root | name s => simp [follow]
  | up =>
    cases steps with
    | nil => rfl
    | cons last below => cases last <;> simp [follow, Place.along]

/-- A normalized path leads to the same place. -/
theorem walk_normalize (p : Path) (place : Place) : p.normalize.walk place = p.walk place := by
  have hfold : ∀ more steps : List Component,
      (more.foldl follow steps).reverse.foldl Place.along place =
        more.foldl Place.along (steps.reverse.foldl Place.along place) := by
    intro more
    induction more with
    | nil => simp
    | cons step rest ih =>
      intro steps
      rw [List.foldl_cons, ih, foldl_along_follow, List.foldl_cons]
  rw [walk, components_normalize, hfold]
  rfl

end Path

end Playbook
