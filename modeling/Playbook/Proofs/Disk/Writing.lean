import Mathlib.Logic.Relation
import Playbook.Proofs.Path.Joining

/-!
# Writing to a disk

Each operation that writes puts one thing at a place where there is neither a directory nor a link,
or does nothing.  So no directory is lost and links stay what they are (`Keeps`), and every path
leads where it led before.  Making directories goes through the paths above a path, so what it puts
is at their places (`Grows`); a file is written at the place that its path leads to.

On the way to something that exists, all the paths above it lead to directories, however they are
spelled: they end where the way goes on, or stay there.  Together this tells what storing a file in
a directory does (`Stored`).  If there is a link under the name of the file, the file is not in that
directory but where the link leads to, and it is changed under all its names.
-/

namespace Playbook

namespace Path

/-- A path itself, or one above it. -/
def Ancestor (p above : Path) : Prop :=
  Relation.ReflTransGen (fun q next => q.parent? = some next) p above

/-- A joined name follows the segments of the path that it was joined to, but for some at its end
that stand for no step. -/
theorem exists_segments_join_name (base : Path) {name : String} (hname : IsName name) :
    ∃ kept idle, (base.join ⟨name⟩).segments = kept ++ [name.toList] ∧
      base.segments = kept ++ idle ∧ ∀ s ∈ idle, isIdle s = true := by
  rcases base.join_name_cases hname with ⟨rfl, hjoin⟩ | ⟨kept, idle, -, hjoin, hbase, hidle, -⟩
  · exact ⟨[], [[]], by rw [hjoin, segments_name hname]; rfl, rfl, by decide⟩
  · exact ⟨kept, idle, hjoin, hbase, hidle⟩

end Path

namespace Disk

variable {d d' : Disk} {p : Path} {place : Place}

/-- A path leads to a directory. -/
def HasDirectory (d : Disk) (p : Path) (place : Place) : Prop :=
  d.follow p = .ok place ∧ d.get? place = some .directory

/-- A path, or one above it, leads to a place. -/
def LeadsOver (d : Disk) (p : Path) (place : Place) : Prop :=
  ∃ above, p.Ancestor above ∧ d.follow above = .ok place

/-! ### The paths above one that is followed -/

theorem leads_of_isIdle {idle : List (List Char)} (h : ∀ s ∈ idle, Path.isIdle s = true)
    (hplace : d.get? place = some .directory) : d.Leads 0 place idle place := by
  induction idle with
  | nil => exact .stop
  | cons s rest ih =>
    have hs : s = [] ∨ s = ['.'] := by
      have hidle := h s (List.mem_cons_self ..)
      unfold Path.isIdle Path.Component.ofSegment? at hidle
      split at hidle <;> simp_all
    have hno : ∀ target, d.get? place ≠ some (.link target) := by simp [hplace]
    have hrest := ih fun s' hs' => h s' (List.mem_cons_of_mem _ hs')
    rcases hs with rfl | rfl
    · exact .step ⟨hplace, by decide⟩ hno hrest
    · exact .step ⟨hplace, by decide⟩ hno hrest

/-- Where segments go on there is a directory, also when they are cut off there. -/
theorem Leads.cut_of_isIdle {links : Nat} {start last : Place} {kept tail idle : List (List Char)}
    (h : d.Leads links start (kept ++ tail) last) (hne : tail ≠ [])
    (hidle : ∀ s ∈ idle, Path.isIdle s = true) :
    ∃ mid, d.Leads links start (kept ++ idle) mid ∧ d.get? mid = some .directory := by
  obtain ⟨next, rest, rfl⟩ := List.exists_cons_of_ne_nil hne
  obtain ⟨mid, hmid, henter⟩ := h.cut
  exact ⟨mid, hmid.append (leads_of_isIdle hidle henter.1), henter.1⟩

/-- What a name is joined to leads to a directory if the joined path can be followed.  The joined
path leads to that name in it, unless there is a link. -/
theorem hasDirectory_of_join_name (base : Path) {name : String} (hname : Path.IsName name)
    {file : Place} (h : d.follow (base.join ⟨name⟩) = .ok file) :
    ∃ above, d.HasDirectory base above ∧
      ((∀ target, d.get? (above ++ [name]) ≠ some (.link target)) → file = above ++ [name]) := by
  obtain ⟨kept, idle, hjoin, hbase, hidle⟩ := base.exists_segments_join_name hname
  rw [follow_eq_ok_iff, start_eq_of_isAbsolute (base.isAbsolute_join_name hname), hjoin] at h
  obtain ⟨above, habove, henter⟩ := h.cut
  have hto : d.follow base = .ok above := by
    rw [follow_eq_ok_iff, hbase]
    exact habove.append (leads_of_isIdle hidle henter.1)
  have hstep : above.step name.toList = above ++ [name] := by
    rw [Place.step_eq, Path.Component.ofSegment?_name hname]
    rfl
  refine ⟨above, ⟨hto, henter.1⟩, fun hno => ?_⟩
  rw [← hstep] at hno ⊢
  exact h.unique (habove.concat henter hno)

/-- The path above one that can be followed leads to a directory. -/
theorem hasDirectory_of_parent? {above : Path} (h : p.parent? = some above)
    (hp : d.follow p = .ok place) : ∃ mid, d.HasDirectory above mid := by
  rw [follow_eq_ok_iff] at hp
  rcases Path.parent?_cases h with ⟨rfl, habs⟩ | ⟨kept, tail, hsegments, hkept, htail, rfl⟩
  · have hidle : ∀ s ∈ [([] : List Char)], Path.isIdle s = true := by decide
    have hstart : d.start p = d.here := by simp [start, Path.origin, habs]
    rw [hstart, ← List.nil_append p.segments] at hp
    obtain ⟨mid, hmid, hdirectory⟩ := hp.cut_of_isIdle p.segments_ne_nil hidle
    exact ⟨mid, follow_eq_ok_iff.2 hmid, hdirectory⟩
  · have hslash : ∀ s ∈ kept, '/' ∉ s := by
      intro s hs
      have hmem : s ∈ p.segments := hsegments ▸ List.mem_append_left tail hs
      exact Text.not_mem_of_mem_splitOn hmem
    obtain ⟨idle, habove, hidle⟩ := Path.exists_segments_ofSegments hkept hslash
    have habs : (Path.ofSegments kept).isAbsolute = p.isAbsolute := by
      rw [Bool.eq_iff_iff, Path.isAbsolute_ofSegments hkept hslash, Path.isAbsolute_iff, hsegments,
        List.head?_append_of_ne_nil _ hkept]
      simp [List.append_eq_singleton_iff, hkept, htail]
    rw [hsegments] at hp
    obtain ⟨mid, hmid, hdirectory⟩ := hp.cut_of_isIdle htail hidle
    refine ⟨mid, ?_, hdirectory⟩
    rwa [follow_eq_ok_iff, start_eq_of_isAbsolute habs, habove]

/-- All paths above one that leads to a directory lead to directories. -/
theorem hasDirectory_of_ancestor {above : Path} (h : p.Ancestor above)
    (hp : d.HasDirectory p place) : ∃ mid, d.HasDirectory above mid := by
  induction h with
  | refl => exact ⟨place, hp⟩
  | tail _ hparent ih =>
    obtain ⟨mid, hmid, -⟩ := ih
    exact hasDirectory_of_parent? hparent hmid

/-! ### Slashes at the end -/

/-- A path with nothing but slashes is kept, and any other one is cut in front of those at its
end. -/
theorem withoutEndSlashes_cases (p : Path) :
    withoutEndSlashes p = p ∨ ∃ slashes : List Char, (∀ c ∈ slashes, c = '/') ∧
      (withoutEndSlashes p).text ≠ "" ∧
      p.text.toList = (withoutEndSlashes p).text.toList ++ slashes := by
  unfold withoutEndSlashes
  cases hkept : p.text.toList.reverse.dropWhile (· == '/') with
  | nil => exact Or.inl rfl
  | cons c rest =>
    refine Or.inr ⟨(p.text.toList.reverse.takeWhile (· == '/')).reverse, ?_, by simp, ?_⟩
    · intro c hc
      simpa using List.mem_takeWhile_imp (List.mem_reverse.1 hc)
    · rw [String.toList_ofList, ← hkept, ← List.reverse_append, List.takeWhile_append_dropWhile,
        List.reverse_reverse]

theorem isIdle_of_mem_splitOn {slashes s : List Char} (h : ∀ c ∈ slashes, c = '/')
    (hs : s ∈ Text.splitOn '/' slashes) : Path.isIdle s = true := by
  -- all characters of the piece are slashes, and none is
  have hempty : s = [] := by
    refine List.eq_nil_iff_forall_not_mem.2 fun c hc => ?_
    obtain rfl := h c ((Text.infix_of_mem_splitOn hs).subset hc)
    exact Text.not_mem_of_mem_splitOn hs hc
  rw [hempty]
  rfl

/-- The slashes at the end of a path are segments that stand for no step. -/
theorem exists_segments_withoutEndSlashes (p : Path) :
    (withoutEndSlashes p).isAbsolute = p.isAbsolute ∧
      ∃ idle, p.segments = (withoutEndSlashes p).segments ++ idle ∧
        ∀ s ∈ idle, Path.isIdle s = true := by
  rcases withoutEndSlashes_cases p with hp | ⟨slashes, hslashes, hne, htext⟩
  · exact ⟨by rw [hp], [], by rw [hp, List.append_nil], by simp⟩
  · have hne' : (withoutEndSlashes p).text.toList ≠ [] := by simpa using hne
    constructor
    · rw [Path.isAbsolute, Path.isAbsolute, htext, List.head?_append_of_ne_nil _ hne']
    · cases slashes with
      | nil => exact ⟨[], by simp [Path.segments, htext], by simp⟩
      | cons c rest =>
        obtain rfl : c = '/' := hslashes c (List.mem_cons_self ..)
        refine ⟨Text.splitOn '/' rest, ?_, fun s hs => ?_⟩
        · rw [Path.segments, htext, Text.splitOn_append_sep]
          rfl
        · exact isIdle_of_mem_splitOn (fun c hc => hslashes c (List.mem_cons_of_mem _ hc)) hs

/-! ### Putting something at a place -/

/-- There is neither a directory nor a link at a place, so something else may be put there. -/
def IsFree (d : Disk) (place : Place) : Prop :=
  d.get? place ≠ some .directory ∧ ∀ target, d.get? place ≠ some (.link target)

theorem isFree_of_get? (h : d.get? place = none) : d.IsFree place := by
  simp [IsFree, h]

theorem IsFree.ne_top (h : d.IsFree place) : place ≠ [] := by
  rintro rfl
  exact h.1 rfl

/-- Nothing that paths are followed by is lost when something else is put at a free place. -/
theorem keeps_put {e : Entry} (h : d.IsFree place) (he : ∀ target, e ≠ .link target) :
    Keeps d (d.put place e) where
  here := rfl
  directories other hother := by
    have hno : ¬d.AreOne place other := fun hone => h.1 (hone.get?_eq ▸ hother)
    rw [get?_put d h.ne_top, if_neg hno, hother]
  links other target := by
    rw [get?_put d h.ne_top]
    split
    · next hone =>
      have hnot : d.get? other ≠ some (.link target) := hone.get?_eq ▸ h.2 target
      simp [he target, hnot]
    · rfl

/-! ### Making directories -/

/-- From one state to the other nothing but directories was made, and only where a path and those
above it lead. -/
structure Grows (p : Path) (d d' : Disk) : Prop where
  here : d'.here = d.here
  names : ∀ first other, d'.AreOne first other ↔ d.AreOne first other
  get? : ∀ place, d'.get? place = d.get? place ∨
    (d.get? place = none ∧ d'.get? place = some .directory ∧ d'.LeadsOver p place)

theorem Keeps.leadsOver (hkeeps : Keeps d d') (h : d.LeadsOver p place) :
    d'.LeadsOver p place := by
  obtain ⟨above, habove, hplace⟩ := h
  exact ⟨above, habove, hkeeps.follow_eq_ok hplace⟩

namespace Grows

variable {d'' : Disk}

theorem refl (p : Path) (d : Disk) : Grows p d d := ⟨rfl, fun _ _ => .rfl, fun _ => Or.inl rfl⟩

theorem keeps (h : Grows p d d') : Keeps d d' where
  here := h.here
  directories place hplace := by
    rcases h.get? place with hsame | ⟨hnone, -⟩
    · rw [hsame, hplace]
    · rw [hplace] at hnone
      cases hnone
  links place target := by
    rcases h.get? place with hsame | ⟨hnone, hmade, -⟩
    · rw [hsame]
    · simp [hnone, hmade]

theorem trans (h : Grows p d d') (h' : Grows p d' d'') : Grows p d d'' := by
  refine ⟨h'.here.trans h.here, fun first other => (h'.names first other).trans (h.names ..), ?_⟩
  intro place
  rcases h.get? place with hsame | ⟨hnone, hmade, hplace⟩
  · rcases h'.get? place with hsame' | ⟨hnone', hmade', hplace'⟩
    · exact Or.inl (hsame'.trans hsame)
    · exact Or.inr ⟨hsame.symm.trans hnone', hmade', hplace'⟩
  · exact Or.inr ⟨hnone, h'.keeps.directories place hmade, h'.keeps.leadsOver hplace⟩

theorem of_parent? {above : Path} (h : Grows above d d') (habove : p.parent? = some above) :
    Grows p d d' := by
  refine ⟨h.here, h.names, fun place => ?_⟩
  rcases h.get? place with hsame | ⟨hnone, hmade, q, hq, hplace⟩
  · exact Or.inl hsame
  · exact Or.inr ⟨hnone, hmade, q, .head habove hq, hplace⟩

end Grows

/-- A path names a place in the directory that its segments lead to without the last one. -/
theorem exists_leads_of_followToName (h : d.followToName p = .ok place) :
    ∃ front last above, p.segments = front ++ [last] ∧
      d.Leads linkLimit (d.start p) front above ∧ d.Enters above last ∧
      above.step last = place := by
  obtain ⟨front, last, hp⟩ : ∃ front last, p.segments = front ++ [last] :=
    ⟨_, _, (List.dropLast_append_getLast p.segments_ne_nil).symm⟩
  rw [followToName, hp, List.dropLast_concat, List.getLastD_concat] at h
  obtain ⟨above, habove, hlast⟩ := Outcome.bind_eq_ok_iff.1 h
  obtain ⟨henter, hplace⟩ := enter_eq_ok_iff.1 hlast
  exact ⟨front, last, above, hp, followWithin_eq_ok_iff.1 habove, henter, hplace⟩

/-- A path leads to the place that it names when a directory was made there. -/
theorem follow_put_directory (h : d.locateName p = .ok place) (hnone : d.get? place = none) :
    (d.put place .directory).follow p = .ok place := by
  have hfree := isFree_of_get? hnone
  have hkeeps : Keeps d (d.put place .directory) := keeps_put hfree (by simp)
  have hmade := get?_put_self d hfree.ne_top .directory
  obtain ⟨⟨⟩, -, hname⟩ := Outcome.bind_eq_ok_iff.1 h
  obtain ⟨front, last, above, hfront, habove, henter, rfl⟩ := exists_leads_of_followToName hname
  obtain ⟨habs, idle, hsegments, hidle⟩ := exists_segments_withoutEndSlashes p
  rw [start_eq_of_isAbsolute habs] at habove
  rw [follow_eq_ok_iff, hsegments, hfront]
  refine Leads.append ?_ (leads_of_isIdle hidle hmade)
  exact (habove.mono hkeeps).concat (hkeeps.enters henter) (by simp [hmade])

/-- A directory is made where there was nothing, or nothing is done. -/
theorem makeDirectory_cases (d : Disk) (p : Path) :
    (∃ fault, d.makeDirectory p = (d, .error fault)) ∨
      ∃ place, d.get? place = none ∧ d.makeDirectory p = (d.put place .directory, .ok ()) ∧
        (d.put place .directory).follow p = .ok place := by
  unfold makeDirectory
  split
  · next fault h => exact Or.inl ⟨fault, rfl⟩
  · next place h =>
    split
    · exact Or.inl ⟨_, rfl⟩
    · next hnone => exact Or.inr ⟨place, hnone, rfl, follow_put_directory h hnone⟩

theorem grows_makeDirectory (d : Disk) (p : Path) : Grows p d (d.makeDirectory p).1 := by
  rcases d.makeDirectory_cases p with ⟨fault, h⟩ | ⟨place, hnone, h, hleads⟩
  · rw [h]
    exact .refl p d
  · rw [h]
    have htop := (isFree_of_get? hnone).ne_top
    refine ⟨rfl, fun first other => areOne_put d htop first other _, fun other => ?_⟩
    rw [get?_put d htop]
    by_cases hother : d.AreOne place other
    · obtain rfl := (areOne_iff_of_get? hnone).1 hother
      exact Or.inr ⟨hnone, if_pos hother, p, .refl, hleads⟩
    · exact Or.inl (if_neg hother)

theorem ensureDirectory_fst (d : Disk) (p : Path) :
    (d.ensureDirectory p).1 = (d.makeDirectory p).1 := by
  unfold ensureDirectory
  split
  · next h => rw [h]
  · next h =>
    rw [h]
    split <;> rfl

/-- Making a directory and those above it makes nothing else. -/
theorem grows_makeDirectoriesWithin (steps : Nat) (d : Disk) (p : Path) :
    Grows p d (makeDirectoriesWithin steps d p).1 := by
  induction steps generalizing d p with
  | zero => exact .refl p d
  | succ steps ih =>
    have hself := grows_makeDirectory d p
    rw [makeDirectoriesWithin]
    split
    · next d₁ hmade =>
      rw [hmade] at hself
      split
      · exact hself
      · next above habove =>
        have hrest := (ih d₁ above).of_parent? habove
        split
        · next d₂ h =>
          rw [h] at hrest
          rw [ensureDirectory_fst]
          exact (hself.trans hrest).trans (grows_makeDirectory d₂ p)
        · next d₂ fault h =>
          rw [h] at hrest
          exact hself.trans hrest
    · next d₁ fault _ hmade =>
      rw [hmade] at hself
      split <;> exact hself
    · next d₁ hmade =>
      rw [hmade] at hself
      exact hself

/-! ### Writing files -/

/-- A file is written at the place that its path leads to, where there must be no directory. -/
theorem writeBytes_eq_ok {content : ByteArray} (h : d.writeBytes p content = (d', .ok ())) :
    checkPath p = .ok () ∧ ∃ place, d.follow p = .ok place ∧ d.IsFree place ∧
      d' = d.put place (.file content) := by
  unfold writeBytes at h
  split at h
  · cases h
  · next place hplace =>
    split at h
    · cases h
    · next hallowed =>
      unfold locateFile at hplace
      split at hplace
      · obtain ⟨-, -, hslash⟩ := Outcome.bind_eq_ok_iff.1 hplace
        cases hslash
      · obtain ⟨⟨⟩, hcheck, hfollow⟩ := Outcome.bind_eq_ok_iff.1 hplace
        refine ⟨hcheck, place, hfollow, ⟨fun hdirectory => ?_, ?_⟩, (congrArg Prod.fst h).symm⟩
        · exact hallowed (by rw [hdirectory]; rfl)
        · exact (follow_eq_ok_iff.1 hfollow).ne_link p.segments_ne_nil

/-- A text was stored under a name in a directory: what has become of the disk, and of the file at
some place. -/
structure Stored (d : Disk) (directory : Path) (name text : String) (file : Place) (d' : Disk) :
    Prop where
  keeps : Keeps d d'
  names : ∀ first other, d'.AreOne first other ↔ d.AreOne first other
  leads : d'.follow (directory.join ⟨name⟩) = .ok file
  text : d'.readText (directory.join ⟨name⟩) = .ok text
  /-- The file lies right in the directory, unless there was a link. -/
  inside : ∃ place, d'.HasDirectory directory place ∧
    ((∀ target, d.get? (place ++ [name]) ≠ some (.link target)) → file = place ++ [name])
  directories : ∀ above, directory.Ancestor above → ∃ place, d'.HasDirectory above place
  /-- Elsewhere nothing has changed, but that the directory and those above it were made where they
  were missing. -/
  others : ∀ place, ¬d.AreOne file place → d'.get? place = d.get? place ∨
    (d.get? place = none ∧ d'.get? place = some .directory ∧ d'.LeadsOver directory place)

/-- A text is stored by making the directory and writing the file. -/
theorem stored_of_writeText {made : Disk} {directory : Path} {name text : String}
    (hname : Path.IsName name) (hmade : d.makeDirectories directory = (made, .ok ()))
    (hwritten : made.writeText (directory.join ⟨name⟩) text = (d', .ok ())) :
    ∃ file, Stored d directory name text file d' := by
  obtain ⟨hcheck, file, hfollow, hfree, rfl⟩ := writeBytes_eq_ok hwritten
  have hgrows := grows_makeDirectoriesWithin directory.components.length d directory
  rw [← makeDirectories, hmade] at hgrows
  have hput : Keeps made (made.put file (.file text.toUTF8)) := keeps_put hfree (by simp)
  have hleads := hput.follow_eq_ok hfollow
  obtain ⟨place, hdirectory, hinside⟩ := hasDirectory_of_join_name directory hname hleads
  refine ⟨file, ?_⟩
  exact
    { keeps := hgrows.keeps.trans hput
      names := fun first other => (areOne_put made hfree.ne_top ..).trans (hgrows.names first other)
      leads := hleads
      text := by
        refine readText_eq_ok_iff.2 (find_eq_ok_iff.2 ⟨hcheck, file, hleads, ?_⟩)
        exact get?_put_self made hfree.ne_top _
      inside := by
        refine ⟨place, hdirectory, fun hno => hinside fun target => ?_⟩
        rw [ne_eq, hput.links, hgrows.keeps.links]
        exact hno target
      directories := fun above habove => hasDirectory_of_ancestor habove hdirectory
      others := by
        intro other hother
        rw [← hgrows.names] at hother
        rw [get?_put made hfree.ne_top, if_neg hother]
        rcases hgrows.get? other with hsame | ⟨hnone, hnew, hover⟩
        · exact Or.inl hsame
        · exact Or.inr ⟨hnone, hnew, hput.leadsOver hover⟩ }

/-- Without links, the text of the path alone tells where the file is. -/
theorem Stored.file_eq_walk {directory : Path} {name text : String} {file : Place}
    (h : Stored d directory name text file d') (hl : d.LinkFree) :
    file = (directory.join ⟨name⟩).walk d.here := by
  have hl' : d'.LinkFree := fun place target => (h.keeps.links place target).not.2 (hl place target)
  rw [← h.keeps.here]
  exact ((follow_eq_ok_iff_isWay hl').1 h.leads).2.symm

end Disk

end Playbook
