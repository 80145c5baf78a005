import Playbook.Proofs.Disk.Lookup
import Playbook.Proofs.Expansion.Agreement

/-!
# Trees of files, on a disk and on a shelf

The files below the working directory of a disk can also be put on a shelf, each under its path from
there.  A command file then expands alike from the disk and from the shelf, as long as no reference
leaves the working directory: the same command, or the same error.

The disk looks a path up directory by directory, the shelf compares whole normalized paths.  A
normalized path that does not leave the working directory is a list of names, and in a tree
(`IsTree`) an entry at such a list of names has nothing but directories above it.  So both find the
same files; a directory is no file for either of them.
-/

namespace Playbook

/-! ### Paths along names -/

/-- The relative path that leads down along the names of a place. -/
def Place.path (place : Place) : Path :=
  ⟨String.ofList (Text.joinWith ['/'] (place.map String.toList))⟩

namespace Place

variable {place : Place}

theorem text_eq_toList : Path.Component.text ∘ Path.Component.name = String.toList := rfl

theorem isPlain_of_isName (h : ∀ s ∈ place, Path.IsName s) :
    ∀ step ∈ place.map Path.Component.name, step.IsPlain :=
  List.forall_mem_map.2 fun s hs => .name (h s hs)

theorem components_path (h : ∀ s ∈ place, Path.IsName s) :
    place.path.components = place.map .name := by
  have hcomponents := Path.components_relative (isPlain_of_isName h)
  rwa [List.map_map, text_eq_toList] at hcomponents

theorem segments_path (hne : place ≠ []) (h : ∀ s ∈ place, Path.IsName s) :
    place.path.segments = place.map String.toList := by
  have hsegments := Path.segments_join (by simpa using hne) (isPlain_of_isName h)
  rw [List.map_map, text_eq_toList] at hsegments
  rw [Path.segments, path, String.toList_ofList, hsegments]

theorem isAbsolute_path (h : ∀ s ∈ place, Path.IsName s) : place.path.isAbsolute = false := by
  have hhead := Path.head?_join (isPlain_of_isName h)
  rw [List.map_map, text_eq_toList] at hhead
  simpa [Path.isAbsolute, path] using hhead

/-- Names lead down from a place, one after the other. -/
theorem foldl_step_names (h : ∀ s ∈ place, Path.IsName s) (start : Place) :
    (place.map String.toList).foldl Place.step start = start ++ place := by
  have hsteps := Path.filterMap_ofSegment?_text (isPlain_of_isName h)
  rw [List.map_map, text_eq_toList] at hsteps
  rw [Place.foldl_step, hsteps, Path.foldl_along_names]

theorem walk_path (h : ∀ s ∈ place, Path.IsName s) (start : Place) :
    place.path.walk start = start ++ place := by
  rw [Path.walk, components_path h, Path.foldl_along_names]

theorem isNormal_names (h : ∀ s ∈ place, Path.IsName s) :
    Path.IsNormal (place.map Path.Component.name).reverse := by
  induction place using List.reverseRecOn with
  | nil => exact .above 0
  | append_singleton names s ih =>
    rw [List.forall_mem_append, List.forall_mem_singleton] at h
    rw [List.map_append, List.map_singleton, List.reverse_append]
    exact .down (ih h.1) h.2

/-- The names are read off the path. -/
theorem path_inj {other : Place} (h : ∀ s ∈ place, Path.IsName s)
    (hother : ∀ s ∈ other, Path.IsName s)
    (hpath : place.path.components = other.path.components) : place = other := by
  rw [components_path h, components_path hother] at hpath
  exact List.map_injective_iff.2 (fun _ _ => Path.Component.name.inj) hpath

end Place

namespace Path

/-- A path that stays below the directory it starts from, as far as its text tells. -/
def IsBelow (p : Path) : Prop := p.isAbsolute = false ∧ p.components.head? ≠ some .up

theorem ofComponents_names (names : List String) :
    ofComponents (names.map .name) = Place.path names := by
  rw [ofComponents]
  · rw [List.map_map, Place.text_eq_toList]
    rfl
  · intro rest h
    cases names <;> cases h

theorem isAbsolute_of_components {p : Path} {rest : List Component}
    (h : p.components = .root :: rest) : p.isAbsolute = true := by
  unfold components at h
  split at h
  · assumption
  · split at h
    · cases h
    · have hroot : IsInner .root := isInner_of_mem_segments (h ▸ List.mem_cons_self)
      cases hroot

/-- A normalized path that stays below is a list of names. -/
theorem IsBelow.exists_names {p : Path} (h : p.IsBelow) (hnorm : p.normalize = p) :
    ∃ place : Place, (∀ s ∈ place, IsName s) ∧ p = place.path := by
  obtain ⟨names, hnames, he⟩ := (isNormal_foldl_components p).exists_names
  have hwritten : ofComponents (p.components.foldl follow []).reverse = p := hnorm
  rw [← components_normalize, hnorm] at he hwritten
  refine ⟨names, hnames, ?_⟩
  rcases he with he | ⟨ups, he⟩
  · exact absurd (isAbsolute_of_components he) (by simp [h.1])
  · cases ups with
    | zero =>
      rw [← hwritten, he]
      exact ofComponents_names names
    | succ ups =>
      refine absurd ?_ h.2
      rw [he]
      rfl

end Path

theorem Place.normalize_path {place : Place} (h : ∀ s ∈ place, Path.IsName s) :
    place.path.normalize = place.path := by
  have hfollow := (Place.isNormal_names h).foldl_follow
  rw [List.reverse_reverse] at hfollow
  rw [Path.normalize, Place.components_path h, hfollow, List.reverse_reverse,
    Path.ofComponents_names]

namespace Disk

/-! ### What a tree holds -/

/-- A name that an entry of a directory can have. -/
def IsEntryName (s : String) : Prop :=
  Path.IsName s ∧ s.utf8ByteSize ≤ nameLimit ∧ '\x00' ∉ s.toList

instance : DecidablePred IsEntryName := fun _ =>
  inferInstanceAs (Decidable ((_ ∧ _ ∧ _ ∧ _) ∧ _ ∧ _))

/-- What lies below the working directory of a disk without links is a tree: every entry has a name
and stands in a directory. -/
structure IsTree (d : Disk) : Prop where
  linkFree : d.LinkFree
  root : d.get? d.here = some .directory
  named : ∀ place e, d.get? (d.here ++ place) = some e → ∀ s ∈ place, IsEntryName s
  inside : ∀ place s e, d.get? (d.here ++ place ++ [s]) = some e →
    d.get? (d.here ++ place) = some .directory

variable {d : Disk}

/-- A tree can be told by looking at its entries one by one. -/
theorem isTree_of_forall_places (hl : d.LinkFree) (hroot : d.get? d.here = some .directory)
    (h : ∀ found ∈ d.places, ∀ place, d.here ++ place = found → place ≠ [] →
      (∀ s ∈ place, IsEntryName s) ∧ d.get? (d.here ++ place.dropLast) = some .directory) :
    d.IsTree where
  linkFree := hl
  root := hroot
  named := by
    intro place e hget
    cases place with
    | nil => simp
    | cons s rest => exact (h _ (mem_places_of_get? (by simp) hget) _ rfl (by simp)).1
  inside := by
    intro place s e hget
    rw [List.append_assoc] at hget
    have hentry := h _ (mem_places_of_get? (by simp) hget) _ rfl (by simp)
    rw [List.dropLast_concat] at hentry
    exact hentry.2

theorem IsTree.isName (ht : d.IsTree) {place : Place} {e : Entry}
    (h : d.get? (d.here ++ place) = some e) : ∀ s ∈ place, Path.IsName s :=
  fun s hs => (ht.named place e h s hs).1

/-- The names of an entry are a way. -/
theorem IsTree.isWay (ht : d.IsTree) {place : Place} {e : Entry}
    (h : d.get? (d.here ++ place) = some e) : d.IsWay d.here (place.map String.toList) := by
  induction place using List.reverseRecOn generalizing e with
  | nil => trivial
  | append_singleton names s ih =>
    have hnamed := ht.named _ _ h
    rw [← List.append_assoc] at h
    have hinside := ht.inside names s e h
    have hnames : ∀ t ∈ names, Path.IsName t := ht.isName hinside
    rw [List.map_append, List.map_singleton, isWay_concat, Place.foldl_step_names hnames, Enters,
      String.ofList_toList]
    exact ⟨ih hinside, hinside, (hnamed s (by simp)).2.1⟩

/-- In a tree a path along names leads to the file at that place and to no other one, if it is not
too long. -/
theorem IsTree.find_path_iff (ht : d.IsTree) {place : Place} (hnames : ∀ s ∈ place, Path.IsName s)
    (hsize : ∀ content, d.get? (d.here ++ place) = some (.file content) →
      place.path.text.utf8ByteSize ≤ pathLimit) {content : ByteArray} :
    d.find place.path = .ok (.file content) ↔
      d.get? (d.here ++ place) = some (.file content) := by
  rw [find_eq_ok_iff_isWay ht.linkFree, Place.walk_path hnames]
  refine ⟨fun h => h.2.2, fun h => ?_⟩
  have hne : place ≠ [] := by
    rintro rfl
    rw [List.append_nil, ht.root] at h
    cases h
  refine ⟨checkPath_eq_ok_iff.2 ⟨?_, ?_, hsize content h⟩, ?_, h⟩
  · rw [Place.path, String.toList_ofList]
    refine Text.not_mem_joinWith (by decide) (List.forall_mem_map.2 fun s hs => ?_)
    exact (ht.named _ _ h s hs).2.2
  · intro hempty
    have hcomponents := Place.components_path hnames
    have hpath : place.path = ⟨""⟩ := congrArg Path.mk hempty
    rw [hpath] at hcomponents
    exact hne (List.map_eq_nil_iff.1 hcomponents.symm)
  · have hstart : d.start place.path = d.here := by
      simp [start, Path.origin, Place.isAbsolute_path hnames]
    rw [hstart, Place.segments_path hne hnames]
    exact ht.isWay h

end Disk

/-! ### Filling a shelf -/

namespace Shelf

/-- Puts files on a shelf, one after the other. -/
def insertAll (shelf : Shelf) (files : List (Path × String)) : Shelf :=
  files.foldl (fun shelf file => shelf.insert file.1 file.2) shelf

variable {shelf : Shelf} {files : List (Path × String)} {path : Path}

theorem get?_insertAll_of_ne (h : ∀ file ∈ files, path.normalize ≠ file.1.normalize) :
    (shelf.insertAll files).get? path = shelf.get? path := by
  induction files generalizing shelf with
  | nil => rfl
  | cons file rest ih =>
    rw [List.forall_mem_cons] at h
    show ((shelf.insert file.1 file.2).insertAll rest).get? path = _
    rw [ih h.2, get?_insert, if_neg h.1]

/-- A text is found under a path if it is put there, and nothing else is. -/
theorem get?_insertAll_of_mem {source : String}
    (hmem : ∃ file ∈ files, path.normalize = file.1.normalize)
    (hsame : ∀ file ∈ files, path.normalize = file.1.normalize → file.2 = source) :
    (shelf.insertAll files).get? path = some source := by
  induction files generalizing shelf with
  | nil =>
    obtain ⟨file, hfile, -⟩ := hmem
    cases hfile
  | cons file rest ih =>
    rw [List.forall_mem_cons] at hsame
    show ((shelf.insert file.1 file.2).insertAll rest).get? path = _
    by_cases hrest : ∃ file ∈ rest, path.normalize = file.1.normalize
    · exact ih hrest hsame.2
    · -- nothing is put under the path after the first file
      have hne : ∀ file ∈ rest, path.normalize ≠ file.1.normalize :=
        fun file hfile he => hrest ⟨file, hfile, he⟩
      have hfirst : path.normalize = file.1.normalize := by
        obtain ⟨found, hfound, he⟩ := hmem
        rcases List.mem_cons.1 hfound with rfl | hfound
        · exact he
        · exact absurd he (hne found hfound)
      rw [get?_insertAll_of_ne hne, get?_insert, if_pos hfirst, hsame.1 hfirst]

end Shelf

namespace Disk

variable {d : Disk} {files : List (Path × String)} {failing : List (Path × DiskFault)}

/-- The files below the working directory, under their paths from there and in any order: those that
hold texts, and those that do not and fail to be read. -/
structure IsInventory (d : Disk) (files : List (Path × String))
    (failing : List (Path × DiskFault)) : Prop where
  texts : ∀ p text, (p, text) ∈ files ↔
    ∃ place : Place, p = place.path ∧ d.get? (d.here ++ place) = some (.file text.toUTF8)
  others : ∀ p fault, (p, fault) ∈ failing ↔
    fault = .notText ∧ ∃ (place : Place) (content : ByteArray), p = place.path ∧
      d.get? (d.here ++ place) = some (.file content) ∧ String.fromUTF8? content = none

/-- The files below the working directory, by their names from there. -/
def filesBelow (d : Disk) : List (Place × ByteArray) :=
  d.places.filterMap fun place =>
    match d.get? place with
    | some (.file content) =>
      if d.here <+: place then some (place.drop d.here.length, content) else none
    | _ => none

/-- Those of the files that hold texts. -/
def texts (d : Disk) : List (Path × String) :=
  d.filesBelow.filterMap fun file => (String.fromUTF8? file.2).map (file.1.path, ·)

/-- Those of the files that hold no texts. -/
def unreadable (d : Disk) : List (Path × DiskFault) :=
  (d.filesBelow.filter fun file => (String.fromUTF8? file.2).isNone).map fun file =>
    (file.1.path, .notText)

theorem mem_filesBelow {place : Place} {content : ByteArray} :
    (place, content) ∈ d.filesBelow ↔ d.get? (d.here ++ place) = some (.file content) := by
  rw [filesBelow, List.mem_filterMap]
  constructor
  · rintro ⟨found, -, h⟩
    split at h
    · next bytes hget =>
      split at h
      · next hbelow =>
        obtain ⟨rest, hrest⟩ := hbelow
        rw [← hrest, List.drop_left] at h
        cases h
        rw [hrest, hget]
      · cases h
    · cases h
  · intro h
    have hne : d.here ++ place ≠ [] := by
      intro hnil
      rw [hnil] at h
      cases h
    exact ⟨_, mem_places_of_get? hne h, by simp [h]⟩

/-- Every disk has an inventory. -/
theorem isInventory_texts (d : Disk) : d.IsInventory d.texts d.unreadable where
  texts := by
    intro p text
    rw [texts, List.mem_filterMap]
    constructor
    · rintro ⟨⟨place, content⟩, hfile, h⟩
      obtain ⟨found, hfound, h⟩ := Option.map_eq_some_iff.1 h
      cases h
      exact ⟨place, rfl, fromUTF8?_eq_some_iff.1 hfound ▸ mem_filesBelow.1 hfile⟩
    · rintro ⟨place, rfl, h⟩
      exact ⟨_, mem_filesBelow.2 h, by rw [fromUTF8?_eq_some_iff.2 rfl, Option.map_some]⟩
  others := by
    intro p fault
    rw [unreadable, List.mem_map]
    constructor
    · rintro ⟨⟨place, content⟩, hfile, h⟩
      obtain ⟨hfile, hnone⟩ := List.mem_filter.1 hfile
      cases h
      exact ⟨rfl, place, content, rfl, mem_filesBelow.1 hfile, Option.isNone_iff_eq_none.1 hnone⟩
    · rintro ⟨rfl, place, content, rfl, h, hnone⟩
      exact ⟨_, List.mem_filter.2 ⟨mem_filesBelow.2 h, by simp [hnone]⟩, rfl⟩

/-- What is fetched where a file stands, or nothing does. -/
def fetchedAt (d : Disk) (place : Place) : Fetched :=
  match d.get? place with
  | some (.file content) => fetchedAs content
  | _ => .missing

namespace IsInventory

variable {place : Place}

/-- What is listed as a text under the path of a place is the text of the file there. -/
theorem get?_of_mem_files (hlist : d.IsInventory files failing) (ht : d.IsTree)
    (hnames : ∀ s ∈ place, Path.IsName s) {file : Path × String} (hfile : file ∈ files)
    (hpath : place.path.normalize = file.1.normalize) :
    d.get? (d.here ++ place) = some (.file file.2.toUTF8) := by
  obtain ⟨other, hother, hget⟩ := (hlist.texts file.1 file.2).1 hfile
  have hnames' := ht.isName hget
  rw [hother, Place.normalize_path hnames, Place.normalize_path hnames'] at hpath
  obtain rfl := Place.path_inj hnames hnames' (congrArg Path.components hpath)
  exact hget

/-- What is listed as failing under the path of a place is a file that holds no text. -/
theorem get?_of_mem_failing (hlist : d.IsInventory files failing) (ht : d.IsTree)
    (hnames : ∀ s ∈ place, Path.IsName s) {entry : Path × DiskFault} (hentry : entry ∈ failing)
    (hpath : entry.1.components = place.path.components) :
    entry.2 = .notText ∧ ∃ content, d.get? (d.here ++ place) = some (.file content) ∧
      String.fromUTF8? content = none := by
  obtain ⟨hfault, other, content, hother, hget, hnone⟩ := (hlist.others entry.1 entry.2).1 hentry
  rw [hother] at hpath
  obtain rfl := Place.path_inj (ht.isName hget) hnames hpath
  exact ⟨hfault, content, hget, hnone⟩

/-- What is fetched from the shelf with all texts of a tree, under a path along names. -/
theorem fetch_shelf (hlist : d.IsInventory files failing) (ht : d.IsTree)
    (hnames : ∀ s ∈ place, Path.IsName s) :
    ((Shelf.empty.insertAll files).library failing).fetch place.path =
      d.fetchedAt (d.here ++ place) := by
  simp only [Shelf.library, fetchedAt]
  generalize hfind : failing.find? _ = found
  cases found with
  | some entry =>
    -- a file without a text
    have hpath : entry.1.components = place.path.components := by
      simpa using List.find?_some hfind
    obtain ⟨hfault, content, hget, hnone⟩ :=
      hlist.get?_of_mem_failing ht hnames (List.mem_of_find?_eq_some hfind) hpath
    rw [hget]
    show Fetched.failed entry.2 = fetchedAs content
    rw [hfault, fetchedAs, hnone]
  | none =>
    have hnone : ∀ content, d.get? (d.here ++ place) = some (.file content) →
        String.fromUTF8? content ≠ none := by
      intro content hget hinvalid
      have hmem : (place.path, DiskFault.notText) ∈ failing :=
        (hlist.others _ _).2 ⟨rfl, place, content, rfl, hget, hinvalid⟩
      simpa using List.find?_eq_none.1 hfind _ hmem
    by_cases hfile : ∃ content, d.get? (d.here ++ place) = some (.file content)
    · obtain ⟨content, hget⟩ := hfile
      obtain ⟨text, htext⟩ := Option.ne_none_iff_exists'.1 (hnone content hget)
      obtain rfl := fromUTF8?_eq_some_iff.1 htext
      have hshelf : (Shelf.empty.insertAll files).get? place.path = some text := by
        refine Shelf.get?_insertAll_of_mem
          ⟨_, (hlist.texts _ _).2 ⟨place, rfl, hget⟩, rfl⟩ fun file hmem hpath => ?_
        have hsame := (hlist.get?_of_mem_files ht hnames hmem hpath).symm.trans hget
        have hbytes : file.2.toUTF8 = text.toUTF8 := Entry.file.inj (Option.some.inj hsame)
        rw [← hbytes] at htext
        exact Option.some.inj ((fromUTF8?_eq_some_iff.2 rfl).symm.trans htext)
      simp only [hshelf, hget, fetchedAs, htext]
    · have hshelf : (Shelf.empty.insertAll files).get? place.path = none := by
        refine (Shelf.get?_insertAll_of_ne fun file hmem hpath => hfile ?_).trans
          (Shelf.get?_empty _)
        exact ⟨_, hlist.get?_of_mem_files ht hnames hmem hpath⟩
      simp only [hshelf]
      split
      · next content hget => exact absurd ⟨content, hget⟩ hfile
      · rfl

end IsInventory

/-- What is fetched from a tree, under a path along names. -/
theorem IsTree.fetch_path (ht : d.IsTree) {place : Place} (hnames : ∀ s ∈ place, Path.IsName s)
    (hsize : ∀ content, d.get? (d.here ++ place) = some (.file content) →
      place.path.text.utf8ByteSize ≤ pathLimit) :
    d.fetch place.path = d.fetchedAt (d.here ++ place) := by
  unfold fetchedAt
  split
  · next content hget => exact fetch_of_find ((ht.find_path_iff hnames hsize).2 hget)
  · next hno =>
    refine fetch_eq_missing fun content hfind => ?_
    exact hno content ((ht.find_path_iff hnames hsize).1 hfind)

end Disk

theorem Library.normalize_of_reaches {lib : Library} {path q : Path}
    (h : lib.Reaches path.normalize q) : q.normalize = q := by
  cases h with
  | refl => exact Path.normalize_normalize path
  | tail _ hlast =>
    obtain ⟨c, file, -, -, rfl⟩ := hlast
    exact Library.normalize_target _ _

/-- A command file expands alike from a disk and from a shelf that holds the texts of the files
below the working directory, where the files that hold no text fail to be read: if nothing outside
the working directory is reached, and no file whose path is too long to be followed. -/
theorem Disk.expandFile_eq_shelf {d : Disk} (ht : d.IsTree) {files : List (Path × String)}
    {failing : List (Path × DiskFault)} (hlist : d.IsInventory files failing) {path : Path}
    (hbelow : ∀ q, d.library.Reaches path.normalize q → q.IsBelow)
    (hsize : ∀ q, d.library.Reaches path.normalize q →
      ∀ content, d.get? (q.walk d.here) = some (.file content) →
        q.text.utf8ByteSize ≤ pathLimit) :
    d.library.expandFile path =
      ((Shelf.empty.insertAll files).library failing).expandFile path := by
  refine Library.AgreeFrom.expandFile_eq d.bounded_library (Shelf.bounded_library _ _) ?_
  intro q hq
  obtain ⟨place, hnames, rfl⟩ := (hbelow q hq).exists_names (Library.normalize_of_reaches hq)
  have hshort := hsize _ hq
  rw [Place.walk_path hnames] at hshort
  rw [hlist.fetch_shelf ht hnames]
  exact ht.fetch_path hnames hshort

/-! ### A tree with all kinds of entries -/

namespace Disk

/-- A tree with two directories, files that refer to each other, and a file that holds no text. -/
def mixedTree : Disk where
  entries :=
    [([["w"]], .directory), ([["w", "x"]], .directory),
      ([["w", "x", "a"]], .file "command a \x7b\ntask(\"b\")\ntask(\"../x/./b\")\n\x7d".toUTF8),
      ([["w", "x", "b"]], .file "command b \x7b\nbreak\n\x7d".toUTF8),
      ([["w", "c"]], .file "command c \x7b\ntask(\"x/../d\")\n\x7d".toUTF8),
      ([["w", "d"]], .file ⟨#[0xff]⟩)]
  here := ["w"]

theorem isTree_mixedTree : mixedTree.IsTree := by
  refine isTree_of_forall_places (linkFree_of_all rfl) rfl ?_
  simp only [mixedTree, places, List.flatMap_cons, List.flatMap_nil, List.append_nil,
    List.forall_mem_cons, List.cons_append, List.nil_append, List.cons.injEq, true_and]
  refine ⟨?_, ?_, ?_, ?_, ?_, ?_, List.forall_mem_nil _⟩ <;> rintro place rfl hne
  · exact absurd rfl hne
  all_goals exact ⟨by decide +kernel, rfl⟩

/-- Within a closed set of paths nothing else is reached. -/
theorem mem_of_reaches {lib : Library} {paths : List Path}
    (hclosed : ∀ a ∈ paths, ∀ b ∈ lib.successors a, b ∈ paths) {path q : Path}
    (hpath : path ∈ paths) (h : lib.Reaches path q) : q ∈ paths := by
  induction h with
  | refl => exact hpath
  | tail _ hlast ih => exact hclosed _ ih _ (Library.refers_iff_mem_successors.1 hlast)

/-- One file of the tree expands to the same command from the disk and from the shelf.  Another one
refers to the file without a text, and from both this is reported in the same way. -/
theorem expandFile_eq_shelf_mixedTree :
    mixedTree.IsTree ∧ mixedTree.IsInventory mixedTree.texts mixedTree.unreadable ∧
      (∃ result, mixedTree.library.expandFile ⟨"./x//a"⟩ = .ok result ∧
        ((Shelf.empty.insertAll mixedTree.texts).library mixedTree.unreadable).expandFile
          ⟨"./x//a"⟩ = .ok result) ∧
      mixedTree.library.expandFile ⟨"c"⟩ = .error (.unreadable ⟨"d"⟩ .notText) ∧
      ((Shelf.empty.insertAll mixedTree.texts).library mixedTree.unreadable).expandFile ⟨"c"⟩ =
        .error (.unreadable ⟨"d"⟩ .notText) := by
  have ht := isTree_mixedTree
  have hlist := mixedTree.isInventory_texts
  let paths : List Path := [⟨"x/a"⟩, ⟨"x/b"⟩, ⟨"c"⟩, ⟨"d"⟩]
  have hclosed : ∀ a ∈ paths, ∀ b ∈ mixedTree.library.successors a, b ∈ paths := by
    decide +kernel
  have hbelow : ∀ q ∈ paths, q.isAbsolute = false ∧ q.components.head? ≠ some .up := by
    decide +kernel
  have hsize : ∀ q ∈ paths, q.text.utf8ByteSize ≤ pathLimit := by decide +kernel
  have hsame : ∀ path : Path, path.normalize ∈ paths → mixedTree.library.expandFile path =
      ((Shelf.empty.insertAll mixedTree.texts).library mixedTree.unreadable).expandFile path :=
    fun path hpath => expandFile_eq_shelf ht hlist
      (fun q hq => hbelow q (mem_of_reaches hclosed hpath hq))
      fun q hq _ _ => hsize q (mem_of_reaches hclosed hpath hq)
  obtain ⟨result, hresult⟩ : ∃ result, mixedTree.library.expandFile ⟨"./x//a"⟩ = .ok result :=
    Outcome.exists_ok_of_isOk (by decide +kernel)
  have herror : mixedTree.library.expandFile ⟨"c"⟩ = .error (.unreadable ⟨"d"⟩ .notText) :=
    Outcome.map_eq_error_iff (f := fun _ => ()).1 (by decide +kernel)
  refine ⟨ht, hlist, ⟨result, hresult, ?_⟩, herror, ?_⟩
  · rw [← hsame _ (by decide +kernel), hresult]
  · rw [← hsame _ (by decide +kernel), herror]

end Disk

end Playbook
