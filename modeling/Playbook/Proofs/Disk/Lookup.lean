import Playbook.Disk
import Playbook.Proofs.Outcome
import Playbook.Proofs.Path.NormalForm

/-!
# Looking things up on a disk

A path is followed segment by segment, each of them from a directory, and where a link is met, the
path that it stands for is followed before the rest.  `Leads` says this as a relation, and what
holds of every path that is followed is shown along it: it may be cut or go on in a directory, and
it still leads to the same place as long as directories and links stay what they are.

On a disk without links the place is told by the text of the path alone (`Path.walk`), and `IsWay`
says that the segments can be followed.  Everything that is read from a disk depends on what `find`
gives, and that is the entry at the place that a well-formed path leads to.
-/

namespace Playbook

/-- The bytes that spell a text are those that it is written as. -/
theorem fromUTF8?_eq_some_iff {content : ByteArray} {text : String} :
    String.fromUTF8? content = some text ↔ content = text.toUTF8 := by
  rw [String.fromUTF8?]
  split
  · next hvalid =>
    constructor
    · intro h
      rw [← Option.some.inj h]
      rfl
    · rintro rfl
      rfl
  · next hinvalid =>
    constructor
    · intro h
      cases h
    · rintro rfl
      exact absurd text.isValidUTF8 hinvalid

/-! ### Where a path leads -/

/-- The place that one step leads to. -/
def Place.along (place : Place) : Path.Component → Place
  | .root => []
  | .here => place
  | .up => place.dropLast
  | .name s => place ++ [s]

/-- The place that a path leads to from another one, whatever is there. -/
def Path.walk (p : Path) (place : Place) : Place := p.components.foldl Place.along place

theorem Place.step_eq (place : Place) (segment : List Char) :
    place.step segment = ((Path.Component.ofSegment? segment).map place.along).getD place := by
  unfold Place.step
  split
  · rfl
  · rfl
  · rfl
  · next h₀ h₁ h₂ =>
    rw [Path.Component.ofSegment?]
    · rfl
    · exact h₀
    · exact h₁
    · exact h₂

theorem Place.foldl_step (place : Place) (segments : List (List Char)) :
    segments.foldl Place.step place =
      (segments.filterMap Path.Component.ofSegment?).foldl Place.along place := by
  induction segments generalizing place with
  | nil => rfl
  | cons segment rest ih =>
    rw [List.foldl_cons, ih, Place.step_eq]
    cases h : Path.Component.ofSegment? segment with
    | none => rw [List.filterMap_cons_none h]; rfl
    | some step => rw [List.filterMap_cons_some h]; rfl

theorem Path.walk_eq_foldl_step (p : Path) (place : Place) :
    p.walk place = p.segments.foldl Place.step (if p.isAbsolute then [] else place) := by
  rw [Place.foldl_step, walk, components]
  split
  · rfl
  · split <;> rfl

/-- Names lead down, one after the other. -/
theorem Path.foldl_along_names (names : List String) (place : Place) :
    (names.map Path.Component.name).foldl Place.along place = place ++ names := by
  induction names generalizing place with
  | nil => simp
  | cons s rest ih => simp [Place.along, ih]

/-! ### Following paths -/

namespace Disk

variable {d d' : Disk} {p : Path} {links : Nat} {place mid last : Place}
variable {segment : List Char} {segments front back rest : List (List Char)}

/-- Paths that are both absolute or both relative are followed from the same place. -/
theorem start_eq_of_isAbsolute {q : Path} (h : q.isAbsolute = p.isAbsolute) :
    d.start q = d.start p := by
  simp [start, Path.origin, h]

/-- A segment can be followed from a place: it is a directory, and the segment is no longer than a
name may be. -/
def Enters (d : Disk) (place : Place) (segment : List Char) : Prop :=
  d.get? place = some .directory ∧ (String.ofList segment).utf8ByteSize ≤ nameLimit

theorem enter_eq_ok_iff {next : Place} :
    d.enter place segment = .ok next ↔ d.Enters place segment ∧ place.step segment = next := by
  unfold enter Enters
  cases hget : d.get? place with
  | none => simp
  | some e =>
    cases e with
    | file content => simp
    | link target => simp
    | directory =>
      by_cases hlong : nameLimit < (String.ofList segment).utf8ByteSize
      · simp [hlong, Nat.not_le_of_lt hlong]
      · simp [hlong, Nat.le_of_not_lt hlong]

/-- Segments lead from one place to another one, over no more than the given number of links. -/
inductive Leads (d : Disk) : Nat → Place → List (List Char) → Place → Prop
  | stop {links : Nat} {place : Place} : Leads d links place [] place
  | step {links : Nat} {place last : Place} {segment : List Char} {rest : List (List Char)}
      (henter : d.Enters place segment)
      (hno : ∀ target, d.get? (place.step segment) ≠ some (.link target))
      (hrest : Leads d links (place.step segment) rest last) :
      Leads d links place (segment :: rest) last
  | jump {links : Nat} {place last : Place} {segment : List Char} {rest : List (List Char)}
      {target : Path} (henter : d.Enters place segment)
      (hlink : d.get? (place.step segment) = some (.link target))
      (hrest : Leads d links (target.origin place) (target.segments ++ rest) last) :
      Leads d (links + 1) place (segment :: rest) last

theorem followWithin_nil : d.followWithin links place [] = .ok place := by
  cases links <;> rfl

theorem followWithin_cons :
    d.followWithin links place (segment :: rest) =
      d.enter place segment >>= fun next =>
        match d.get? next with
        | some (.link target) =>
          match links with
          | 0 => .error .tooManyLinks
          | links + 1 => d.followWithin links (target.origin place) (target.segments ++ rest)
        | _ => d.followWithin links next rest := by
  cases links <;> rfl

theorem leads_of_followWithin (h : d.followWithin links place segments = .ok last) :
    d.Leads links place segments last := by
  induction links generalizing place segments with
  | zero =>
    induction segments generalizing place with
    | nil =>
      rw [followWithin_nil] at h
      cases h
      exact .stop
    | cons segment rest ih =>
      rw [followWithin_cons] at h
      obtain ⟨next, hnext, h⟩ := Outcome.bind_eq_ok_iff.1 h
      obtain ⟨henter, rfl⟩ := enter_eq_ok_iff.1 hnext
      split at h
      · cases h
      · rename_i hno
        exact .step henter hno (ih h)
  | succ links ihlinks =>
    induction segments generalizing place with
    | nil =>
      rw [followWithin_nil] at h
      cases h
      exact .stop
    | cons segment rest ih =>
      rw [followWithin_cons] at h
      obtain ⟨next, hnext, h⟩ := Outcome.bind_eq_ok_iff.1 h
      obtain ⟨henter, rfl⟩ := enter_eq_ok_iff.1 hnext
      split at h
      · rename_i target hlink
        exact .jump henter hlink (ihlinks h)
      · rename_i hno
        exact .step henter hno (ih h)

theorem followWithin_eq_ok_iff :
    d.followWithin links place segments = .ok last ↔ d.Leads links place segments last := by
  refine ⟨leads_of_followWithin, fun h => ?_⟩
  induction h with
  | stop => exact followWithin_nil
  | @step links place last segment rest henter hno _ ih =>
    rw [followWithin_cons, enter_eq_ok_iff.2 ⟨henter, rfl⟩]
    show (match d.get? (place.step segment) with
      | some (.link target) => _
      | _ => _) = _
    split
    · rename_i target hlink
      exact absurd hlink (hno target)
    · exact ih
  | jump henter hlink _ ih =>
    rw [followWithin_cons, enter_eq_ok_iff.2 ⟨henter, rfl⟩]
    simp only [bind, Except.bind, hlink]
    exact ih

theorem follow_eq_ok_iff :
    d.follow p = .ok place ↔ d.Leads linkLimit (d.start p) p.segments place :=
  followWithin_eq_ok_iff

/-- From one state to the other no directory was lost, and no link was made, lost or changed. -/
structure Keeps (d d' : Disk) : Prop where
  here : d'.here = d.here
  directories : ∀ place, d.get? place = some .directory → d'.get? place = some .directory
  links : ∀ place target, d'.get? place = some (.link target) ↔
    d.get? place = some (.link target)

theorem Keeps.trans {d'' : Disk} (h : Keeps d d') (h' : Keeps d' d'') : Keeps d d'' where
  here := h'.here.trans h.here
  directories place hplace := h'.directories place (h.directories place hplace)
  links place target := (h'.links place target).trans (h.links place target)

theorem Keeps.enters (hkeeps : Keeps d d') (h : d.Enters place segment) :
    d'.Enters place segment :=
  ⟨hkeeps.directories place h.1, h.2⟩

namespace Leads

/-- Links are followed until there is none. -/
theorem ne_link (h : d.Leads links place segments last) (hne : segments ≠ []) (target : Path) :
    d.get? last ≠ some (.link target) := by
  induction h with
  | stop => exact absurd rfl hne
  | @step _ _ _ _ rest _ hno hrest ih =>
    cases rest with
    | nil =>
      cases hrest
      exact hno target
    | cons next more => exact ih (List.cons_ne_nil next more)
  | @jump _ _ _ _ rest target' _ _ _ ih =>
    refine ih ?_
    rw [ne_eq, List.append_eq_nil_iff, not_and]
    exact fun hnil => absurd hnil (Text.splitOn_ne_nil _ _)

theorem mono_links {more : Nat} (h : d.Leads links place segments last) (hle : links ≤ more) :
    d.Leads more place segments last := by
  induction h generalizing more with
  | stop => exact .stop
  | step henter hno _ ih => exact .step henter hno (ih hle)
  | jump henter hlink _ ih =>
    obtain ⟨more, rfl⟩ := Nat.exists_eq_add_of_le' (Nat.le_trans (Nat.le_add_left 1 _) hle)
    exact .jump henter hlink (ih (Nat.le_of_succ_le_succ hle))

/-- Segments lead to one place only. -/
theorem unique {last' : Place} (h : d.Leads links place segments last)
    (h' : d.Leads links place segments last') : last = last' :=
  Except.ok.inj ((followWithin_eq_ok_iff.2 h).symm.trans (followWithin_eq_ok_iff.2 h'))

/-- Segments can be cut, and the next of them is followed from where the ones in front lead. -/
theorem cut (h : d.Leads links place (front ++ segment :: back) last) :
    ∃ mid, d.Leads links place front mid ∧ d.Enters mid segment := by
  generalize hall : front ++ segment :: back = segments at h
  induction h generalizing front with
  | stop => exact absurd hall (by simp)
  | @step links place last first rest henter hno _ ih =>
    cases front with
    | nil =>
      cases hall
      exact ⟨place, .stop, henter⟩
    | cons first front =>
      cases hall
      obtain ⟨mid, hmid, hnext⟩ := ih rfl
      exact ⟨mid, .step henter hno hmid, hnext⟩
  | @jump links place last first rest target henter hlink _ ih =>
    cases front with
    | nil =>
      cases hall
      exact ⟨place, .stop, henter⟩
    | cons first front =>
      cases hall
      obtain ⟨mid, hmid, hnext⟩ := ih (List.append_assoc ..)
      exact ⟨mid, .jump henter hlink hmid, hnext⟩

/-- Segments go on from where others lead, without links of their own. -/
theorem append (h : d.Leads links place front mid) (hback : d.Leads 0 mid back last) :
    d.Leads links place (front ++ back) last := by
  induction h with
  | stop => exact hback.mono_links (Nat.zero_le _)
  | step henter hno _ ih => exact .step henter hno (ih hback)
  | jump henter hlink _ ih =>
    have hrest := ih hback
    rw [List.append_assoc] at hrest
    exact .jump henter hlink hrest

/-- One segment more leads to the place that it names, if no link is there. -/
theorem concat (h : d.Leads links place front mid) (henter : d.Enters mid segment)
    (hno : ∀ target, d.get? (mid.step segment) ≠ some (.link target)) :
    d.Leads links place (front ++ [segment]) (mid.step segment) :=
  h.append (.step henter hno .stop)

/-- Where no directory is lost and links stay what they are, segments lead to the same place. -/
theorem mono (hkeeps : Keeps d d') (h : d.Leads links place segments last) :
    d'.Leads links place segments last := by
  induction h with
  | stop => exact .stop
  | step henter hno _ ih =>
    exact .step (hkeeps.enters henter) (fun target => (hkeeps.links _ target).not.2 (hno target)) ih
  | jump henter hlink _ ih => exact .jump (hkeeps.enters henter) ((hkeeps.links _ _).2 hlink) ih

end Leads

theorem Keeps.follow_eq_ok (hkeeps : Keeps d d') (h : d.follow p = .ok place) :
    d'.follow p = .ok place := by
  rw [follow_eq_ok_iff] at h ⊢
  rw [start, hkeeps.here]
  exact h.mono hkeeps

/-! ### Without links -/

/-- There are no links. -/
def LinkFree (d : Disk) : Prop := ∀ place target, d.get? place ≠ some (.link target)

theorem mem_entries_of_get? {e : Entry} (hne : place ≠ []) (h : d.get? place = some e) :
    ∃ names, place ∈ names ∧ (names, e) ∈ d.entries := by
  have hget : getIn place d.entries = some e := by
    simpa [get?, all, getIn, hne] using h
  obtain ⟨entry, hfind, rfl⟩ := Option.map_eq_some_iff.1 hget
  exact ⟨entry.1, by simpa using List.find?_some hfind, List.mem_of_find?_eq_some hfind⟩

theorem mem_places_of_get? {e : Entry} (hne : place ≠ []) (h : d.get? place = some e) :
    place ∈ d.places := by
  obtain ⟨names, hplace, hmem⟩ := mem_entries_of_get? hne h
  exact List.mem_flatMap.2 ⟨_, hmem, hplace⟩

theorem linkFree_of_all (h : (d.entries.all fun entry => !entry.2.isLink) = true) :
    d.LinkFree := by
  intro place target hget
  have hne : place ≠ [] := by
    rintro rfl
    cases hget
  obtain ⟨names, -, hmem⟩ := mem_entries_of_get? hne hget
  exact absurd (List.all_eq_true.1 h _ hmem) (by simp [Entry.isLink])

/-- The segments can be followed from a place, where no links are. -/
def IsWay (d : Disk) : Place → List (List Char) → Prop
  | _, [] => True
  | place, segment :: rest => d.Enters place segment ∧ d.IsWay (place.step segment) rest

theorem isWay_append :
    d.IsWay place (front ++ back) ↔
      d.IsWay place front ∧ d.IsWay (front.foldl Place.step place) back := by
  induction front generalizing place with
  | nil => simp [IsWay]
  | cons segment rest ih => simp [IsWay, ih, and_assoc]

/-- One more segment is followed from the directory that the others lead to. -/
theorem isWay_concat :
    d.IsWay place (segments ++ [segment]) ↔
      d.IsWay place segments ∧ d.Enters (segments.foldl Place.step place) segment := by
  simp [isWay_append, IsWay]

/-- Without links, segments lead where their text tells. -/
theorem leads_iff_isWay (hl : d.LinkFree) :
    d.Leads links place segments last ↔
      d.IsWay place segments ∧ segments.foldl Place.step place = last := by
  constructor
  · intro h
    induction h with
    | stop => exact ⟨trivial, rfl⟩
    | step henter _ _ ih => exact ⟨⟨henter, ih.1⟩, ih.2⟩
    | jump _ hlink => exact absurd hlink (hl _ _)
  · rintro ⟨hway, rfl⟩
    induction segments generalizing place with
    | nil => exact .stop
    | cons segment rest ih => exact .step hway.1 (hl _) (ih hway.2)

/-- Without links, a path is followed to the place that its text tells, if its segments are a
way. -/
theorem follow_eq_ok_iff_isWay (hl : d.LinkFree) :
    d.follow p = .ok place ↔ d.IsWay (d.start p) p.segments ∧ p.walk d.here = place := by
  rw [follow_eq_ok_iff, leads_iff_isWay hl, Path.walk_eq_foldl_step]
  rfl

/-! ### Finding -/

theorem checkPath_eq_ok_iff :
    checkPath p = .ok () ↔
      '\x00' ∉ p.text.toList ∧ p.text ≠ "" ∧ p.text.utf8ByteSize ≤ pathLimit := by
  unfold checkPath
  by_cases hzero : p.text.toList.contains '\x00' = true
  · simp_all
  · by_cases hempty : p.text.isEmpty = true
    · simp_all
    · by_cases hlong : pathLimit < p.text.utf8ByteSize
      · simp_all [Nat.not_le_of_lt hlong]
      · simp_all

theorem find_eq_ok_iff {e : Entry} :
    d.find p = .ok e ↔
      checkPath p = .ok () ∧ ∃ place, d.follow p = .ok place ∧ d.get? place = some e := by
  simp only [find, locate, Outcome.bind_eq_ok_iff]
  constructor
  · rintro ⟨place, ⟨⟨⟩, hcheck, hplace⟩, hentry⟩
    cases hget : d.get? place with
    | none => simp [hget] at hentry
    | some found =>
      rw [hget] at hentry
      exact ⟨hcheck, place, hplace, hget.trans (congrArg some (Except.ok.inj hentry))⟩
  · rintro ⟨hcheck, place, hplace, hentry⟩
    exact ⟨_, ⟨(), hcheck, hplace⟩, by rw [hentry]⟩

theorem find_eq_ok_iff_isWay (hl : d.LinkFree) {e : Entry} :
    d.find p = .ok e ↔
      checkPath p = .ok () ∧ d.IsWay (d.start p) p.segments ∧
        d.get? (p.walk d.here) = some e := by
  simp [find_eq_ok_iff, follow_eq_ok_iff_isWay hl, and_assoc]

/-! ### Reading -/

theorem isFile_iff : d.isFile p = true ↔ ∃ content, d.find p = .ok (.file content) := by
  unfold isFile
  cases d.find p with
  | error fault => simp
  | ok e => cases e <;> simp

theorem readText_eq_ok_iff {text : String} :
    d.readText p = .ok text ↔ d.find p = .ok (.file text.toUTF8) := by
  simp only [readText, readBytes, Outcome.bind_eq_ok_iff]
  constructor
  · rintro ⟨content, ⟨e, he, hcontent⟩, htext⟩
    cases e with
    | directory | link => cases hcontent
    | file bytes =>
      obtain rfl := Except.ok.inj hcontent
      cases hread : String.fromUTF8? bytes with
      | none => simp [hread] at htext
      | some found =>
        rw [hread] at htext
        obtain rfl := Except.ok.inj htext
        rw [he, fromUTF8?_eq_some_iff.1 hread]
  · intro h
    exact ⟨_, ⟨_, h, rfl⟩, by rw [fromUTF8?_eq_some_iff.2 rfl]⟩

/-- What a file is fetched as: its text, or a fault if its bytes spell none. -/
def fetchedAs (content : ByteArray) : Fetched :=
  match String.fromUTF8? content with
  | some text => .text text
  | none => .failed .notText

theorem fetch_of_find {content : ByteArray} (h : d.find p = .ok (.file content)) :
    d.fetch p = fetchedAs content := by
  have hfile : d.isFile p = true := isFile_iff.2 ⟨content, h⟩
  have hbytes : d.readBytes p = .ok content := by
    rw [readBytes, h]
    rfl
  have hread : d.readText p = (match String.fromUTF8? content with
      | some text => Except.ok text
      | none => Except.error .notText) := by
    rw [readText, hbytes]
    rfl
  rw [fetch, if_pos hfile, hread, fetchedAs]
  cases String.fromUTF8? content <;> rfl

/-- What is fetched as a text is what is read. -/
theorem fetch_eq_text_iff {text : String} : d.fetch p = .text text ↔ d.readText p = .ok text := by
  constructor
  · intro h
    unfold fetch at h
    split at h
    · split at h
      · next found hread => rw [hread, Fetched.text.inj h]
      · cases h
    · cases h
  · intro h
    rw [fetch_of_find (readText_eq_ok_iff.1 h), fetchedAs, fromUTF8?_eq_some_iff.2 rfl]

theorem fetch_eq_missing (h : ∀ content, d.find p ≠ .ok (.file content)) :
    d.fetch p = .missing := by
  have hfile : ¬d.isFile p = true := by
    rw [isFile_iff]
    rintro ⟨content, hcontent⟩
    exact h content hcontent
  rw [fetch, if_neg hfile]

end Disk

end Playbook
