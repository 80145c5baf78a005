import Mathlib.Data.Fintype.BigOperators
import Mathlib.Data.Set.Card
import Mathlib.SetTheory.Cardinal.Finite
import Playbook.Proofs.Disk.Lookup

/-!
# The capacity of libraries

A library comes with a capacity, and it is `Bounded` if there are no more files to fetch than that.
Both kinds of library are bounded: a shelf has at most one text for each of its files, and on a disk
a file is found at no more paths than there are texts of the supported length.
-/

namespace Playbook

namespace Library

/-- The files that can be fetched, under their normalized paths, are no more than the capacity. -/
def Bounded (lib : Library) : Prop :=
  {path : Path | path.normalize = path ∧ ∃ source, lib.fetch path = .text source}.encard ≤
    lib.capacity

variable {lib : Library}

/-- A path holds a command if what is fetched from it is a text, and this text parses. -/
theorem command_eq_ok_iff {path : Path} {c : Command} :
    lib.command path = .ok c ↔
      ∃ source, lib.fetch path = .text source ∧ Command.parse source = .ok c := by
  unfold command
  split
  · next source hs => simp [hs, Outcome.mapError_eq_ok_iff]
  · next hs => simp [hs]
  · next hs => simp [hs]

/-- Different normalized paths that hold commands are no more than the capacity. -/
theorem Bounded.length_le (hb : lib.Bounded) {paths : List Path} (hn : paths.Nodup)
    (h : ∀ p ∈ paths, p.normalize = p ∧ ∃ c, lib.command p = .ok c) :
    paths.length ≤ lib.capacity := by
  classical
  have hsub : (↑paths.toFinset : Set Path) ⊆
      {path | path.normalize = path ∧ ∃ source, lib.fetch path = .text source} := by
    intro p hp
    obtain ⟨hnorm, c, hc⟩ := h p (List.mem_toFinset.1 (Finset.mem_coe.1 hp))
    obtain ⟨source, hsource, -⟩ := command_eq_ok_iff.1 hc
    exact ⟨hnorm, source, hsource⟩
  have hle := (Set.encard_le_encard hsub).trans hb
  rw [Set.encard_coe_eq_coe_finsetCard, List.toFinset_card_of_nodup hn] at hle
  exact_mod_cast hle

end Library

/-! ### Shelves -/

theorem mem_keys_of_lookup {α β : Type} [BEq α] [LawfulBEq α] {a : α} {b : β}
    {pairs : List (α × β)} (h : pairs.lookup a = some b) : a ∈ pairs.map Prod.fst := by
  obtain ⟨before, after, rfl, -⟩ := List.lookup_eq_some_iff.1 h
  simp

theorem encard_setOf_mem_le {α : Type} (list : List α) : {a | a ∈ list}.encard ≤ list.length := by
  classical
  have h : {a | a ∈ list} = (↑list.toFinset : Set α) := by
    ext a
    simp
  rw [h, Set.encard_coe_eq_coe_finsetCard]
  exact_mod_cast list.toFinset_card_le

/-- What can be fetched from a shelf under a normalized path is one of its files. -/
theorem Shelf.mem_files_of_fetch {shelf : Shelf} {failing : List (Path × DiskFault)} {path : Path}
    (hnorm : path.normalize = path) {source : String}
    (h : (shelf.library failing).fetch path = .text source) :
    path ∈ shelf.files.map Prod.fst := by
  have hget : shelf.get? path = some source := by
    simp only [library] at h
    split at h
    · cases h
    · split at h
      · next source' hget => rw [hget, Fetched.text.inj h]
      · cases h
  rw [get?, hnorm] at hget
  exact mem_keys_of_lookup hget

/-- Every shelf is bounded, wherever fetching fails. -/
theorem Shelf.bounded_library (shelf : Shelf) (failing : List (Path × DiskFault)) :
    (shelf.library failing).Bounded := by
  have hsub : {path : Path | path.normalize = path ∧
      ∃ source, (shelf.library failing).fetch path = .text source} ⊆
      {path | path ∈ shelf.files.map Prod.fst} :=
    fun _ ⟨hnorm, _, h⟩ => mem_files_of_fetch hnorm h
  calc _ ≤ {path | path ∈ shelf.files.map Prod.fst}.encard := Set.encard_le_encard hsub
    _ ≤ (shelf.files.map Prod.fst).length := encard_setOf_mem_le _
    _ ≤ (shelf.library failing).capacity := by
      rw [List.length_map]
      exact_mod_cast Nat.le_add_right _ _

/-! ### Disks -/

/-- The bytes of a text at the places up to a length. -/
def bytesUpTo (length : Nat) (text : String) (i : Fin length) : Option (Fin 256) :=
  text.toByteArray.data[i.1]?.map UInt8.toFin

theorem bytesUpTo_injOn (length : Nat) :
    Set.InjOn (bytesUpTo length) {text | text.utf8ByteSize ≤ length} := by
  intro a ha b hb h
  have hbytes : ∀ i : Nat, a.toByteArray.data[i]? = b.toByteArray.data[i]? := by
    intro i
    by_cases hi : i < length
    · exact Option.map_injective (fun _ _ => UInt8.toFin_inj.1) (congrFun h ⟨i, hi⟩)
    · have hle (text : String) (htext : text.utf8ByteSize ≤ length) :
          text.toByteArray.data.size ≤ i := Nat.le_trans htext (Nat.le_of_not_lt hi)
      rw [Array.getElem?_eq_none (hle a ha), Array.getElem?_eq_none (hle b hb)]
  exact String.toByteArray_inj.1 (ByteArray.ext (Array.ext_getElem? hbytes))

/-- There are no more texts up to a length than ways to have a byte or none at each place. -/
theorem encard_texts_le (length : Nat) :
    {text : String | text.utf8ByteSize ≤ length}.encard ≤ (Nat.pow 257 length : Nat) := by
  calc {text : String | text.utf8ByteSize ≤ length}.encard
    _ ≤ (Set.univ : Set (Fin length → Option (Fin 256))).encard :=
      Set.encard_le_encard_of_injOn (fun _ _ => Set.mem_univ _) (bytesUpTo_injOn length)
    _ = (Nat.pow 257 length : Nat) := by
      rw [Set.encard_univ, ENat.card_eq_coe_fintype_card, Fintype.card_fun, Fintype.card_option,
        Fintype.card_fin, Fintype.card_fin]
      rfl

/-- Every disk is bounded. -/
theorem Disk.bounded_library (d : Disk) : d.library.Bounded := by
  have hmaps : Set.MapsTo Path.text
      {path | path.normalize = path ∧ ∃ source, d.library.fetch path = .text source}
      {text | text.utf8ByteSize ≤ pathLimit} := by
    rintro p ⟨-, source, hsource⟩
    obtain ⟨hcheck, -⟩ := find_eq_ok_iff.1 (readText_eq_ok_iff.1 (fetch_eq_text_iff.1 hsource))
    exact (checkPath_eq_ok_iff.1 hcheck).2.2
  have hinj : Function.Injective Path.text := fun _ _ h => congrArg Path.mk h
  have hle := Set.encard_le_encard_of_injOn hmaps hinj.injOn
  simpa only [Library.Bounded, library] using hle.trans (encard_texts_le pathLimit)

end Playbook
