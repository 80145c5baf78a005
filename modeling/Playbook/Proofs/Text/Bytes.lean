import Mathlib.Data.List.Infix
import Playbook.Text.Lines

/-!
# Texts by bytes

Places in a text may also be counted in bytes.  A count is the end of some characters, or it falls
inside one; `slice?` gives the text between two counts and refuses those that fall inside, that lie
behind the end or that stand in the wrong order.
-/

namespace Playbook.Text

/-- The number of bytes that a text is written with. -/
def size (text : List Char) : Nat := (String.ofList text).utf8ByteSize

@[simp] theorem size_nil : size [] = 0 := rfl

@[simp] theorem size_cons (c : Char) (text : List Char) :
    size (c :: text) = c.utf8Size + size text := by
  rw [size, String.ofList_cons, String.utf8ByteSize_append, String.utf8ByteSize_singleton]
  rfl

@[simp] theorem size_append (text more : List Char) :
    size (text ++ more) = size text + size more := by
  rw [size, String.ofList_append, String.utf8ByteSize_append]
  rfl

@[simp] theorem size_toList (s : String) : size s.toList = s.utf8ByteSize := by
  rw [size, String.ofList_toList]

/-- The part of a text between two counts of bytes, the first of which must not be larger.  Each of
them must be the end of some characters of the text. -/
def slice? (s : String) (start stop : Nat) : Option String := do
  let start ← s.pos? ⟨start⟩
  let stop ← s.pos? ⟨stop⟩
  let part ← s.slice? start stop
  some part.copy

theorem pos?_of_isValid {s : String} {offset : String.Pos.Raw} (h : offset.IsValid s) :
    s.pos? offset = some (s.pos offset h) := by
  rw [String.pos?, String.Slice.pos?,
    dif_pos (String.Pos.Raw.isValidForSlice_eq_true_iff.2 h.toSlice)]
  rfl

theorem pos?_eq_none {s : String} {offset : String.Pos.Raw} (h : ¬offset.IsValid s) :
    s.pos? offset = none := by
  have hslice : ¬offset.isValidForSlice s.toSlice = true := by
    rwa [String.Pos.Raw.isValidForSlice_eq_true_iff, String.Pos.Raw.isValidForSlice_toSlice_iff]
  rw [String.pos?, String.Slice.pos?, dif_neg hslice]
  rfl

/-- There is a part between two counts exactly if they are in order and both are ends of characters
of the text, of which its own end is the last. -/
theorem isSome_slice?_iff {s : String} {start stop : Nat} :
    (slice? s start stop).isSome = true ↔
      start ≤ stop ∧ String.Pos.Raw.IsValid s ⟨start⟩ ∧ String.Pos.Raw.IsValid s ⟨stop⟩ := by
  unfold slice?
  by_cases hstart : String.Pos.Raw.IsValid s ⟨start⟩
  · by_cases hstop : String.Pos.Raw.IsValid s ⟨stop⟩
    · have hle : s.pos _ hstart ≤ s.pos _ hstop ↔ start ≤ stop := String.Pos.le_iff
      simp [pos?_of_isValid hstart, pos?_of_isValid hstop, String.slice?, hle, hstart, hstop,
        Option.isSome_bind]
    · simp [pos?_eq_none hstop, hstop]
  · simp [pos?_eq_none hstart, hstart]

example : slice? "é)" 0 1 = none ∧ slice? "é)" 0 2 = some "é" := by decide +kernel

/-- What stands between two other texts is the part between their counts of bytes. -/
theorem slice?_append (before middle after : String) :
    slice? (before ++ middle ++ after) before.utf8ByteSize
      (before.utf8ByteSize + middle.utf8ByteSize) = some middle := by
  have hstart : String.Pos.Raw.IsValid (before ++ middle ++ after) ⟨before.utf8ByteSize⟩ :=
    String.Pos.Raw.isValid_iff_exists_append.2
      ⟨before, middle ++ after, by rw [String.append_assoc], rfl⟩
  have hstop : String.Pos.Raw.IsValid (before ++ middle ++ after)
      ⟨before.utf8ByteSize + middle.utf8ByteSize⟩ :=
    String.Pos.Raw.isValid_iff_exists_append.2
      ⟨before ++ middle, after, rfl, by rw [String.rawEndPos, String.utf8ByteSize_append]⟩
  have hle : (before ++ middle ++ after).pos _ hstart ≤
      (before ++ middle ++ after).pos _ hstop := by
    rw [String.Pos.le_iff]
    exact Nat.le_add_right _ _
  rw [slice?, pos?_of_isValid hstart, pos?_of_isValid hstop]
  simp only [Option.bind_eq_bind, Option.bind_some]
  rw [String.slice?, dif_pos hle, Option.bind_some]
  congr 1
  rw [← String.toByteArray_inj, String.toByteArray_copy_slice, String.toByteArray_append,
    String.toByteArray_append, ByteArray.append_assoc]
  show ByteArray.extract _ (before.toByteArray.size + 0)
    (before.toByteArray.size + middle.toByteArray.size) = _
  rw [ByteArray.extract_append_size_add, ByteArray.extract_append_eq_left rfl]

theorem slice?_of_toList_eq {s : String} {before middle after : List Char}
    (h : s.toList = before ++ middle ++ after) :
    slice? s (size before) (size before + size middle) = some (String.ofList middle) := by
  have hs : s = String.ofList before ++ String.ofList middle ++ String.ofList after := by
    rw [← String.ofList_append, ← String.ofList_append, ← h, String.ofList_toList]
  rw [hs]
  exact slice?_append _ _ _

end Playbook.Text
