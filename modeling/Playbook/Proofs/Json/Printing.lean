import Mathlib.Tactic.IntervalCases
import Playbook.Json.Printer
import Playbook.Json.Reader

/-!
# Printed JSON is read back

Reading the printed form of a value gives the value again, whatever its strings hold.  This is for
values without numbers whose strings spell texts, the only ones that the library prints: `IsPlain`.
-/

namespace Playbook.Json

/-- A value without numbers in which every string and every key spells a text. -/
inductive IsPlain : Json → Prop
  | null : IsPlain .null
  | bool (b : Bool) : IsPlain (.bool b)
  | text (s : String) : IsPlain (.text s)
  | array {items : List Json} (h : ∀ j ∈ items, IsPlain j) : IsPlain (.array items)
  | record {members : List (String × Json)} (h : ∀ m ∈ members, IsPlain m.2) :
    IsPlain (.record members)

/-! ### String literals -/

theorem hexUnit?_hexDigit {n : Nat} (h : n < 0x20) :
    hexUnit? '0' '0' (hexDigit (n / 16)) (hexDigit n) = some n := by
  interval_cases n <;> rfl

/-- Each character is read back from the way it is written. -/
theorem readCodes_escape (c : Char) {text after : List Char} {codes : List Nat}
    (h : readCodes text = some (codes, after)) :
    readCodes (escape c ++ text) = some (c.toNat :: codes, after) := by
  have hsimple : ∀ e char, e ≠ 'u' → simpleEscape? e = some char →
      readCodes ('\\' :: e :: text) = some (char.toNat :: codes, after) := by
    intro e char hu he
    rw [readCodes, he, h]
    · rfl
    · intro _ _ _ _ _ he
      exact absurd he hu
  unfold escape
  split_ifs with h₁ h₂ h₃ h₄ h₅ h₆ h₇ hlow
  · exact h₁ ▸ hsimple '"' '"' (by decide) rfl
  · exact h₂ ▸ hsimple '\\' '\\' (by decide) rfl
  · exact h₃ ▸ hsimple 'b' '\x08' (by decide) rfl
  · exact h₄ ▸ hsimple 'f' '\x0c' (by decide) rfl
  · exact h₅ ▸ hsimple 'n' '\n' (by decide) rfl
  · exact h₆ ▸ hsimple 'r' '\r' (by decide) rfl
  · exact h₇ ▸ hsimple 't' '\t' (by decide) rfl
  · show readCodes ('\\' :: 'u' :: '0' :: '0' :: _ :: _ :: text) = _
    rw [readCodes, hexUnit?_hexDigit hlow, h]
    rfl
  · -- the character stands for itself: no other equation of the reader applies
    rw [List.singleton_append, readCodes]
    · simp only [h₂, hlow, decide_false, Bool.or_self, Bool.false_eq_true, if_false, h]
      rfl
    · exact h₁
    · intro _ _ _ _ _ hc
      exact absurd hc h₂
    · intro _ _ hc
      exact absurd hc h₂

theorem readCodes_escapes (s rest : List Char) :
    readCodes (s.flatMap escape ++ '"' :: rest) = some (s.map Char.toNat, rest) := by
  induction s with
  | nil => rfl
  | cons c s ih =>
    rw [List.flatMap_cons, List.append_assoc]
    exact readCodes_escape c ih

theorem not_surrogate (c : Char) : isLeading c.toNat = false ∧ isTrailing c.toNat = false := by
  have h : c.toNat < 0xD800 ∨ 0xDFFF < c.toNat ∧ c.toNat < 0x110000 := c.valid
  simp only [isLeading, isTrailing, Bool.and_eq_false_iff, decide_eq_false_iff_not]
  omega

theorem spell?_map_toNat (s : List Char) : spell? (s.map Char.toNat) = some s := by
  induction s with
  | nil => rfl
  | cons c s ih =>
    obtain ⟨hlead, htrail⟩ := not_surrogate c
    cases s with
    | nil => simp [spell?, hlead, htrail, Char.ofNat_toNat]
    | cons d s =>
      rw [List.map_cons] at ih
      simp [spell?, hlead, htrail, ih, Char.ofNat_toNat]

/-- A text is read back from its string literal. -/
theorem readString_escapes (s : String) (rest : List Char) :
    readString (s.toList.flatMap escape ++ '"' :: rest) = some (some s, rest) := by
  simp [readString, readCodes_escapes, spell?_map_toNat]

/-! ### Values -/

theorem skipSpace_newLine (level : Nat) (text : List Char) :
    skipSpace (newLine level ++ text) = skipSpace text := by
  have hspaces : ∀ n, skipSpace (List.replicate n ' ' ++ text) = skipSpace text := by
    intro n
    induction n with
    | zero => rfl
    | succ n ih => exact ih
  exact hspaces _

theorem value_newLine (bound level : Nat) (text : List Char) :
    value bound (newLine level ++ text) = value bound text := by
  cases bound with
  | zero => rfl
  | succ bound => rw [value, value, skipSpace_newLine]

theorem items_newLine (bound level : Nat) (text : List Char) :
    items bound (newLine level ++ text) = items bound text := by
  cases bound with
  | zero => rfl
  | succ bound => rw [items, items, value_newLine]

theorem members_newLine (bound level : Nat) (text : List Char) :
    members bound (newLine level ++ text) = members bound text := by
  cases bound with
  | zero => rfl
  | succ bound => rw [members, members, skipSpace_newLine]

theorem skipSpace_newLine_cons {c : Char} (hc : isSpace c = false) (level : Nat)
    (text : List Char) : skipSpace (newLine level ++ c :: text) = c :: text := by
  rw [skipSpace_newLine, skipSpace, List.dropWhile_cons_of_neg (by simp [hc])]

/-- An array that does not end at once has items. -/
theorem value_array {bound level : Nat} {c : Char} {text : List Char} (hspace : isSpace c = false)
    (hc : c ≠ ']') : value (bound + 1) ('[' :: (newLine level ++ c :: text)) =
      (items bound (c :: text)).map fun (list, after) => (Json.array list, after) := by
  have hopen : skipSpace ('[' :: (newLine level ++ c :: text)) =
      '[' :: (newLine level ++ c :: text) := rfl
  rw [value, hopen]
  simp [skipSpace_newLine_cons hspace, hc]

/-- An object that does not end at once has members. -/
theorem value_object {bound level : Nat} {c : Char} {text : List Char} (hspace : isSpace c = false)
    (hc : c ≠ '}') : value (bound + 1) ('{' :: (newLine level ++ c :: text)) =
      (members bound (c :: text)).map fun (list, after) => (Json.object list, after) := by
  have hopen : skipSpace ('{' :: (newLine level ++ c :: text)) =
      '{' :: (newLine level ++ c :: text) := rfl
  rw [value, hopen]
  simp [skipSpace_newLine_cons hspace, hc]

/-- The printed form of a value starts with a character that is neither blank nor closes an
array. -/
theorem IsPlain.print_eq_cons {j : Json} (h : j.IsPlain) (level : Nat) :
    ∃ c text, print level j = c :: text ∧ isSpace c = false ∧ c ≠ ']' := by
  cases h with
  | null => exact ⟨'n', _, rfl, by decide, by decide⟩
  | bool b => cases b <;> exact ⟨_, _, rfl, by decide, by decide⟩
  | text s => exact ⟨'"', _, rfl, by decide, by decide⟩
  | @array items h => cases items <;> exact ⟨'[', _, rfl, by decide, by decide⟩
  | @record members h => cases members <;> exact ⟨_, _, rfl, by decide, by decide⟩

/-! ### Reading back -/

/-- Reading the printed form of a value, whatever follows it, gives the value back. -/
def ReadsBack (j : Json) : Prop :=
  ∀ level bound rest, (print level j).length < bound →
    value bound (print level j ++ rest) = some (j, rest)

/-- Items with a comma before each but the first are read up to the closing bracket. -/
theorem items_printItems {item : Json} {rest : List Json} (hitem : item.ReadsBack)
    (hrest : ∀ j ∈ rest, j.ReadsBack) (level outer : Nat) {bound : Nat} (after : List Char)
    (hbound : (print level item).length + (printItems level rest).length + 1 < bound) :
    items bound (print level item ++ (printItems level rest ++ (newLine outer ++ ']' :: after))) =
      some (item :: rest, after) := by
  obtain ⟨bound, rfl⟩ : ∃ n, bound = n + 1 := ⟨bound - 1, by omega⟩
  induction rest generalizing item bound with
  | nil =>
    rw [printItems, List.nil_append, items, hitem _ _ _ (by omega)]
    simp only [Option.bind_eq_bind, Option.bind_some, skipSpace_newLine]
    rfl
  | cons next more ih =>
    rw [List.forall_mem_cons] at hrest
    simp only [printItems, List.length_cons, List.length_append] at hbound
    obtain ⟨bound, rfl⟩ : ∃ n, bound = n + 1 := ⟨bound - 1, by omega⟩
    have hmore := ih hrest.1 hrest.2 bound (by omega)
    simp only [printItems, List.append_assoc, List.cons_append]
    rw [items, hitem _ _ _ (by omega)]
    show (items (bound + 1) (newLine level ++ _)).bind _ = _
    rw [items_newLine, hmore]
    rfl

/-- Members as they are read: every key spells a text. -/
def withKeys (members : List (String × Json)) : List (Option String × Json) :=
  members.map fun (key, value) => (some key, value)

/-- A key and the value after it are read off the front of the members. -/
theorem members_succ {bound : Nat} {text after : List Char} {j : Json}
    (h : value bound text = some (j, after)) (key : String) :
    members (bound + 1) (printString (some key) ++ (": ".toList ++ text)) =
      match skipSpace after with
      | ',' :: rest => (members bound rest).bind fun (list, after) =>
        some ((some key, j) :: list, after)
      | '}' :: rest => some ([(some key, j)], rest)
      | _ => none := by
  have hspace : value bound (' ' :: text) = value bound text := by
    cases bound with
    | zero => rfl
    | succ bound => rfl
  have hkey : printString (some key) ++ (": ".toList ++ text) =
      '"' :: (key.toList.flatMap escape ++ '"' :: ':' :: ' ' :: text) := by
    simp [printString, quote]
  rw [members, hkey]
  show (readString _).bind _ = _
  rw [readString_escapes]
  show (value bound (' ' :: text)).bind _ = _
  rw [hspace, h]
  rfl

/-- Members with a comma before each but the first are read up to the closing brace. -/
theorem members_printMembers (key : String) {j : Json} {rest : List (String × Json)}
    (hj : j.ReadsBack) (hrest : ∀ m ∈ rest, m.2.ReadsBack) (level outer : Nat) {bound : Nat}
    (after : List Char)
    (hbound : (print level j).length + (printMembers level (withKeys rest)).length + 1 < bound) :
    members bound (printString (some key) ++ (": ".toList ++ (print level j ++
      (printMembers level (withKeys rest) ++ (newLine outer ++ '}' :: after))))) =
      some ((some key, j) :: withKeys rest, after) := by
  obtain ⟨bound, rfl⟩ : ∃ n, bound = n + 1 := ⟨bound - 1, by omega⟩
  induction rest generalizing key j bound with
  | nil =>
    rw [members_succ (hj _ _ _ (by omega))]
    simp only [withKeys, List.map_nil, printMembers, List.nil_append, skipSpace_newLine]
    rfl
  | cons next more ih =>
    rw [List.forall_mem_cons] at hrest
    have hkeys : withKeys (next :: more) = (some next.1, next.2) :: withKeys more := rfl
    simp only [hkeys, printMembers, List.length_cons, List.length_append] at hbound
    obtain ⟨bound, rfl⟩ : ∃ n, bound = n + 1 := ⟨bound - 1, by omega⟩
    have hmore := ih next.1 hrest.1 hrest.2 bound (by omega)
    rw [members_succ (hj _ _ _ (by omega))]
    simp only [hkeys, printMembers, List.append_assoc, List.cons_append]
    show (members (bound + 1) (newLine level ++ _)).bind _ = _
    rw [members_newLine, hmore]
    rfl

/-- The printed form of a plain value is read back. -/
theorem IsPlain.readsBack {j : Json} (h : j.IsPlain) : j.ReadsBack := by
  induction h with
  | null =>
    intro level bound rest hbound
    obtain ⟨bound, rfl⟩ : ∃ n, bound = n + 1 := ⟨bound - 1, by omega⟩
    rfl
  | bool b =>
    intro level bound rest hbound
    obtain ⟨bound, rfl⟩ : ∃ n, bound = n + 1 := ⟨bound - 1, by omega⟩
    cases b <;> rfl
  | text s =>
    intro level bound rest hbound
    obtain ⟨bound, rfl⟩ : ∃ n, bound = n + 1 := ⟨bound - 1, by omega⟩
    have hprint : print level (.text s) ++ rest =
        '"' :: (s.toList.flatMap escape ++ '"' :: rest) := by
      simp [print, Json.text, printString, quote]
    rw [hprint]
    show (readString _).map _ = _
    rw [readString_escapes]
    rfl
  | @array items h ih =>
    intro level bound rest hbound
    obtain ⟨bound, rfl⟩ : ∃ n, bound = n + 1 := ⟨bound - 1, by omega⟩
    cases items with
    | nil => rfl
    | cons item more =>
      rw [List.forall_mem_cons] at ih h
      simp only [print, List.length_cons, List.length_append] at hbound
      have hitems := items_printItems ih.1 ih.2 (level + 1) level rest (by omega : _ < bound)
      obtain ⟨c, text, hprint, hspace, hc⟩ := h.1.print_eq_cons (level + 1)
      simp only [print, List.append_assoc, List.cons_append, List.nil_append]
      rw [hprint, List.cons_append, value_array hspace hc, ← List.cons_append, ← hprint, hitems]
      rfl
  | @record members h ih =>
    intro level bound rest hbound
    obtain ⟨bound, rfl⟩ : ∃ n, bound = n + 1 := ⟨bound - 1, by omega⟩
    cases members with
    | nil => rfl
    | cons first more =>
      rw [List.forall_mem_cons] at ih
      have hrecord : Json.record (first :: more) =
          .object ((some first.1, first.2) :: withKeys more) := rfl
      simp only [hrecord, print, List.length_cons, List.length_append] at hbound
      have hmembers := members_printMembers first.1 ih.1 ih.2 (level + 1) level rest
        (by omega : _ < bound)
      simp only [hrecord, print, List.append_assoc, List.cons_append, List.nil_append]
      -- the first character of a key tells that the object does not end at once
      show value (bound + 1) ('{' :: (newLine (level + 1) ++ '"' :: _)) = _
      rw [value_object (by decide) (by decide)]
      show (Json.members bound (printString (some first.1) ++ _)).map _ = _
      rw [hmembers]
      rfl

/-- Reading what was printed gives the value that was printed. -/
theorem read_pretty {j : Json} (h : j.IsPlain) : read j.pretty = some j := by
  have hlen : (print 0 j).length < 2 * (print 0 j).length + 2 := by omega
  have hvalue := h.readsBack 0 _ [] hlen
  rw [List.append_nil] at hvalue
  have hend : skipSpace [] = [] := rfl
  simp [read, pretty, hvalue, hend]

end Playbook.Json
