import Mathlib.Algebra.Ring.Nat
import Mathlib.Order.MinMax
import Playbook.Json

/-!
# JSON values made of data

A value without fractions and without lone surrogates can always be read, as far as it does not nest
too deeply: an integer of 64 bits is far from the largest number.  What can be read as a whole can
be read in its parts.
-/

namespace Playbook

namespace Numeral

/-- An integer of 64 bits, signed or unsigned. -/
def IsWord (n : Numeral) : Prop :=
  n.fraction = [] ∧ n.exponent = none ∧
    if n.negative then digitsValue n.whole ≤ 2 ^ 63 else digitsValue n.whole < 2 ^ 64

instance (n : Numeral) : Decidable n.IsWord :=
  inferInstanceAs (Decidable (n.fraction = [] ∧ n.exponent = none ∧
    if n.negative then digitsValue n.whole ≤ 2 ^ 63 else digitsValue n.whole < 2 ^ 64))

theorem le_foldl_digits (digits : List Char) (n : Nat) :
    n ≤ digits.foldl (fun n d => 10 * n + (d.toNat - '0'.toNat)) n := by
  induction digits generalizing n with
  | nil => exact le_rfl
  | cons d rest ih =>
    have hnext := ih (10 * n + (d.toNat - '0'.toNat))
    rw [List.foldl_cons]
    omega

/-- All digits are taken up if the whole number is within the limit. -/
theorem takeUp_eq {digits : List Char} {n : Nat}
    (h : digits.foldl (fun n d => 10 * n + (d.toNat - '0'.toNat)) n ≤ significandLimit) :
    takeUp n digits = (digits.foldl (fun n d => 10 * n + (d.toNat - '0'.toNat)) n, []) := by
  induction digits generalizing n with
  | nil => rfl
  | cons d rest ih =>
    rw [List.foldl_cons] at h ⊢
    rw [takeUp, if_pos ((le_foldl_digits rest _).trans h), ih h]

/-- Rounding at most doubles a bound. -/
theorem nearestDouble_le {n bits : Nat} (h : n < 2 ^ bits) : nearestDouble n ≤ 2 ^ bits * 2 := by
  have hshift : n.log2 + 1 - 53 ≤ bits := by
    by_cases hn : n = 0
    · simp [hn]
    · have hlog := (Nat.log2_lt hn).2 h
      omega
  have hunit : Nat.pow 2 (n.log2 + 1 - 53) ≤ 2 ^ bits := Nat.pow_le_pow_right (by omega) hshift
  unfold nearestDouble
  dsimp only
  generalize Nat.pow 2 (n.log2 + 1 - 53) = unit at hunit ⊢
  have hkept : n / unit * unit ≤ n := Nat.div_mul_le_self n unit
  have hnext : (n / unit + 1) * unit = n / unit * unit + unit := Nat.succ_mul _ _
  split <;> omega

theorem IsWord.fits {n : Numeral} (h : n.IsWord) : n.fits = true := by
  obtain ⟨hfraction, hexponent, hwhole⟩ := h
  have hsmall : digitsValue n.whole < 2 ^ 64 := by
    split at hwhole <;> omega
  have htake : takeUp 0 n.whole = (digitsValue n.whole, []) :=
    takeUp_eq (Nat.le_sub_one_of_lt hsmall)
  have hparts : n.parts = (digitsValue n.whole, 0) := by
    simp [parts, htake, hfraction, hexponent, takeUp]
  have hround := nearestDouble_le hsmall
  have hover : 2 ^ 64 * 2 < overflow := by decide +kernel
  have hone : nearestDouble 1 = 1 := nearestDouble_of_lt (by decide)
  rw [Numeral.fits, hparts]
  simp [maxPower, hone, hround.trans_lt hover]

end Numeral

namespace Json

/-- A value made of null, truth values, texts, integers of 64 bits, arrays and objects. -/
inductive IsData : Json → Prop
  | null : IsData .null
  | bool (b : Bool) : IsData (.bool b)
  | word {n : Numeral} (h : n.IsWord) : IsData (.number n)
  | text (s : String) : IsData (.text s)
  | array {items : List Json} (h : ∀ j ∈ items, IsData j) : IsData (.array items)
  | object {members : List (Option String × Json)} (hkeys : ∀ m ∈ members, m.1.isSome = true)
      (h : ∀ m ∈ members, IsData m.2) : IsData (.object members)

theorem IsData.record {members : List (String × Json)} (h : ∀ m ∈ members, m.2.IsData) :
    (Json.record members).IsData :=
  .object (List.forall_mem_map.2 fun _ _ => rfl) (List.forall_mem_map.2 h)

theorem soundItems_iff {items : List Json} :
    soundItems items = true ↔ ∀ j ∈ items, j.sound = true := by
  induction items with
  | nil => simp [soundItems]
  | cons item rest ih => simp [soundItems, ih]

theorem soundMembers_iff {members : List (Option String × Json)} :
    soundMembers members = true ↔ ∀ m ∈ members, m.1.isSome = true ∧ m.2.sound = true := by
  induction members with
  | nil => simp [soundMembers]
  | cons member rest ih =>
    obtain ⟨key, value⟩ := member
    simp [soundMembers, ih]

theorem depthOfItems_le_iff {items : List Json} {limit : Nat} :
    depthOfItems items ≤ limit ↔ ∀ j ∈ items, j.depth ≤ limit := by
  induction items with
  | nil => simp [depthOfItems]
  | cons item rest ih => simp [depthOfItems, ih]

theorem depthOfMembers_le_iff {members : List (Option String × Json)} {limit : Nat} :
    depthOfMembers members ≤ limit ↔ ∀ m ∈ members, m.2.depth ≤ limit := by
  induction members with
  | nil => simp [depthOfMembers]
  | cons member rest ih =>
    obtain ⟨key, value⟩ := member
    simp [depthOfMembers, ih]

theorem IsData.sound {j : Json} (h : j.IsData) : j.sound = true := by
  induction h with
  | null => rfl
  | bool b => rfl
  | word h => exact h.fits
  | text s => rfl
  | array _ ih => exact soundItems_iff.2 ih
  | object hkeys _ ih => exact soundMembers_iff.2 fun m hm => ⟨hkeys m hm, ih m hm⟩

section Parts

variable {limit : Nat}

theorem readable_iff {j : Json} :
    j.readable limit = true ↔ j.sound = true ∧ j.depth ≤ limit := by
  simp [readable]

theorem readable_of_mem_items {items : List Json} (h : (array items).readable limit = true)
    {j : Json} (hj : j ∈ items) : j.readable limit = true := by
  obtain ⟨hsound, hdepth⟩ := readable_iff.1 h
  have hitem := depthOfItems_le_iff.1 (Nat.le_of_succ_le hdepth) j hj
  exact readable_iff.2 ⟨soundItems_iff.1 hsound j hj, hitem⟩

theorem readable_of_mem_members {members : List (Option String × Json)}
    (h : (object members).readable limit = true) {m : Option String × Json} (hm : m ∈ members) :
    m.2.readable limit = true := by
  obtain ⟨hsound, hdepth⟩ := readable_iff.1 h
  have hvalue := depthOfMembers_le_iff.1 (Nat.le_of_succ_le hdepth) m hm
  exact readable_iff.2 ⟨(soundMembers_iff.1 hsound m hm).2, hvalue⟩

end Parts

end Json

end Playbook
