/-!
# Numbers in JSON texts

A `Numeral` is a number as it is written.  What matters of its value is whether it is a natural
number, and whether it is finite in double precision.  The latter is decided as the number is read:
its leading digits make an integer of 64 bits, which is scaled by a power of ten, and each of the
two factors and their product are rounded.  So it is exact for short numbers, but next to the
largest finite value it can differ from rounding the number itself.
-/

namespace Playbook

/-- A number as it is written. -/
structure Numeral where
  negative : Bool
  /-- The digits before the point. -/
  whole : List Char
  /-- The digits after the point; none if there is no point. -/
  fraction : List Char
  /-- The power of ten after `e`, if it is written. -/
  exponent : Option Int
  deriving DecidableEq, Repr

namespace Numeral

/-- The number that a list of decimal digits stands for. -/
def digitsValue (digits : List Char) : Nat :=
  digits.foldl (fun n d => 10 * n + (d.toNat - '0'.toNat)) 0

/-- The natural number that is written with digits alone. -/
def natural? (n : Numeral) : Option Nat :=
  if n.negative || !n.fraction.isEmpty || n.exponent.isSome then none
  else some (digitsValue n.whole)

/-- The largest number that is taken up digit by digit. -/
def significandLimit : Nat := Nat.pow 2 64 - 1

/-- Appends digits to a number as long as it stays within the limit: the number, and the digits that
are left. -/
def takeUp (n : Nat) : List Char → Nat × List Char
  | [] => (n, [])
  | d :: rest =>
    let next := 10 * n + (d.toNat - '0'.toNat)
    if next ≤ significandLimit then takeUp next rest else (n, d :: rest)

/-- A number as an integer of limited size times a power of ten.  Digits before the point that are
not taken up raise the power, those after it are left out. -/
def parts (n : Numeral) : Nat × Int :=
  let (whole, dropped) := takeUp 0 n.whole
  let (significand, unused) := takeUp whole n.fraction
  let places : Int := n.fraction.length - unused.length
  (significand, n.exponent.getD 0 + dropped.length - places)

/-- The nearest natural number with at most 53 significant bits, and of two the even one. -/
def nearestDouble (n : Nat) : Nat :=
  let shift := n.log2 + 1 - 53
  let unit := Nat.pow 2 shift
  let kept := n / unit
  let lost := 2 * (n % unit)
  if unit < lost || (lost == unit && kept % 2 == 1) then (kept + 1) * unit else kept * unit

/-- Numbers of up to 53 bits are exact. -/
theorem nearestDouble_of_lt {n : Nat} (h : n < Nat.pow 2 53) : nearestDouble n = n := by
  have hs : n.log2 + 1 - 53 = 0 := by
    by_cases hn : n = 0
    · simp [hn]
    · have := (Nat.log2_lt hn).2 h
      omega
  simp [nearestDouble, hs, Nat.mod_one]

/-- The least product that is not rounded to a finite double-precision value: half a unit above the
largest one. -/
def overflow : Nat := Nat.pow 2 1024 - Nat.pow 2 970

/-- The largest power of ten with a finite double-precision value. -/
def maxPower : Nat := 308

/-- Whether the double-precision value of a number is finite.  Its two parts are rounded before they
are multiplied, so the product can be too large even if the number itself is not. -/
def fits (n : Numeral) : Bool :=
  let (significand, power) := n.parts
  if significand = 0 || power < 0 then true
  else if maxPower < power then false
  else nearestDouble significand * nearestDouble (Nat.pow 10 power.toNat) < overflow

end Numeral

end Playbook
