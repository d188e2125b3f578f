import StyleRegistry.Numeral
import StyleRegistry.Number.Binary64

/-! # Decimals near a number

Which decimals read back as a given binary number, and the nearest decimal
with a given count of significant digits. All comparisons are between exact
integers. -/
namespace StyleRegistry

/-- The number `coefficient` · 10^`scale`. -/
structure Decimal where
  coefficient : Nat
  scale : Int
  deriving DecidableEq, Repr

namespace Decimal

def digits (d : Decimal) : List Nat := Numeral.digits 10 d.coefficient d.coefficient []

/-- The power of ten that the first digit counts. -/
def place (d : Decimal) : Int := d.scale + d.digits.length - 1

/-- The digits without the zeros at their end. -/
def significant (d : Decimal) : List Nat := (d.digits.reverse.dropWhile (· == 0)).reverse

/-! ## Rounding -/

/-- The integer nearest to `num / den`; a half goes to the even neighbour. -/
def roundDiv (num den : Nat) : Nat :=
  let quotient := num / den
  let twice := 2 * (num % den)
  if twice < den ∨ twice = den ∧ quotient % 2 = 0 then quotient else quotient + 1

/-- The power of ten that the first digit of a positive fraction below one
counts: one place down for each of the first `steps` multiplications by ten
that leave it below one. -/
def placeBelowOne (den : Nat) : Nat → Nat → Int
  | 0, _ => -1
  | steps + 1, num => if den ≤ 10 * num then -1 else placeBelowOne den steps (10 * num) - 1

/-- The power of ten that the first digit of the number counts. The least
positive number is above 10^-324. -/
def leadingPlace (x : Binary64) : Int :=
  if Binary64.one ≤ x.magnitude then place ⟨x.magnitude / Binary64.one, 0⟩
  else placeBelowOne Binary64.one 323 x.magnitude

/-- The decimal on the grid 10^`scale` nearest to the number's magnitude. -/
def nearest (x : Binary64) (scale : Int) : Decimal :=
  if 0 ≤ scale then ⟨roundDiv x.magnitude (Binary64.one * Nat.pow 10 scale.toNat), scale⟩
  else ⟨roundDiv (x.magnitude * Nat.pow 10 (-scale).toNat) Binary64.one, scale⟩

/-- The magnitude rounded to `precision` significant digits. -/
def rounded (x : Binary64) (precision : Nat) : Decimal :=
  nearest x (leadingPlace x - precision + 1)

/-! ## Reading back -/

/-- Compares a decimal with `quarters` quarters of the least positive number. -/
def compareQuarters (d : Decimal) (quarters : Nat) : Ordering :=
  if 0 ≤ d.scale then compare (d.coefficient * Nat.pow 10 d.scale.toNat * (4 * Binary64.one)) quarters
  else compare (d.coefficient * (4 * Binary64.one)) (quarters * Nat.pow 10 (-d.scale).toNat)

/-- A decimal reads back as the number if it lies nearer to its magnitude than
to any other. The ends of that interval halve the way to the neighbours; a
decimal on an end goes to the even significand. -/
def readsBack (d : Decimal) (x : Binary64) : Bool :=
  let low := d.compareQuarters (4 * x.magnitude - 2 * x.ulpBelow)
  let high := d.compareQuarters (4 * x.magnitude + 2 * x.ulp)
  if x.significand % 2 = 0 then low != .lt && high != .gt else low == .gt && high == .lt

/-- The first of the roundings to 1, 2, ..., 17 digits that reads back. The
search starts at `precision` and takes 17 digits without a test. -/
def searchFrom (x : Binary64) : Nat → Nat → Decimal
  | 0, precision => rounded x precision
  | left + 1, precision =>
    if (rounded x precision).readsBack x then rounded x precision
    else searchFrom x left (precision + 1)

def roundTrip (x : Binary64) : Decimal := searchFrom x 16 1

end Decimal
end StyleRegistry
