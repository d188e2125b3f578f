/-! # Binary floating-point numbers

A number of the binary64 format, kept as its 64 bits and read with exact
integers. Every finite one is a whole multiple of the least positive one,
2^-1074, so magnitudes are natural numbers in that unit. -/
namespace StyleRegistry

structure Binary64 where
  bits : UInt64
  deriving DecidableEq, Repr

namespace Binary64

/-! ## The three fields -/

def negative (x : Binary64) : Bool := Nat.pow 2 63 ≤ x.bits.toNat

def exponent (x : Binary64) : Nat := x.bits.toNat / Nat.pow 2 52 % Nat.pow 2 11

def fraction (x : Binary64) : Nat := x.bits.toNat % Nat.pow 2 52

def isNaN (x : Binary64) : Bool := x.exponent == 2047 && x.fraction != 0

def isInfinite (x : Binary64) : Bool := x.exponent == 2047 && x.fraction == 0

/-! ## Exact magnitude -/

/-- How many times the least positive number goes into one. -/
def one : Nat := Nat.pow 2 1074

def significand (x : Binary64) : Nat :=
  if x.exponent = 0 then x.fraction else Nat.pow 2 52 + x.fraction

/-- The distance to the next larger magnitude of the same exponent. -/
def ulp (x : Binary64) : Nat := Nat.pow 2 (x.exponent - 1)

/-- The absolute value in units of the least positive number. An infinity has
a magnitude of its own above all finite ones. -/
def magnitude (x : Binary64) : Nat := x.significand * x.ulp

def units (x : Binary64) : Int := if x.negative then -x.magnitude else x.magnitude

/-- Numerical equality: a NaN differs from everything and the zeros agree. -/
def numEq (x y : Binary64) : Bool := !x.isNaN && !y.isNaN && x.units == y.units

/-- Below a power of two the numbers lie twice as close as above it. -/
def ulpBelow (x : Binary64) : Nat :=
  if x.fraction = 0 ∧ 1 < x.exponent then x.ulp / 2 else x.ulp

/-! ## Whole numbers -/

/-- The number equal to `i`, for integers of at most 53 bits. -/
def ofInt (i : Int) : Binary64 :=
  let n := i.natAbs
  let sign := if i < 0 then Nat.pow 2 63 else 0
  if n = 0 then ⟨0⟩
  else ⟨(sign + (1022 + n.log2) * Nat.pow 2 52 + n * Nat.pow 2 (52 - n.log2)).toUInt64⟩

end Binary64
end StyleRegistry
