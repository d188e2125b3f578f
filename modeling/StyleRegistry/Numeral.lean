import StyleRegistry.Bytes

/-! # Numerals

Positional numerals as bytes: base 32 with digits `0`-`9`, `a`-`v` for hashes
and node ids, base 10 for numbers. Zero is the single digit `0`, and no other
numeral starts with it. -/
namespace StyleRegistry.Numeral

/-- The byte of a digit below 36. -/
def digit (d : Nat) : UInt8 := if d < 10 then (48 + d).toUInt8 else (87 + d).toUInt8

/-- The digits of `n`, most significant first, in front of `tail`; none for
zero. Each step divides by at least two, so `n` steps are more than enough. -/
def digits (base : Nat) : Nat → Nat → List Nat → List Nat
  | 0, _, tail => tail
  | steps + 1, n, tail =>
    if n = 0 then tail else digits base steps (n / base) (n % base :: tail)

def ofNat (base n : Nat) : Bytes :=
  if n = 0 then [digit 0] else (digits base n n []).map digit

def decimal (n : Nat) : Bytes := ofNat 10 n

def base32 (n : Nat) : Bytes := ofNat 32 n

end StyleRegistry.Numeral
