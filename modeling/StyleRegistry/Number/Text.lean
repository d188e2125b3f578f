import StyleRegistry.Number.Decimal

/-! # Numbers as text

A whole number below 10^21 is written in full. Any other finite number is
written with the fewest digits whose rounding reads back, positional from
10^-6 up to 10^21 and with a power of ten outside. -/
namespace StyleRegistry.Number

open Bytes (ascii)

def isWhole (x : Binary64) : Bool :=
  x.magnitude % Binary64.one == 0 && x.magnitude < Nat.pow 10 21 * Binary64.one

/-- The places written positionally, for the first digit. -/
def isPositional (place : Int) : Bool := -6 ≤ place && place ≤ 20

def digitText (ds : List Nat) : Bytes := ds.map Numeral.digit

/-- Digits before and after the point; no point where none follow it. -/
def pointed (whole rest : List Nat) : Bytes :=
  if rest.isEmpty then digitText whole else digitText whole ++ ascii "." ++ digitText rest

/-- The digits `ds`, the first of which counts 10^`place`, positionally. -/
def positional (ds : List Nat) (place : Int) : Bytes :=
  if place < 0 then pointed [0] (List.replicate ((-place).toNat - 1) 0 ++ ds)
  else
    let whole := place.toNat + 1
    pointed (ds.take whole ++ List.replicate (whole - ds.length) 0) (ds.drop whole)

/-- One digit before the point and a signed power of ten. -/
def scientific (ds : List Nat) (place : Int) : Bytes :=
  pointed (ds.take 1) (ds.drop 1) ++ ascii (if place < 0 then "e-" else "e+")
    ++ Numeral.decimal place.natAbs

def decimalText (d : Decimal) : Bytes :=
  if isPositional d.place then positional d.significant d.place
  else scientific d.significant d.place

def magnitudeText (x : Binary64) : Bytes :=
  if isWhole x then Numeral.decimal (x.magnitude / Binary64.one)
  else decimalText (Decimal.roundTrip x)

def text (x : Binary64) : Bytes :=
  if x.isNaN then ascii "NaN"
  else if x.isInfinite then ascii (if x.negative then "-Infinity" else "Infinity")
  else if x.magnitude = 0 then ascii "0"
  else if x.negative then ascii "-" ++ magnitudeText x
  else magnitudeText x

end StyleRegistry.Number
