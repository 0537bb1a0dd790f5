/-!
# Decimal fractions and their written form

A decimal is a coefficient, a power of ten and a sign, kept exactly. It is written with
the fewest digits: positionally with at least one digit after the point where the point
falls near the digits, and with an exponent elsewhere.
-/

namespace PatternAutomata.Json

/-- The number `±coefficient · 10 ^ exponent`. -/
structure Decimal where
  negative : Bool
  coefficient : Nat
  exponent : Int
  deriving DecidableEq

namespace Decimal

/-- The digits of a number to base ten. -/
def digits (n : Nat) : List Char := Nat.toDigits 10 n

/-- The least coefficient of the same number, with its exponent. -/
def stripZeros (coefficient : Nat) (exponent : Int) : Nat × Int :=
  if coefficient = 0 then (0, 0)
  else if coefficient % 10 = 0 then stripZeros (coefficient / 10) (exponent + 1)
  else (coefficient, exponent)
termination_by coefficient
decreasing_by omega

/-- So many zeros. -/
def zeros (n : Nat) : List Char := List.replicate n '0'

/-- The farthest place of the point after the first digit in positional notation. -/
def maxPointPlace : Int := 16

/-- The farthest place of the point before the first digit in positional notation. -/
def minPointPlace : Int := -4

/-- Digits with a point after `place` of them. -/
def positional (ds : List Char) (place : Int) : List Char :=
  if place ≤ 0 then '0' :: '.' :: (zeros (-place).toNat ++ ds)
  else if ds.length ≤ place.toNat then ds ++ zeros (place.toNat - ds.length) ++ ['.', '0']
  else ds.take place.toNat ++ '.' :: ds.drop place.toNat

/-- A number in decimal digits with its sign. -/
def signedDigits (n : Int) : List Char :=
  if n < 0 then '-' :: digits n.natAbs else digits n.natAbs

/-- Digits with a point after the first of them and an exponent. -/
def scientific (ds : List Char) (place : Int) : List Char :=
  let mantissa := match ds with
    | d :: e :: rest => d :: '.' :: e :: rest
    | ds => ds
  mantissa ++ 'e' :: signedDigits (place - 1)

/-- The magnitude of a decimal as it is written. -/
def magnitude (d : Decimal) : List Char :=
  let (coefficient, exponent) := stripZeros d.coefficient d.exponent
  let ds := digits coefficient
  let place := ds.length + exponent
  if coefficient = 0 then positional ds 1
  else if minPointPlace ≤ place ∧ place ≤ maxPointPlace then positional ds place
  else scientific ds place

/-- A decimal as it is written. -/
def write (d : Decimal) : List Char :=
  if d.negative then '-' :: d.magnitude else d.magnitude

/-- The least magnitude that lies beyond the range of double precision. -/
def rangeLimit : Nat := (1 <<< 1024) - (1 <<< 970)

/-- The number of digits before the point of the numbers around `rangeLimit`. -/
def limitPlace : Int := 309

/-- The magnitude lies in the range of double precision. -/
def inRange (d : Decimal) : Bool :=
  let place := (digits d.coefficient).length + d.exponent
  if d.coefficient = 0 ∨ place < limitPlace then true
  else if limitPlace < place then false
  else d.coefficient * Nat.pow 10 d.exponent.toNat < rangeLimit * Nat.pow 10 (-d.exponent).toNat

end Decimal

end PatternAutomata.Json
