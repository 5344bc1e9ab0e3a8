/-!
# Binary floating-point numbers

A number is kept as its 64 bits: a sign, eleven bits of exponent and 52 bits of fraction. A
decimal is read exactly, as a quotient of natural numbers, and rounded once to the nearest
number, ties to the even fraction.
-/

namespace Offside

/-- A 64-bit floating-point number, given by its bits. -/
structure Binary64 where
  bits : UInt64
deriving DecidableEq, Inhabited

namespace Binary64

def infinity : Binary64 := ⟨0x7ff0000000000000⟩

/-- The place of the leading one of a significand, just above the 52 bits of the fraction. -/
def leadingOne : Nat := 0x10000000000000

def isNegative (x : Binary64) : Bool :=
  0x8000000000000000 ≤ x.bits.toNat

def exponentField (x : Binary64) : Nat :=
  x.bits.toNat / leadingOne % 2048

def fractionField (x : Binary64) : Nat :=
  x.bits.toNat % leadingOne

/-- Infinities and NaNs have the largest exponent field. -/
def isFinite (x : Binary64) : Bool :=
  x.exponentField ≠ 2047

/-- A NaN has the largest exponent field and a fraction other than zero. -/
def isNaN (x : Binary64) : Bool :=
  x.exponentField = 2047 && x.fractionField ≠ 0

/-- The significand `m` of the magnitude `m * 2 ^ q` of a finite number. -/
def significand (x : Binary64) : Nat :=
  if x.exponentField = 0 then x.fractionField else x.fractionField + leadingOne

/-- The exponent `q` of the magnitude `m * 2 ^ q` of a finite number. -/
def scale (x : Binary64) : Int :=
  if x.exponentField = 0 then -1074 else x.exponentField - 1075

/-- The natural number nearest to a quotient, ties to even. -/
def roundQuotient (num den : Nat) : Nat :=
  let low := num / den
  let rest := 2 * (num % den)
  if rest < den then low
  else if den < rest then low + 1
  else low + low % 2

/-- The exponent of the largest power of two that is at most a positive quotient. -/
def floorLog (num den : Nat) : Int :=
  let guess : Int := (num.log2 : Int) - den.log2
  let reached :=
    if 0 ≤ guess then den * Nat.pow 2 guess.toNat ≤ num
    else den ≤ num * Nat.pow 2 (-guess).toNat
  if reached then guess else guess - 1

/-- The number nearest to a positive quotient, ties to the even fraction. -/
def ofQuotient (num den : Nat) : Binary64 :=
  let q := max (floorLog num den - 52) (-1074)
  let m := if 0 ≤ q then roundQuotient num (den * Nat.pow 2 q.toNat)
    else roundQuotient (num * Nat.pow 2 (-q).toNat) den
  let field := if m < leadingOne then m else (q + 1074).toNat * leadingOne + m
  if infinity.bits.toNat ≤ field then infinity else ⟨field.toUInt64⟩

/--
The number nearest to `digits * 10 ^ exponent`. A decimal whose leading digit stands far
outside the range of the format is infinite or zero before any power is computed.
-/
def ofDecimal (digits : Nat) (exponent : Int) : Binary64 :=
  let lead : Int := (Nat.toDigits 10 digits).length + exponent
  if digits = 0 || lead < -330 then ⟨0⟩
  else if 320 < lead then infinity
  else if 0 ≤ exponent then ofQuotient (digits * Nat.pow 10 exponent.toNat) 1
  else ofQuotient digits (Nat.pow 10 (-exponent).toNat)

end Binary64

end Offside
