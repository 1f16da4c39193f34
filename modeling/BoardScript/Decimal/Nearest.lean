/-
From a decimal to the nearest double. A positive rational is measured
against powers of two, its quotient by the weight of the last bit that a
double of that size has is rounded, a half to the even neighbour, and the
bits are put together. All of it is exact arithmetic on naturals.
-/
import BoardScript.Numeric.Double

namespace BoardScript.Decimal

/-- The quotient rounded to the nearest integer, a half to the even one. -/
def roundDiv (num den : Nat) : Nat :=
  let quotient := num / den
  let rest := num % den
  if 2 * rest < den then quotient
  else if 2 * rest > den then quotient + 1
  else quotient + quotient % 2

/-- The exponent `e` with `2 ^ e ≤ num / den < 2 ^ (e + 1)`. -/
def binaryExponent (num den : Nat) : Int :=
  let guess : Int := (num.log2 : Int) - (den.log2 : Int)
  let atLeast : Bool :=
    if guess ≥ 0 then den * twoTo guess.toNat ≤ num else den ≤ num * twoTo (-guess).toNat
  if atLeast then guess else guess - 1

/-- The bits of the double nearest to a positive rational. -/
def nearestBits (num den : Nat) : UInt64 :=
  let weight : Int := max (binaryExponent num den - 52) Numeric.leastExponent
  let mantissa :=
    if weight ≥ 0 then roundDiv num (den * twoTo weight.toNat)
    else roundDiv (num * twoTo (-weight).toNat) den
  let bits :=
    if mantissa < Numeric.hiddenBit then mantissa
    else (weight + 1 - Numeric.leastExponent).toNat * twoTo 52 + (mantissa - Numeric.hiddenBit)
  (min bits 0x7ff0000000000000).toUInt64

/-- The double nearest to `digits * 10 ^ exponent`. Far outside the range
of doubles the answer is known from the number of digits alone. -/
def toFloat (negative : Bool) (digits : Nat) (exponent : Int) : Float :=
  let size : Int := (Nat.toDigits 10 digits).length + exponent
  let bits : UInt64 :=
    if digits = 0 ∨ size < -400 then 0
    else if size > 400 then 0x7ff0000000000000
    else if exponent ≥ 0 then nearestBits (digits * tenTo exponent.toNat) 1
    else nearestBits digits (tenTo (-exponent).toNat)
  Numeric.signed negative bits

-- ================================================================ reading

/-- The value of a run of decimal digits. -/
def natOfDigits (cs : List Char) : Nat :=
  cs.foldl (fun value c => value * 10 + (c.toNat - '0'.toNat)) 0

/-- An exponent behind its mark: a sign and at least one digit. -/
def readExponent (cs : List Char) : Option Int :=
  let (negative, digits) := match cs with
    | '-' :: rest => (true, rest)
    | '+' :: rest => (false, rest)
    | _ => (false, cs)
  if digits.isEmpty || !digits.all Char.isDigit then none
  else
    let value : Int := natOfDigits digits
    some (if negative then -value else value)

/-- A decimal without its sign: digits with at most one point among them,
then perhaps an exponent. -/
def readMagnitude (negative : Bool) (cs : List Char) : Option Float := do
  let whole := cs.takeWhile Char.isDigit
  let rest := cs.dropWhile Char.isDigit
  let (fraction, rest) := match rest with
    | '.' :: more => (more.takeWhile Char.isDigit, more.dropWhile Char.isDigit)
    | _ => ([], rest)
  if whole.isEmpty && fraction.isEmpty then none
  else
    let exponent ← match rest with
      | [] => some 0
      | c :: more => if c = 'e' ∨ c = 'E' then readExponent more else none
    return toFloat negative (natOfDigits (whole ++ fraction)) (exponent - fraction.length)

/-- The number a text stands for: a decimal, or a name of infinity or of
no number in any case of letters, with an optional sign. -/
def read? (text : String) : Option Float :=
  let (negative, cs) := match text.toList with
    | '-' :: rest => (true, rest)
    | '+' :: rest => (false, rest)
    | cs => (false, cs)
  let name := String.ofList (cs.map Char.toLower)
  let signed (x : Float) : Float := if negative then -x else x
  if name = "inf" ∨ name = "infinity" then some (signed (1.0 / 0.0))
  else if name = "nan" then some (0.0 / 0.0)
  else readMagnitude negative cs

end BoardScript.Decimal
