/-
Doubles taken apart: a finite one is an integer times a power of two, with
a sign. Whatever works on doubles exactly works on these parts.
-/

namespace BoardScript

/-- A power of two. -/
def twoTo (n : Nat) : Nat := Nat.pow 2 n

/-- A power of ten. -/
def tenTo (n : Nat) : Nat := Nat.pow 10 n

namespace Numeric

/-- What a double holds: nothing, an infinity, a zero, or
`mantissa * 2 ^ exponent`. -/
inductive Parts where
  | nan
  | infinite (negative : Bool)
  | zero (negative : Bool)
  | finite (negative : Bool) (mantissa : Nat) (exponent : Int)
deriving Repr, DecidableEq

/-- The bit that a mantissa of full width starts with. -/
def hiddenBit : Nat := twoTo 52

/-- The exponent of the smallest doubles. -/
def leastExponent : Int := -1074

/-- Takes a double apart by its bits. -/
def partsOfBits (bits : Nat) : Parts :=
  let negative : Bool := bits / twoTo 63 = 1
  let field := bits / twoTo 52 % twoTo 11
  let fraction := bits % twoTo 52
  if field = 2047 then
    if fraction = 0 then .infinite negative else .nan
  else if field = 0 then
    if fraction = 0 then .zero negative else .finite negative fraction leastExponent
  else .finite negative (fraction + hiddenBit) ((field : Int) - 1 + leastExponent)

/-- Takes a double apart. -/
def parts (x : Float) : Parts := partsOfBits x.toBits.toNat

/-- The double with some bits and a sign. -/
def signed (negative : Bool) (bits : UInt64) : Float :=
  Float.ofBits (if negative then bits ||| 0x8000000000000000 else bits)

end Numeric

end BoardScript
