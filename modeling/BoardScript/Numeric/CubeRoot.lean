/-
Cube roots, rounded once. The number is an integer times a power of two;
shifted by a multiple of three bits that leaves some seventy bits in the
root, its root is found among the integers, bit by bit, and one more bit
tells whether anything was left over. Rounding that to a double is
rounding the root itself.
-/
import BoardScript.Decimal.Nearest

namespace BoardScript.Numeric

/-- Adds to a root every bit below `bits` that leaves its cube at most `n`,
the highest first. -/
def growRoot (n : Nat) : (bits : Nat) → (root : Nat) → Nat
  | 0, root => root
  | bit + 1, root =>
      let larger := root + twoTo bit
      growRoot n bit (if larger * larger * larger ≤ n then larger else root)

/-- The largest integer whose cube is at most `n`. -/
def integerCubeRoot (n : Nat) : Nat := growRoot n (n.log2 / 3 + 1) 0

/-- The double nearest to the cube root of `mantissa * 2 ^ exponent`. -/
def cubeRootBits (mantissa : Nat) (exponent : Int) : UInt64 :=
  let size : Int := (mantissa.log2 : Int) + exponent
  let shift : Int := 72 - Int.fdiv size 3
  let n := mantissa * twoTo (exponent + 3 * shift).toNat
  let root := integerCubeRoot n
  let doubled := 2 * root + (if root * root * root = n then 0 else 1)
  if shift + 1 ≥ 0 then Decimal.nearestBits doubled (twoTo (shift + 1).toNat)
  else Decimal.nearestBits (doubled * twoTo (-(shift + 1)).toNat) 1

/-- The cube root. Zeros, infinities and what is no number are their own. -/
def cubeRoot (x : Float) : Float :=
  match parts x with
  | .finite negative mantissa exponent => signed negative (cubeRootBits mantissa exponent)
  | _ => x

end BoardScript.Numeric
