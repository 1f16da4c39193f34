/-
The fewest digits that read back as the same double. A double stands for
every real that rounds to it, an interval around it; of the decimals in
that interval those on the coarsest grid of powers of ten are the
shortest, and of two of those the nearer one is taken, the upper one of a
tie. Candidates are compared exactly, as naturals.
-/
import BoardScript.Numeric.Double

namespace BoardScript.Decimal

/-- A positive decimal: digits times a power of ten. -/
structure Digits where
  digits : Nat
  exponent : Int
deriving Repr, DecidableEq

/-- The reals that round to a double, in units of two to the `unit`: the
double itself and the ends, which belong to it or not. -/
structure Interval where
  value : Nat
  low : Nat
  high : Nat
  unit : Int
  closed : Bool

/-- The interval of the double `mantissa * 2 ^ exponent`. Below a power of
two the next double is nearer. -/
def Interval.of (mantissa : Nat) (exponent : Int) : Interval :=
  { value := 4 * mantissa
    low :=
      if mantissa = Numeric.hiddenBit ∧ exponent > Numeric.leastExponent then 4 * mantissa - 1
      else 4 * mantissa - 2
    high := 4 * mantissa + 2
    unit := exponent - 2
    closed := mantissa % 2 = 0 }

/-- The best multiple of `10 ^ place` in an interval, if there is one. -/
def Interval.onGrid (i : Interval) (place : Int) : Option Digits :=
  -- both sides of every comparison are brought to whole numbers
  let scale := twoTo i.unit.toNat * tenTo (-place).toNat
  let step := tenTo place.toNat * twoTo (-i.unit).toNat
  let value := i.value * scale
  let below := value / step
  let within (d : Nat) : Bool :=
    let x := d * step
    let lo := i.low * scale
    let hi := i.high * scale
    if i.closed then lo ≤ x && x ≤ hi else lo < x && x < hi
  let lower := within below
  let upper := within (below + 1)
  if upper && (!lower || 2 * (value - below * step) ≥ step) then some ⟨below + 1, place⟩
  else if lower then some ⟨below, place⟩
  else none

/-- The first hit on ever finer grids. -/
def Interval.search (i : Interval) : (grids : Nat) → (place : Int) → Digits
  | 0, place => ⟨i.value, place⟩
  | grids + 1, place =>
      match i.onGrid place with
      | some found => found
      | none => i.search grids (place - 1)

/-- Takes trailing zeros off the digits. -/
def Digits.trim (d : Digits) : Digits := go 400 d
where
  go : Nat → Digits → Digits
    | 0, d => d
    | fuel + 1, d =>
        if d.digits ≠ 0 ∧ d.digits % 10 = 0 then go fuel ⟨d.digits / 10, d.exponent + 1⟩ else d

/-- The shortest digits for the double `mantissa * 2 ^ exponent`. The
search starts on a grid too coarse to hold it and seventeen digits are
always enough. -/
def shortest (mantissa : Nat) (exponent : Int) : Digits :=
  let i := Interval.of mantissa exponent
  let size : Int := (i.value.log2 : Int) + i.unit
  (i.search 24 (Int.fdiv (size * 30103) 100000 + 2)).trim

/-- The digits in positional notation, however large or small. -/
def Digits.positional (d : Digits) : String :=
  let digits := Nat.toDigits 10 d.digits
  if d.exponent ≥ 0 then String.ofList (digits ++ List.replicate d.exponent.toNat '0')
  else
    let places := (-d.exponent).toNat
    if places < digits.length then
      String.ofList (digits.take (digits.length - places) ++ '.' :: digits.drop (digits.length - places))
    else String.ofList ('0' :: '.' :: List.replicate (places - digits.length) '0' ++ digits)

-- ================================================================ writing

/-- What a way of writing numbers decides: the name of infinity, and
whether a negative zero shows its sign. -/
structure Style where
  infinity : String
  signedZero : Bool

/-- How the language itself writes numbers. -/
def Style.language : Style := ⟨"Infinity", false⟩

/-- How measured numbers are written, zeros told apart. -/
def Style.exact : Style := ⟨"Infinity", true⟩

/-- How code listings write number constants. -/
def Style.listing : Style := ⟨"inf", true⟩

/-- A number in a style: the shortest digits that read back, never with an
exponent. -/
def Style.write (style : Style) (x : Float) : String :=
  let minus (negative : Bool) : String := if negative then "-" else ""
  match Numeric.parts x with
  | .nan => "NaN"
  | .infinite negative => minus negative ++ style.infinity
  | .zero negative => minus (negative && style.signedZero) ++ "0"
  | .finite negative mantissa exponent =>
      minus negative ++ (shortest mantissa exponent).positional

end BoardScript.Decimal
