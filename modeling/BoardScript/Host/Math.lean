/-
The table of mathematical functions. Each takes any number of numbers; an
argument that is missing is no number.
-/
import BoardScript.Numeric.CubeRoot
import BoardScript.Numeric.Hypot

namespace BoardScript

/-- A function of the table. -/
inductive MathFunction where
  | sin
  | cos
  | tan
  | asin
  | acos
  | atan
  | atan2
  | sqrt
  | cbrt
  | abs
  | exp
  | pow
  | floor
  | ceil
  | round
  | sign
  | hypot
  | min
  | max
deriving Repr, DecidableEq

namespace MathFunction

def name : MathFunction → String
  | sin => "sin"
  | cos => "cos"
  | tan => "tan"
  | asin => "asin"
  | acos => "acos"
  | atan => "atan"
  | atan2 => "atan2"
  | sqrt => "sqrt"
  | cbrt => "cbrt"
  | abs => "abs"
  | exp => "exp"
  | pow => "pow"
  | floor => "floor"
  | ceil => "ceil"
  | round => "round"
  | sign => "sign"
  | hypot => "hypot"
  | min => "min"
  | max => "max"

def all : List MathFunction :=
  [sin, cos, tan, asin, acos, atan, atan2, sqrt, cbrt, abs, exp, pow, floor, ceil, round, sign,
   hypot, min, max]

/-- The function called `name`, if the table has one. -/
def ofName? (name : String) : Option MathFunction := all.find? (·.name == name)

/-- The value of a function. -/
def apply (f : MathFunction) (args : List Float) : Float :=
  let x := args.getD 0 Numeric.nan
  let y := args.getD 1 Numeric.nan
  match f with
  | sin => x.sin
  | cos => x.cos
  | tan => x.tan
  | asin => x.asin
  | acos => x.acos
  | atan => x.atan
  | atan2 => Float.atan2 x y
  | sqrt => x.sqrt
  | cbrt => Numeric.cubeRoot x
  | abs => x.abs
  | exp => x.exp
  | pow => Float.pow x y
  | floor => x.floor
  | ceil => x.ceil
  -- halves go up
  | round => (x + 0.5).floor
  | sign => if x == 0.0 || x.isNaN then x else if x < 0.0 then -1.0 else 1.0
  -- the sum starts from the zero that no addition changes
  | hypot => (args.foldl (fun sum v => sum + v * v) (-0.0)).sqrt
  | min => args.foldl Numeric.smaller Numeric.infinity
  | max => args.foldl Numeric.larger (-Numeric.infinity)

end MathFunction

end BoardScript
