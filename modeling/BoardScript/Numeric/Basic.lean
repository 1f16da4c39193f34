/-
Numbers as the language has them: doubles, with the names and the choices
between two of them that its functions need.
-/

namespace BoardScript.Numeric

def nan : Float := 0.0 / 0.0

def infinity : Float := 1.0 / 0.0

/-- The larger of two numbers, the second of a tie; what is no number
gives way to the other. -/
def larger (a b : Float) : Float := if a > b || b.isNaN then a else b

/-- The smaller of two numbers, the second of a tie; what is no number
gives way to the other. -/
def smaller (a b : Float) : Float := if a < b || b.isNaN then a else b

/-- The integer next to a number on the side of zero. -/
def towardZero (x : Float) : Float := if x < 0.0 then x.ceil else x.floor

/-- A number to a whole power, by repeated squaring. -/
def wholePower (base : Float) (exponent : Int) : Float :=
  let magnitude := go 64 base exponent.natAbs 1.0
  if exponent < 0 then 1.0 / magnitude else magnitude
where
  go : Nat → Float → Nat → Float → Float
    | 0, _, _, product => product
    | fuel + 1, square, n, product =>
        let product := if n % 2 = 1 then product * square else product
        if n / 2 = 0 then product else go fuel (square * square) (n / 2) product

end BoardScript.Numeric
