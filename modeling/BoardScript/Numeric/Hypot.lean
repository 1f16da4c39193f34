/-
The distance of a point from the origin, without overflow on the way and
with the rounding error of the plain formula taken off again.
-/
import BoardScript.Numeric.Basic

namespace BoardScript.Numeric

/-- The square root of the sum of two squares, the larger square first,
with one step of correction. The operands must be neither very large nor
very small. -/
def hypotKernel (ax ay : Float) : Float :=
  let h := (ax * ax + ay * ay).sqrt
  let (t1, t2) :=
    if h <= 2.0 * ay then
      let delta := h - ay
      (ax * (2.0 * delta - ax), (delta - 2.0 * (ax - ay)) * delta)
    else
      let delta := h - ax
      (2.0 * delta * (ax - 2.0 * ay), (4.0 * delta - ay) * ay + delta * delta)
  h - (t1 + t2) / (2.0 * h)

/-- The distance of a point from the origin. Very large and very small
coordinates are brought into the middle of the range first, and a
coordinate too small to matter is added once. -/
def hypot (x y : Float) : Float :=
  if x.isInf || y.isInf then infinity
  else if x.isNaN || y.isNaN then nan
  else
    let x := x.abs
    let y := y.abs
    let ax := if x < y then y else x
    let ay := if x < y then x else y
    let tiny : Float := Float.ofBits 0x3c90000000000000   -- 2 ^ -54
    let large : Float := Float.ofBits 0x5fe0000000000000  -- 2 ^ 511
    let small : Float := Float.ofBits 0x2340000000000000  -- 2 ^ -459
    let up : Float := Float.ofBits 0x6570000000000000     -- 2 ^ 600
    let down : Float := Float.ofBits 0x1a70000000000000   -- 2 ^ -600
    if ax > large then
      if ay <= ax * tiny then ax + ay
      else hypotKernel (ax * down) (ay * down) / down
    else if ay < small then
      if ax >= ay / tiny then ax + ay
      else hypotKernel (ax * up) (ay * up) / up
    else if ay <= ax * tiny then ax + ay
    else hypotKernel ax ay

end BoardScript.Numeric
