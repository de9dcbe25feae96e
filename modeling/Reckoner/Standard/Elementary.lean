/-!
Elementary functions that are put together from others.
-/
namespace Reckoner

namespace Elementary

/-- `ln (1 + x)`. Where `1 + x` rounds, the logarithm is scaled by what the rounding changed. -/
def logOnePlus (x : Float) : Float :=
  let u := 1.0 + x
  if u == 1.0 then
    x
  else if x.isInf then
    Float.log u
  else
    Float.log u * (x / (u - 1.0))

/-- The inverse hyperbolic tangent: half of `ln (1 + 2x / (1 - x))`. -/
def atanh (x : Float) : Float :=
  0.5 * logOnePlus (2.0 * x / (1.0 - x))

end Elementary

end Reckoner
