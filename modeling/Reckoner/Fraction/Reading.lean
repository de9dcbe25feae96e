import Reckoner.Fraction

/-!
The decimal reading of a fraction: sign, whole part, and fractional digits up to a budget of
significant ones. Zeros ahead of the first other digit cost nothing. A reading says whether it is
exact, that is whether the long division came to an end.
-/
namespace Reckoner

/-- A decimal text and whether it denotes the fraction exactly. -/
structure Reading where
  text : String
  exact : Bool
deriving DecidableEq, Repr

namespace Reading

/-- `= 0.25` for an exact reading, `=~ 0.333...` for one that was cut. -/
def display (r : Reading) : String :=
  if r.exact then "= " ++ r.text else "=~ " ++ r.text ++ "..."

end Reading

namespace Fraction

variable {w : Nat}

/--
Long division of the remainder `n` by `d`: the digits, and the remainder that is left. It stops
when nothing is left, when `budget` significant digits are written, or when ten times the remainder
does not fit. `begun` says whether a digit other than zero has been written. While none has, each
step multiplies the remainder by ten, so there are fewer than `w` such steps and `steps` may be
`budget + w`.
-/
def expand (d : BitVec w) : (steps budget : Nat) → (begun : Bool) → (n : BitVec w) →
    Checked (List (BitVec w) × BitVec w)
  | 0, _, _, n => return ([], n)
  | _ + 1, 0, _, n => return ([], n)
  | steps + 1, budget + 1, begun, n => do
    if n = 0#w then
      return ([], n)
    let (next, wrapped) ← Checked.apart (Word.mul n 10#w)
    if wrapped then
      return ([], n)
    let digit ← Word.quotient next d
    let rest ← Word.difference next (← Word.product digit d)
    let begun := begun || decide (digit ≠ 0#w)
    let (digits, last) ← expand d steps (if begun then budget else budget + 1) begun rest
    return (digit :: digits, last)

/-- The decimal reading with at most `budget` significant fractional digits. -/
def readDecimal (f : Fraction w) (budget : Nat) : Checked Reading := do
  let (f, _) ← Checked.apart f.normalize
  if f.den = 0#w then
    return ⟨"NaN", false⟩
  if f.den = 1#w then
    return ⟨toString f.num.toInt, true⟩
  let whole ← Word.quotient f.num f.den
  let rest ← Word.remainder f.num f.den
  let negative := f.num.slt 0#w
  let whole ← if negative then Word.opposite whole else pure whole
  let rest ← if negative then Word.opposite rest else pure rest
  let head := (if negative then "-" else "") ++ toString whole.toInt
  if rest = 0#w then
    return ⟨head, true⟩
  let (digits, last) ← expand f.den (budget + w) budget false rest
  return ⟨head ++ "." ++ String.join (digits.map fun d => toString d.toInt), decide (last = 0#w)⟩

/-- The decimal reading, without the report on its arithmetic. -/
def reading (f : Fraction w) (budget : Nat) : Reading :=
  (f.readDecimal budget).result

example : (reading (w := 64) ⟨-1, 8⟩ 8).display = "= -0.125" := by decide +kernel

example : (reading (w := 64) ⟨1, 300⟩ 4).display = "=~ 0.003333..." := by decide +kernel

end Fraction

end Reckoner
