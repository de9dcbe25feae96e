import Reckoner.Word

/-!
Fractions of signed words.

A fraction is a raw pair of words. `normalize` brings it to lowest terms with a positive
denominator, or to the invalid fraction `0/0`. The four operations work on raw pairs, wrap where a
term does not fit, and normalize what they get.
-/
namespace Reckoner

/-- The pair `num / den`, in any form. -/
structure Fraction (w : Nat) where
  num : BitVec w
  den : BitVec w
deriving DecidableEq, Repr

namespace Fraction

variable {w : Nat}

/-- The fraction that stands for no number, `0/0`. -/
def invalid : Fraction w :=
  ⟨0#w, 0#w⟩

instance : Inhabited (Fraction w) :=
  ⟨invalid⟩

/-- The whole number `n`, as `n/1`. -/
def ofWord (n : BitVec w) : Fraction w :=
  ⟨n, 1#w⟩

/-- The denominator is not zero. -/
def isValid (f : Fraction w) : Bool :=
  decide (f.den ≠ 0#w)

/-- The denominator is one. -/
def isInteger (f : Fraction w) : Bool :=
  decide (f.den = 1#w)

/-- The fraction with the numerator's sign changed, wrapped. -/
def neg (f : Fraction w) : Fraction w :=
  ⟨-f.num, f.den⟩

/-- `num/den` in decimal digits. -/
def text (f : Fraction w) : String :=
  toString f.num.toInt ++ "/" ++ toString f.den.toInt

/--
Lowest terms with a positive denominator. A zero denominator gives the invalid fraction; so does a
form whose sign cannot move to the numerator, which also overflows.
-/
def normalize (f : Fraction w) : Checked (Fraction w) := do
  if f.den = 0#w then
    return invalid
  let g ← Word.gcd f.num f.den
  let n ← Word.quotient f.num g
  let d ← Word.quotient f.den g
  if (0#w).slt d then
    return ⟨n, d⟩
  if n = Word.least w ∨ d = Word.least w then
    Checked.mark true
    return invalid
  return ⟨← Word.opposite n, ← Word.opposite d⟩

/-- The normalized fraction, without the report. -/
def reduced (f : Fraction w) : Fraction w :=
  f.normalize.result

/-- The numerators of `a` and `b` over their least common denominator, and that denominator. -/
def align (a b : Fraction w) : Checked (BitVec w × BitVec w × BitVec w) := do
  let g ← Word.gcd a.den b.den
  if g = 0#w then
    return (0#w, 0#w, 0#w)
  let na ← Word.mul a.num (← Word.quotient b.den g)
  let nb ← Word.mul b.num (← Word.quotient a.den g)
  let common ← Word.mul (← Word.quotient a.den g) b.den
  return (na, nb, common)

/-- The sum, normalized. -/
def add (a b : Fraction w) : Checked (Fraction w) := do
  let (na, nb, common) ← align a b
  normalize ⟨← Word.add na nb, common⟩

/-- The difference, normalized. -/
def sub (a b : Fraction w) : Checked (Fraction w) := do
  let (na, nb, common) ← align a b
  normalize ⟨← Word.sub na nb, common⟩

/-- The product, normalized. -/
def mul (a b : Fraction w) : Checked (Fraction w) := do
  let n ← Word.mul a.num b.num
  let d ← Word.mul a.den b.den
  normalize ⟨n, d⟩

/-- The quotient, normalized; division by zero gives the invalid fraction and is no overflow. -/
def div (a b : Fraction w) : Checked (Fraction w) := do
  let n ← Word.mul a.num b.den
  let d ← Word.mul b.num a.den
  normalize ⟨n, d⟩

/-- The sign of a word, as a word. -/
def signum (a : BitVec w) : BitVec w :=
  if a.slt 0#w then Word.minusOne w else if a = 0#w then 0#w else 1#w

/--
The nearest word, halves away from zero. With `q` and `r` the truncated quotient and its
remainder, the doubling of `|r|` is avoided by comparing it with what it lacks to the denominator.
-/
def round (f : Fraction w) : Checked (BitVec w) := do
  let q ← Word.quotient f.num f.den
  let r ← Word.remainder f.num f.den
  let size ← Word.magnitude r
  let lacking ← Word.difference f.den size
  if size.slt lacking then return q else Word.sum q (signum r)

end Fraction

end Reckoner
