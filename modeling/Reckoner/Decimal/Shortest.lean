/-!
The fewest decimal digits that stand for a double.

A finite double has the value `m · 2^q`. The reals nearer to it than to any other double form an
interval, which contains its ends exactly if `m` is even. A decimal stands for the double if it
lies in that interval. Of the grids of multiples of a power of ten, the coarsest one that has a
point in the interval gives the fewest digits; the only points to try on a grid are the two around
the value. If both are in the interval the nearer one is taken, and the upper one if neither is
nearer.
-/
namespace Reckoner

namespace Decimal

/-- `2^n`. -/
def twoTo (n : Nat) : Nat :=
  Nat.pow 2 n

/-- `10^n`. -/
def tenTo (n : Nat) : Nat :=
  Nat.pow 10 n

/-- What the bits of a double say. -/
inductive Shape where
  | nan
  | infinite (negative : Bool)
  /--
  The number `mantissa · 2^exponent` with its sign. `narrow` says that the next double below is
  only half as far away as the next one above.
  -/
  | finite (negative : Bool) (mantissa : Nat) (exponent : Int) (narrow : Bool)
deriving DecidableEq, Repr

/-- Decode sign, exponent and mantissa from the 64 bits of the double format. -/
def Shape.ofFloat (x : Float) : Shape :=
  let bits := x.toBits.toNat
  let negative := decide (twoTo 63 ≤ bits)
  let exponent : Nat := bits / twoTo 52 % twoTo 11
  let fraction := bits % twoTo 52
  if exponent = twoTo 11 - 1 then
    if fraction = 0 then .infinite negative else .nan
  else if exponent = 0 then
    .finite negative fraction (-1074) false
  else
    .finite negative (twoTo 52 + fraction) ((exponent : Int) - 1075)
      (decide (fraction = 0 ∧ 1 < exponent))

/-- The reals that stand for one positive double lie between `below` and `above`, and the double's
own value is `value`, all over the denominator `scale`. The ends belong to them if `closed`. -/
structure Interval where
  below : Nat
  value : Nat
  above : Nat
  scale : Nat
  closed : Bool
deriving DecidableEq, Repr

/-- The interval of `m · 2^q`: it reaches half way to the doubles around it. -/
def Interval.around (m : Nat) (q : Int) (narrow : Bool) : Interval :=
  let unit := twoTo (q - 2).toNat
  { below := (4 * m - if narrow then 1 else 2) * unit
    value := 4 * m * unit
    above := (4 * m + 2) * unit
    scale := twoTo (2 - q).toNat
    closed := m % 2 == 0 }

/-- The point of the interval on the grid of multiples of `10^k`, in units of `10^k`. -/
def Interval.point? (i : Interval) (k : Int) : Option Nat :=
  let fine := tenTo (-k).toNat
  let unit := i.scale * tenTo k.toNat
  let value := i.value * fine
  let floor := value / unit
  let low := floor * unit
  let high := low + unit
  let lowIn := decide (i.below * fine < low) || i.closed && decide (i.below * fine = low)
  let highIn := decide (high < i.above * fine) || i.closed && decide (high = i.above * fine)
  if lowIn && highIn then
    some (if 2 * (value - low) < unit then floor else floor + 1)
  else if lowIn then
    some floor
  else if highIn then
    some (floor + 1)
  else
    none

/-- The number `digits · 10^exponent`. -/
structure Scaled where
  digits : Nat
  exponent : Int
deriving DecidableEq, Repr

/-- The first grid from `10^k` downward with a point in the interval, trying `tries` grids. -/
def Interval.coarsest (i : Interval) (k : Int) : (tries : Nat) → Scaled
  | 0 => ⟨i.value, 0⟩
  | tries + 1 =>
    match i.point? k with
    | some d => ⟨d, k⟩
    | none => i.coarsest (k - 1) tries

/-- A power of ten above `m · 2^q` and at most a thousand times as large. -/
def powerAbove (m : Nat) (q : Int) : Int :=
  (q + m.log2 + 1) * 30103 / 100000 + 2

/--
The fewest digits that stand for `m · 2^q`. The grid of seventeen digits always has a point in the
interval, so twenty-two grids are enough.
-/
def shortest (m : Nat) (q : Int) (narrow : Bool) : Scaled :=
  (Interval.around m q narrow).coarsest (powerAbove m q) 22

example : shortest 1 (-1074) false = ⟨5, -324⟩ := by decide +kernel

example : shortest (twoTo 52) 1 true = ⟨9007199254740992, 0⟩ := by decide +kernel

end Decimal

end Reckoner
