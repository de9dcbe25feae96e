import Reckoner.Checked

/-!
Signed words of any width: checked addition, subtraction, absolute value and multiplication, the
greatest common divisor and the least common multiple.

A checked operation returns the result wrapped to the width and finds out by comparisons with the
bounds of the width whether it wrapped. The bounds are computed with the plain operations `sum`,
`difference`, `quotient`, `remainder` and `opposite`, which check nothing for the caller: a plain
operation whose true result does not fit is a fault.
-/
namespace Reckoner

namespace Word

variable {w : Nat}

/-- The integer `x` is the value of some signed word of width `w`. -/
def Fits (w : Nat) (x : Int) : Prop :=
  (BitVec.ofInt w x).toInt = x

instance (w : Nat) (x : Int) : Decidable (Fits w x) :=
  inferInstanceAs (Decidable (_ = _))

/-- The least word of the width. -/
def least (w : Nat) : BitVec w :=
  BitVec.intMin w

/-- The greatest word of the width. -/
def greatest (w : Nat) : BitVec w :=
  BitVec.intMax w

/-- The word with value `-1`. -/
def minusOne (w : Nat) : BitVec w :=
  BitVec.allOnes w

/-! ## Plain operations -/

/-- `a + b`, taken to fit. -/
def sum (a b : BitVec w) : Checked (BitVec w) := do
  Checked.expect (decide (Fits w (a.toInt + b.toInt)))
  return a + b

/-- `a - b`, taken to fit. -/
def difference (a b : BitVec w) : Checked (BitVec w) := do
  Checked.expect (decide (Fits w (a.toInt - b.toInt)))
  return a - b

/-- `a * b`, taken to fit. -/
def product (a b : BitVec w) : Checked (BitVec w) := do
  Checked.expect (decide (Fits w (a.toInt * b.toInt)))
  return a * b

/-- `-a`, taken to fit. -/
def opposite (a : BitVec w) : Checked (BitVec w) := do
  Checked.expect (decide (Fits w (-a.toInt)))
  return -a

/-- `|a|`, taken to fit. -/
def magnitude (a : BitVec w) : Checked (BitVec w) :=
  if a.slt 0#w then opposite a else return a

/-- Division of `a` by `b` is defined and its quotient fits. -/
def Divides (a b : BitVec w) : Prop :=
  b ≠ 0#w ∧ Fits w (a.toInt.tdiv b.toInt)

instance (a b : BitVec w) : Decidable (Divides a b) :=
  inferInstanceAs (Decidable (_ ∧ _))

/-- The quotient of `a` by `b` rounded toward zero, taken to be defined and to fit. -/
def quotient (a b : BitVec w) : Checked (BitVec w) := do
  Checked.expect (decide (Divides a b))
  return a.sdiv b

/-- What the quotient of `a` by `b` leaves of `a`, taken to be defined. -/
def remainder (a b : BitVec w) : Checked (BitVec w) := do
  Checked.expect (decide (Divides a b))
  return a.srem b

/-! ## Checked operations -/

/-- `a + b` wrapped: the bound for `a` is `least - b` for a negative `b`, and `greatest - b` for a
positive one. -/
def add (a b : BitVec w) : Checked (BitVec w) := do
  if b.slt 0#w then
    Checked.mark (a.slt (← difference (least w) b))
  if (0#w).slt b then
    Checked.mark ((← difference (greatest w) b).slt a)
  return a + b

/-- `a - b` wrapped: the bound for `a` is `greatest + b` for a negative `b`, and `least + b` for a
positive one. -/
def sub (a b : BitVec w) : Checked (BitVec w) := do
  if b.slt 0#w then
    Checked.mark ((← sum (greatest w) b).slt a)
  if (0#w).slt b then
    Checked.mark (a.slt (← sum (least w) b))
  return a - b

/-- `|a|` wrapped: only the least word has no opposite. -/
def abs (a : BitVec w) : Checked (BitVec w) := do
  Checked.mark (decide (a = least w))
  return if a.slt 0#w then -a else a

/-- `a * b` wrapped: the bound divided by one factor is compared with the other, sign by sign. -/
def mul (a b : BitVec w) : Checked (BitVec w) := do
  if (0#w).slt a then
    if (0#w).slt b then
      Checked.mark ((← quotient (greatest w) b).slt a)
    else
      Checked.mark (b.slt (← quotient (least w) a))
  else if (0#w).slt b then
    Checked.mark (a.slt (← quotient (least w) b))
  else if a ≠ 0#w then
    Checked.mark (b.slt (← quotient (greatest w) a))
  return a * b

/-! ## Common divisors and multiples -/

/-- A remainder is smaller than its divisor. -/
theorem natAbs_srem_lt {a b : BitVec w} (h : b ≠ 0#w) :
    (a.srem b).toInt.natAbs < b.toInt.natAbs := by
  have hb : b.toInt ≠ 0 := fun h0 => h (BitVec.eq_of_toInt_eq (by simpa using h0))
  rw [BitVec.toInt_srem, Int.natAbs_tmod]
  exact Nat.mod_lt _ (Int.natAbs_pos.2 hb)

/-- The step of the Euclidean algorithm: the remainder, which for the divisor `-1` is zero. -/
def euclidStep (a b : BitVec w) : BitVec w :=
  if b = minusOne w then 0#w else a.srem b

theorem natAbs_euclidStep_lt {a b : BitVec w} (h : b ≠ 0#w) :
    (euclidStep a b).toInt.natAbs < b.toInt.natAbs := by
  unfold euclidStep
  split
  · rw [BitVec.toInt_zero]
    exact Int.natAbs_pos.2 fun h0 => h (BitVec.eq_of_toInt_eq (by simpa using h0))
  · exact natAbs_srem_lt h

/-- The Euclidean algorithm; the sign of the result is that of the last remainder but one. -/
def euclid (a b : BitVec w) : Checked (BitVec w) :=
  if b = 0#w then
    return a
  else do
    Checked.expect (decide (b = minusOne w ∨ Divides a b))
    euclid b (euclidStep a b)
termination_by b.toInt.natAbs
decreasing_by exact natAbs_euclidStep_lt ‹_›

/-- The greatest common divisor; it is the least word where the divisor itself does not fit. -/
def gcd (a b : BitVec w) : Checked (BitVec w) := do
  let g ← euclid a b
  if g.slt 0#w && decide (g ≠ least w) then opposite g else return g

/-- The least common multiple, with the sign of `a * b`; the common divisor is divided out of `a`
first. -/
def lcm (a b : BitVec w) : Checked (BitVec w) := do
  let g ← gcd a b
  if g = 0#w then
    return 0#w
  else
    mul (← quotient a g) b

example : (add 127#8 1#8).unlessOverflow = none := by decide +kernel

example : (add 127#8 1#8).result = least 8 := by decide +kernel

example : (gcd 12#8 18#8).result = 6#8 := by decide +kernel

example : (gcd 0#8 (least 8)).result = least 8 := by decide +kernel

end Word

end Reckoner
