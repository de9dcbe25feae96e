import Reckoner.Vocabulary

/-!
The fundamental operators, the usual functions of one number, and the two constants.

In the exact mode an operation is first tried on whole numbers and fractions. The attempt fails as
soon as an operand is not exact or a step overflows; then the operation is done once more in
floating point, on all operands, so that the two are never mixed. An operand that is an error is
the result.
-/
namespace Reckoner

namespace Standard

/-! ## Operands -/

/-- The first operand that is an error. -/
def firstError? (args : List Value) : Option Value :=
  args.find? Value.isError

/-- An operand is no number. -/
def invalidArgument : Value :=
  .fail .invalidOperation "Invalid argument"

/-- The number of operands is wrong. -/
def wrongCount : Value :=
  .fail .invalidOperation "Invalid argument count"

/-- The result of `f` on the operands as doubles, if all are numbers. -/
def onFloats (f : List Float → Float) (args : List Value) : Value :=
  match args.mapM Value.toFloat? with
  | some xs => .double (f xs)
  | none => invalidArgument

/-- The result of `f` on two operands as doubles. -/
def onTwoFloats (f : Float → Float → Float) (a b : Value) : Value :=
  match a.toFloat?, b.toFloat? with
  | some x, some y => .double (f x y)
  | _, _ => invalidArgument

/-- The result of `f` on one operand as a double. -/
def onFloat (f : Float → Float) (a : Value) : Value :=
  match a.toFloat? with
  | some x => .double (f x)
  | none => invalidArgument

/-! ## Exact attempts -/

/-- What became of doing an operation exactly: it was not tried, it was tried and gave nothing, or
it gave a value. -/
inductive Attempt where
  | untried
  | failed
  | done (v : Value)

namespace Attempt

/-- A failure where there is no value. -/
def ofOption : Option Value → Attempt
  | some v => done v
  | none => failed

/-- The value, or `fallback` where there is none. -/
def getD (a : Attempt) (fallback : Value) : Value :=
  match a with
  | done v => v
  | untried | failed => fallback

/-- The record of a failure of the operation `name`. -/
def records (name : String) : Attempt → List Record
  | failed => [⟨.trace, name ++ " : repli flottant"⟩]
  | untried | done _ => []

end Attempt

/-- An operation on fractions. -/
abbrev FractionOperation :=
  Fraction 64 → Fraction 64 → Checked (Fraction 64)

/-- The operands folded from `acc` on by an exact operation; nothing if a step overflows. -/
def foldExact (op : FractionOperation) (acc : Fraction 64) : List Value → Option Value
  | [] => some (.ofFraction acc)
  | a :: rest =>
    match a.toFraction? with
    | none => none
    | some f =>
      match (op acc f).unlessOverflow with
      | none => none
      | some acc => foldExact op acc rest

/-- An exact operation on two operands; nothing if it overflows. -/
def twoExact (op : FractionOperation) (a b : Value) : Option Value :=
  match a.toFraction?, b.toFraction? with
  | some f, some g => (op f g).unlessOverflow.map .ofFraction
  | _, _ => none

/-- The attempt of the mode: in floating point nothing is tried. -/
def attemptIn (mode : Mode) (a : Attempt) : Attempt :=
  match mode with
  | .float => .untried
  | .exact => a

/-! ## Sums and products -/

/-- The exact sum of any number of operands. -/
def attemptAdd (mode : Mode) (args : List Value) : Attempt :=
  attemptIn mode (.ofOption (foldExact Fraction.add (.ofWord 0#64) args))

/-- The sum of any number of operands, from left to right; in floating point from `-0` on. -/
def add (mode : Mode) (args : List Value) : Value :=
  match firstError? args with
  | some e => e
  | none => (attemptAdd mode args).getD (onFloats (fun xs => xs.foldl (· + ·) (-0.0)) args)

/-- The exact product of any number of operands. -/
def attemptMultiply (mode : Mode) (args : List Value) : Attempt :=
  attemptIn mode (.ofOption (foldExact Fraction.mul (.ofWord 1#64) args))

/-- The product of any number of operands, from left to right. -/
def multiply (mode : Mode) (args : List Value) : Value :=
  match firstError? args with
  | some e => e
  | none => (attemptMultiply mode args).getD (onFloats (fun xs => xs.foldl (· * ·) 1.0) args)

/-! ## Operations on two operands -/

/-- The shape of an operation on two operands: an exact attempt, then floating point. -/
def binary (attempt : Mode → Value → Value → Attempt) (f : Float → Float → Float) (mode : Mode)
    (args : List Value) : Value :=
  match args with
  | [a, b] =>
    match firstError? args with
    | some e => e
    | none => (attempt mode a b).getD (onTwoFloats f a b)
  | _ => wrongCount

/-- The exact difference. -/
def attemptSubtract (mode : Mode) (a b : Value) : Attempt :=
  attemptIn mode (.ofOption (twoExact Fraction.sub a b))

/-- The difference of two operands. -/
def subtract : Mode → List Value → Value :=
  binary attemptSubtract (· - ·)

/-- The value is the whole number zero. -/
def isZero : Value → Bool
  | .int n => n == 0#64
  | _ => false

/-- The exact quotient, tried if the dividend is exact. -/
def attemptDivide (mode : Mode) (a b : Value) : Attempt :=
  if !a.isExact then
    .untried
  else if isZero b then
    attemptIn mode (.done .divisionByZero)
  else
    attemptIn mode (.ofOption (twoExact Fraction.div a b))

/-- The quotient of two operands. -/
def divide : Mode → List Value → Value :=
  binary attemptDivide (· / ·)

/-- `result · square^e` by squaring and multiplying; nothing if a step overflows. -/
def powerFrom (result square : Fraction 64) (e : Nat) : Option (Fraction 64) :=
  if e = 0 then
    some result
  else
    let result? := if e % 2 = 1 then (Fraction.mul result square).unlessOverflow else some result
    let square? := if e / 2 = 0 then some square else (Fraction.mul square square).unlessOverflow
    match result?, square? with
    | some result, some square => powerFrom result square (e / 2)
    | _, _ => none
termination_by e

/--
The exact power with a whole exponent; nothing if a step overflows. Zero to the power zero is not
defined, and a negative power of zero divides by zero.
-/
def powerExact (base : Fraction 64) (exponent : BitVec 64) : Option Value :=
  if exponent = 0#64 then
    if base.num = 0#64 then
      some (.fail .divisionByZero "0^0 is not defined")
    else
      some (.int 1#64)
  else if base = .ofWord 1#64 then
    some (.int 1#64)
  else
    match powerFrom (.ofWord 1#64) base exponent.toInt.natAbs with
    | none => none
    | some power =>
      if exponent.slt 0#64 then
        (Fraction.div (.ofWord 1#64) power).unlessOverflow.map .ofFraction
      else
        some (.ofFraction power)

/-- The exact power of an exact base by a whole exponent. -/
def attemptPower (mode : Mode) (a b : Value) : Attempt :=
  attemptIn mode <|
    match a.toFraction?, b with
    | some base, .int n => .ofOption (powerExact base n)
    | _, _ => .failed

/-- The first operand to the power of the second. -/
def power : Mode → List Value → Value :=
  binary attemptPower Float.pow

/-! ## Operations on one operand -/

/-- A function of one double. -/
def unary (f : Float → Float) (args : List Value) : Value :=
  match args with
  | [a] => if a.isError then a else onFloat f a
  | _ => wrongCount

/-- The exact result of `exact` on one operand in the exact mode, otherwise that of `f`. -/
def unaryExact (exact : Fraction 64 → Option Value) (f : Float → Float) (mode : Mode)
    (args : List Value) : Value :=
  match mode, args with
  | .exact, [a] => (a.toFraction?.bind exact).getD (unary f args)
  | _, _ => unary f args

/-- The opposite; that of the least numerator is not exact. -/
def negate : Mode → List Value → Value :=
  unaryExact
    (fun q => if q.num = Word.least 64 then none else some (.ofFraction q.neg))
    Float.neg

/-- The absolute value; that of the least numerator is not exact. -/
def abs : Mode → List Value → Value :=
  unaryExact
    (fun q => (Word.abs q.num).unlessOverflow.map fun n => .ofFraction ⟨n, q.den⟩)
    Float.abs

/-- The nearest whole number, halves away from zero. -/
def round : Mode → List Value → Value :=
  unaryExact (fun q => some (.int q.round.result)) Float.round

end Standard

end Reckoner
