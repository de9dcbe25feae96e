import Reckoner.Fraction
import Reckoner.Decimal.Layout

/-!
Values: nothing, a double, a whole number, a fraction, or an error.

Errors are values, so that no operation has to stop: whoever needs to know asks `Value.error?`.
Whole numbers and fractions are the exact values. An exact result is stored in canonical form, a
whole number where the denominator is one and otherwise a fraction in lowest terms.
-/
namespace Reckoner

/-- The kinds of errors of reading and of evaluation. -/
inductive ErrorKind where
  | notSupported
  | parenthesisMismatch
  | noValidToken
  | noTokens
  | wrongArgumentCount
  | unknownFunction
  | badType
  | invalidOperation
  | unboundVariable
  | divisionByZero
deriving DecidableEq, Repr

/-- The name under which a kind of error is shown. -/
def ErrorKind.text : ErrorKind → String
  | notSupported => "NotSupported"
  | parenthesisMismatch => "Parser.ParenthesisMismatch"
  | noValidToken => "Parser.NoValidToken"
  | noTokens => "Parser.NoTokens"
  | wrongArgumentCount => "Parser.WrongArgumentCount"
  | unknownFunction => "Parser.UnknownFunction"
  | badType => "Eval.BadType"
  | invalidOperation => "Eval.InvalidOperation"
  | unboundVariable => "Eval.UnboundVariable"
  | divisionByZero => "Eval.DivisionByZero"

/-- An error: its kind, a message, and the byte offset of the token at fault where it is known. -/
structure CalcError where
  kind : ErrorKind
  message : String
  position : Option Nat := none
deriving DecidableEq, Repr

/-- The kind and the message. -/
def CalcError.text (e : CalcError) : String :=
  e.kind.text ++ ": " ++ e.message

/-- What an expression evaluates to: nothing, a number, or the error in place of a value. -/
inductive Value where
  | null
  | double (x : Float)
  | int (n : BitVec 64)
  | fraction (f : Fraction 64)
  | error (e : CalcError)

namespace Value

instance : Inhabited Value :=
  ⟨null⟩

/-- The error of this kind and message, without a position. -/
def fail (kind : ErrorKind) (message : String) : Value :=
  error ⟨kind, message, none⟩

/-- Division by zero. -/
def divisionByZero : Value :=
  fail .divisionByZero "Division by zero"

/--
The canonical value of a fraction: a whole number if the denominator is one after reduction, and
division by zero if the fraction has no lowest terms.
-/
def ofFraction (f : Fraction 64) : Value :=
  let f := f.reduced
  if f.isValid then
    if f.isInteger then int f.num else fraction f
  else
    divisionByZero

/-- The error, if the value is one. -/
def error? : Value → Option CalcError
  | error e => some e
  | _ => none

/-- The value is an error. -/
def isError (v : Value) : Bool :=
  v.error?.isSome

/-- The value is `null`. -/
def isNull : Value → Bool
  | null => true
  | _ => false

/-- The value counts as exact: a whole number, a fraction or an error. -/
def isExact : Value → Bool
  | int _ | fraction _ | error _ => true
  | _ => false

/-- An exact number as a fraction. -/
def toFraction? : Value → Option (Fraction 64)
  | int n => some (.ofWord n)
  | fraction f => some f
  | _ => none

/-- A number as the nearest double; the terms of a fraction are rounded before they are divided. -/
def toFloat? : Value → Option Float
  | double x => some x
  | int n => some (Float.ofInt n.toInt)
  | fraction f => some (Float.ofInt f.num.toInt / Float.ofInt f.den.toInt)
  | null | error _ => none

/-- The text of a value. -/
def text : Value → String
  | null => "null"
  | double x => Decimal.text x
  | int n => toString n.toInt
  | fraction f => f.text
  | error e => "Err: " ++ e.kind.text ++ " " ++ e.message

/--
Equality of values of one kind: doubles compare as numbers, fractions term by term, and errors by
their kind.
-/
def beq : Value → Value → Bool
  | null, null => true
  | double x, double y => x == y
  | int m, int n => m == n
  | fraction f, fraction g => f == g
  | error d, error e => d.kind == e.kind
  | _, _ => false

instance : BEq Value :=
  ⟨beq⟩

end Value

end Reckoner
