import Reckoner.Standard
import Reckoner.Standard.Elementary

/-!
The descriptions of the standard functions and constants, in the order of their registration.
-/
namespace Reckoner

namespace Standard

/-- An operator between operands. -/
def infixOperator (name symbol : String) (arity : Arity) (precedence : Int) : NamedFunction :=
  { name, symbol := some symbol, arity, fixity := .infixOp, precedence }

/-- An assignment has a target and a value. -/
def buildAssignment (_ : FunctionId) (arguments : List Expr) : Except CalcError Expr :=
  match arguments with
  | [target, value] => .ok (.assign target value)
  | _ => .error ⟨.wrongArgumentCount, "assignment needs a target and a value", none⟩

/-- The record of an exact attempt at an operation on operands that are no errors. -/
def recordsOf (name : String) (attempt : Mode → List Value → Attempt) (mode : Mode)
    (args : List Value) : List Record :=
  if (firstError? args).isSome then [] else (attempt mode args).records name

/-- An attempt on two operands as one on a list. -/
def onPair (attempt : Mode → Value → Value → Attempt) (mode : Mode) : List Value → Attempt
  | [a, b] => attempt mode a b
  | _ => .untried

/-- What a sum puts into the journal. -/
def addRecords : Mode → List Value → List Record :=
  recordsOf "add" attemptAdd

/-- What a product puts into the journal. -/
def multiplyRecords : Mode → List Value → List Record :=
  recordsOf "multiply" attemptMultiply

/-- What a difference puts into the journal. -/
def subtractRecords : Mode → List Value → List Record :=
  recordsOf "subtract" (onPair attemptSubtract)

/-- What a quotient puts into the journal. -/
def divideRecords : Mode → List Value → List Record :=
  recordsOf "divide" (onPair attemptDivide)

/-- What a power puts into the journal. -/
def powerRecords : Mode → List Value → List Record :=
  recordsOf "pow" (onPair attemptPower)

/-- What depends on the mode of a store only. -/
def inMode {α : Type} (f : Mode → List Value → α) (s : Store) : List Value → α :=
  f s.mode

/-- The operators that are always there. -/
def fundamentals : List NamedFunction :=
  [ { infixOperator "add" "+" (.atLeast 0) 2 with
      associative := true, eval := some (inMode add), records := inMode addRecords }
  , { infixOperator "multiply" "*" (.atLeast 0) 3 with
      associative := true, eval := some (inMode multiply), records := inMode multiplyRecords }
  , { infixOperator "subtract" "-" (.exactly 2) 2 with
      eval := some (inMode subtract), records := inMode subtractRecords }
  , { infixOperator "divide" "/" (.exactly 2) 3 with
      eval := some (inMode divide), records := inMode divideRecords }
  , { name := "negate", symbol := some "-", fixity := .prefixOp, precedence := 10
      eval := some (inMode negate) }
  , { infixOperator "pow" "^" (.exactly 2) 4 with
      eval := some (inMode power), records := inMode powerRecords }
  , { infixOperator "assignment" "=" (.exactly 2) 1 with builder := some buildAssignment } ]

/-- A function of one double under its name. -/
def usual (name : String) (f : Float → Float) : NamedFunction :=
  { name, eval := some fun _ args => unary f args }

/-- The usual functions of one number. -/
def functions : List NamedFunction :=
  [ usual "sin" Float.sin
  , usual "cos" Float.cos
  , usual "tan" Float.tan
  , { usual "sqrt" Float.sqrt with symbol := some "√" }
  , usual "acos" Float.acos
  , usual "asin" Float.asin
  , usual "atan" Float.atan
  , usual "cosh" Float.cosh
  , usual "sinh" Float.sinh
  , usual "tanh" Float.tanh
  , usual "acosh" Float.acosh
  , usual "asinh" Float.asinh
  , usual "atanh" Elementary.atanh
  , usual "ln" Float.log
  , { name := "round", eval := some (inMode round) }
  , { name := "abs", eval := some (inMode abs) } ]

/-- A constant under the name by which it is shown, with its other names. -/
structure NamedConstant where
  name : String
  value : Value
  aliases : List String

/-- The ratio of a circle's circumference to its diameter, and the base of the natural logarithm. -/
def constants : List NamedConstant :=
  [ ⟨"π", .double 3.141592653589793, ["PI", "pi"]⟩
  , ⟨"e", .double 2.718281828459045, ["E"]⟩ ]

/-- The vocabulary with the fundamental operators only. -/
def vocabulary : Vocabulary :=
  { functions := Registry.registerAll {} fundamentals }

/-- Add the usual functions. -/
def addFunctions (v : Vocabulary) : Vocabulary :=
  functions.foldl Vocabulary.addFunction v

/-- Add the constants. -/
def addConstants (v : Vocabulary) : Vocabulary :=
  constants.foldl (fun v c => v.addConstant c.name c.value c.aliases) v

example : (power .exact [.int 2, .int (-3)]).text = "1/8" := by decide +kernel

example : (add .exact [.int (Word.greatest 64), .int 1]).text = "9223372036854776000" := by
  decide +kernel

example : (divide .exact [.int 1, .int 0]).text = "Err: Eval.DivisionByZero Division by zero" := by
  decide +kernel

example : (add .float []).text = "-0" := by decide +kernel

end Standard

end Reckoner
