import Reckoner.Journal
import Reckoner.Store

/-!
Descriptions of functions: how many arguments they take, how they are written, and what they do.
-/
namespace Reckoner

/-- How many arguments a function takes. -/
inductive Arity where
  | exactly (n : Nat)
  | atLeast (n : Nat)
deriving DecidableEq, Repr

namespace Arity

/-- A number from zero up stands for itself; below, `-1 - k` stands for `k` or more. -/
def decode (n : Int) : Arity :=
  if 0 ≤ n then exactly n.toNat else atLeast (-1 - n).toNat

/-- The number that stands for an arity. -/
def encode : Arity → Int
  | exactly n => n
  | atLeast n => -1 - n

/-- A call with `n` arguments is allowed. -/
def accepts : Arity → Nat → Bool
  | exactly m, n => n == m
  | atLeast m, n => decide (m ≤ n)

/-- The number of arguments has no upper bound. -/
def isVariadic : Arity → Bool
  | exactly _ => false
  | atLeast _ => true

/-- The text of an arity is its encoding. -/
def text (a : Arity) : String :=
  toString a.encode

end Arity

/-- How a function is written: as a name before parentheses, or as an operator between its
arguments, before its argument or behind it. -/
inductive Fixity where
  | regular
  | infixOp
  | prefixOp
  | postfixOp
deriving DecidableEq, Repr

/-- The name of a fixity. -/
def Fixity.text : Fixity → String
  | regular => "Regular"
  | infixOp => "Infix"
  | prefixOp => "Prefix"
  | postfixOp => "Postfix"

/-- A function with its name, which is unique in a registry. By default it takes one argument and
has no evaluation. The value of a call and its records for the journal depend on what it is
evaluated in and on the values of its arguments. A builder makes the tree of a call instead of the
plain one. -/
structure NamedFunction where
  name : String
  symbol : Option String := none
  arity : Arity := .exactly 1
  fixity : Fixity := .regular
  precedence : Int := 0
  associative : Bool := false
  eval : Option (Store → List Value → Value) := none
  records : Store → List Value → List Record := fun _ _ => []
  builder : Option (FunctionId → List Expr → Except CalcError Expr) := none

namespace NamedFunction

/-- The symbol, or the name if there is none. -/
def favouredName (f : NamedFunction) : String :=
  f.symbol.getD f.name

/-- The value of a call; a function without evaluation gives an error. -/
def call (f : NamedFunction) (s : Store) (arguments : List Value) : Value :=
  match f.eval with
  | some g => g s arguments
  | none => .fail .notSupported (f.name ++ " cannot be evaluated")

/-- The tree of a call of the function with this place in the registry. -/
def build (f : NamedFunction) (id : FunctionId) (arguments : List Expr) : Except CalcError Expr :=
  match f.builder with
  | some g => g id arguments
  | none => .ok (.call id arguments)

end NamedFunction

end Reckoner
