import Reckoner.Registry

/-!
Writing expressions.

The full form puts parentheses around every operator. The minimal form leaves out those that
precedence makes needless: around an operator that binds more tightly than the one around it, and
around an associative operator directly inside itself. A call that cannot be written with its
operator is written with the function's name before parentheses.
-/
namespace Reckoner

/-- Where an expression is written: whether needless parentheses are left out, and the operator
around the expression with its precedence. -/
structure Surroundings where
  minimal : Bool
  precedence : Int := 0
  operator : Option FunctionId := none
deriving DecidableEq, Repr

namespace Surroundings

/-- Inside something that is no operator. -/
def inside (c : Surroundings) (precedence : Int) : Surroundings :=
  { c with precedence, operator := none }

/-- Inside the operator `f`. -/
def under (c : Surroundings) (id : FunctionId) (f : NamedFunction) : Surroundings :=
  { c with precedence := f.precedence, operator := some id }

/-- The operator `f` needs no parentheses here. -/
def isBare (c : Surroundings) (id : FunctionId) (f : NamedFunction) : Bool :=
  c.minimal &&
    (decide (c.precedence < f.precedence) ||
      (f.precedence == c.precedence && f.associative && c.operator == some id))

end Surroundings

/-- The text in parentheses unless it is bare. -/
def parenthesize (bare : Bool) (text : String) : String :=
  if bare then text else "(" ++ text ++ ")"

namespace Expr

/-- The precedence of assignment. -/
def assignmentPrecedence (r : Registry) : Int :=
  match (r.findByName? "assignment").bind r.get? with
  | some f => f.precedence
  | none => 1

/-- The name before parentheses: an operator goes by its name there, any other function by its
symbol if it has one. -/
def callName (f : NamedFunction) : String :=
  if f.fixity = .regular then f.favouredName else f.name

/-- How a call of `f` with `n` arguments is written. -/
def writtenAs (f : NamedFunction) (n : Nat) : Fixity :=
  match f.fixity with
  | .infixOp => if 2 ≤ n then .infixOp else .regular
  | .prefixOp => if n = 1 then .prefixOp else .regular
  | .regular | .postfixOp => .regular

mutual

/-- The text of an expression. -/
def write (r : Registry) (c : Surroundings) : Expr → String
  | literal v => v.text
  | var name _ => name
  | constant name _ => name
  | assign target value =>
    let c' := c.inside (assignmentPrecedence r)
    parenthesize (c.minimal && decide (c.precedence ≤ 0))
      (write r c' target ++ " = " ++ write r c' value)
  | call id arguments =>
    match r.get? id with
    | none => "<?>"
    | some f =>
      match writtenAs f arguments.length with
      | .infixOp =>
        parenthesize (c.isBare id f)
          ((" " ++ f.favouredName ++ " ").intercalate (writeAll r (c.under id f) arguments))
      | .prefixOp =>
        parenthesize (c.isBare id f)
          (f.favouredName ++ String.join (writeAll r (c.under id f) arguments))
      | _ => callName f ++ "(" ++ ",".intercalate (writeAll r (c.inside 0) arguments) ++ ")"

/-- The texts of several expressions. -/
def writeAll (r : Registry) (c : Surroundings) : List Expr → List String
  | [] => []
  | e :: rest => write r c e :: writeAll r c rest

end

/-- The minimal form. -/
def minimalText (r : Registry) (e : Expr) : String :=
  e.write r { minimal := true }

/-- The full form. -/
def fullText (r : Registry) (e : Expr) : String :=
  e.write r { minimal := false }

end Expr

end Reckoner
