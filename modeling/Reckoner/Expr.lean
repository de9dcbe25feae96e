import Reckoner.Value

/-!
Expression trees.

A tree refers to a function by its place in a registry and to a variable by its number, so it can
be evaluated again after later registrations and bindings. A constant carries its value. An error
found while reading is a literal at the root.
-/
namespace Reckoner

/-- The place of a function in a registry, counted from zero. -/
abbrev FunctionId := Nat

/-- The number of a variable, counted from one. -/
abbrev VariableId := Nat

/-- An expression. A constant has the value that it had when the expression was read. That the
target of an assignment is a variable shows only in evaluation. -/
inductive Expr where
  | literal (value : Value)
  | var (name : String) (id : VariableId)
  | constant (name : String) (value : Value)
  | call (function : FunctionId) (arguments : List Expr)
  | assign (target value : Expr)

namespace Expr

instance : Inhabited Expr :=
  ⟨literal .null⟩

/-- The tree that stands for an error of reading. -/
def ofError (e : CalcError) : Expr :=
  literal (.error e)

/-- The error at the root, if there is one. -/
def error? : Expr → Option CalcError
  | literal v => v.error?
  | _ => none

mutual

/-- Trees are equal if they have the same shape, names and numbers, and equal values. -/
def beq : Expr → Expr → Bool
  | literal v, literal v' => v == v'
  | var n i, var n' i' => n == n' && i == i'
  | constant n v, constant n' v' => n == n' && v == v'
  | call f args, call f' args' => f == f' && beqAll args args'
  | assign t v, assign t' v' => beq t t' && beq v v'
  | _, _ => false

/-- Equality of argument lists, place by place. -/
def beqAll : List Expr → List Expr → Bool
  | [], [] => true
  | e :: es, e' :: es' => beq e e' && beqAll es es'
  | _, _ => false

end

instance : BEq Expr :=
  ⟨beq⟩

end Expr

end Reckoner
