import Reckoner.Names
import Reckoner.Parser.Error
import Reckoner.Token
import Reckoner.Vocabulary

/-!
From tokens in postfix order to one tree.

Operands go onto a stack of trees, and an operator takes its operands from there. An associative
operator without a bound on its arguments extends a call of itself that it finds on its left
instead of nesting it, so that `2+3+4` is one sum of three.
-/
namespace Reckoner

/-- A step of parsing: it can fail, and it can meet new variables, also before it fails. -/
abbrev Parsing (α : Type) := EStateM ParseError Names α

namespace Parser

/-- The operator that a token denotes: a negation by name, another one by its symbol. -/
def operatorId? (v : Vocabulary) (t : Token) : Option FunctionId :=
  match t.kind with
  | .negate => v.functions.findByName? "negate"
  | .plus | .minus | .asterisk | .slash | .circumflex | .equals => v.functions.findBySymbol? t.text
  | _ => none

/-- The operator that a token denotes, with its description. -/
def operator? (v : Vocabulary) (t : Token) : Option (FunctionId × NamedFunction) :=
  match operatorId? v t with
  | some id => (v.functions.get? id).map fun f => (id, f)
  | none => none

/-- The tree of an operand. An identifier that is no constant is a variable. -/
def operand (v : Vocabulary) (t : Token) : Parsing Expr :=
  match t.kind with
  | .int n => return .literal (.int n)
  | .double x => return .literal (.double x)
  | .tree e => return e
  | .ident name =>
    match v.constant? name with
    | some c => return .constant c.name c.value
    | none => do
      let (id, names) := (← get).idOf name
      set names
      return .var name id
  | _ => throw (.strayToken t.text t.position)

/-- A tree that a function builds. -/
def build (f : NamedFunction) (id : FunctionId) (arguments : List Expr) :
    Except ParseError Expr :=
  match f.build id arguments with
  | .ok e => .ok e
  | .error e => .error (.refused e)

/-- The stack with its top tree added to the call of the same operator below it. -/
def extend? (f : NamedFunction) (id : FunctionId) : List Expr → Option (List Expr)
  | e :: .call g arguments :: rest =>
    if f.associative && f.arity.isVariadic && g == id then
      some (.call g (arguments ++ [e]) :: rest)
    else
      none
  | _ => none

/--
The stack after an operator: it extends a call of itself, or takes two operands, or, unless it
stands between operands, takes one.
-/
def apply (f : NamedFunction) (id : FunctionId) (t : Token) (stack : List Expr) :
    Except ParseError (List Expr) :=
  match extend? f id stack with
  | some stack => .ok stack
  | none =>
    match stack with
    | b :: a :: rest =>
      if f.arity.accepts 2 then
        (build f id [a, b]).map (· :: rest)
      else if f.arity.accepts 1 && decide (f.fixity ≠ .infixOp) then
        (build f id [b]).map (· :: a :: rest)
      else
        .error (.missingOperand t.text t.position)
    | [a] =>
      if f.arity.accepts 1 && decide (f.fixity ≠ .infixOp) then
        (build f id [a]).map ([·])
      else
        .error (.missingOperand t.text t.position)
    | [] => .error (.missingOperand t.text t.position)

/-- The stack after one more token. -/
def reduceToken (v : Vocabulary) (stack : List Expr) (t : Token) : Parsing (List Expr) :=
  match operator? v t with
  | some (id, f) =>
    match apply f id t stack with
    | .ok stack => return stack
    | .error e => throw e
  | none => return (← operand v t) :: stack

/-- The tree of the tokens of one nesting level, which begins at byte `start`. -/
def reduce (v : Vocabulary) (start : Nat) (output : List Token) : Parsing Expr :=
  match output with
  | [] => throw (.missingArgument start)
  | _ => do
    match ← output.foldlM (reduceToken v) [] with
    | [e] => return e
    | _ => throw (.missingOperator start)

end Parser

end Reckoner
