import Reckoner.Parser
import Reckoner.Proofs.Standard.Registry

/-!
The infix grammar.

`Derives v p tokens tree` says that the tokens are an expression whose operators outside of
parentheses all have precedence `p` or more, and which tree it stands for. Operators of one
precedence associate to the left; a call, a parenthesis, a number and a name bind more tightly than
every operator. The tree is a function of how variables are numbered, which the grammar leaves open.
-/
namespace Reckoner

/-- The numbers of variables by name. -/
abbrev Numbering := String → VariableId

/-- A tree whose variables still wait for their numbers. -/
abbrev NamedTree := Numbering → Expr

/-- The tree of an operator between two operands. A sum whose left operand is a sum gets one more
operand instead of a level of its own, and so does a product. -/
def BinaryOperator.combine (o : BinaryOperator) (left right : Expr) : Expr :=
  if o = .assign then
    .assign left right
  else
    match left with
    | .call f args =>
      if o.flattens && f == o.place then .call f (args ++ [right]) else .call o.place [left, right]
    | _ => .call o.place [left, right]

/-- The tree of a call by name; the name of the assignment makes an assignment. -/
def callTree (id : FunctionId) (args : List Expr) : Expr :=
  match args with
  | [target, value] => if id = Standard.assignment then .assign target value else .call id args
  | _ => .call id args

/-- The tree of a name that no parenthesis follows: a constant if there is one, else a variable. -/
def nameTree (v : Vocabulary) (name : String) : NamedTree := fun numbering =>
  match v.constant? name with
  | some c => .constant c.name c.value
  | none => .var name (numbering name)

namespace Grammar

/-- The token is the operator `o`. -/
def IsBinary (o : BinaryOperator) (t : Token) : Prop :=
  t.kind = o.kind ∧ t.text = o.symbol

/-- `tokens` is the concatenation of the lists with a comma between any two. -/
inductive Separated : List (List Token) → List Token → Prop
  | nil : Separated [] []
  | one (tokens : List Token) : Separated [tokens] tokens
  | cons {first second inner : List Token} {others : List (List Token)} {comma : Token}
      (hcomma : comma.kind = .comma) (h : Separated (second :: others) inner) :
      Separated (first :: second :: others) (first ++ comma :: inner)

/-- The precedence of what needs no operator. -/
def tightest : Nat :=
  11

/-- The precedence of the negation. -/
def sign : Nat :=
  10

/--
The expressions of the infix grammar with their trees. Every operand has at most one negation. A
number right before a name or an opening parenthesis is multiplied with what follows.
-/
inductive Derives (v : Vocabulary) : Nat → List Token → NamedTree → Prop
  | int {t : Token} {n : BitVec 64} (h : t.kind = .int n) :
      Derives v tightest [t] fun _ => .literal (.int n)
  | double {t : Token} {x : Float} (h : t.kind = .double x) :
      Derives v tightest [t] fun _ => .literal (.double x)
  | name {t : Token} {x : String} (h : t.kind = .ident x) :
      Derives v tightest [t] (nameTree v x)
  | parentheses {opening closing : Token} {inner : List Token} {tree : NamedTree}
      (hopening : opening.kind = .lparen) (hclosing : closing.kind = .rparen)
      (h : Derives v 1 inner tree) :
      Derives v tightest (opening :: inner ++ [closing]) tree
  | call {callee opening closing : Token} {x : String} {id : FunctionId} {f : NamedFunction}
      {args : List (List Token × NamedTree)} {inner : List Token}
      (hcallee : callee.kind = .ident x) (hopening : opening.kind = .lparen)
      (hclosing : closing.kind = .rparen)
      (hfind : v.functions.findRegular? callee.text = some id)
      (hget : v.functions.get? id = some f) (hcount : f.arity.accepts args.length = true)
      (hinner : Separated (args.map Prod.fst) inner)
      (hargs : ∀ arg ∈ args, Derives v 1 arg.1 arg.2) :
      Derives v tightest (callee :: opening :: inner ++ [closing])
        fun numbering => callTree id (args.map fun arg => arg.2 numbering)
  | negate {t : Token} {operand : List Token} {tree : NamedTree} (ht : t.kind = .negate)
      (h : Derives v tightest operand tree) :
      Derives v sign (t :: operand) fun numbering => .call Standard.negation [tree numbering]
  | loosen {p : Nat} {tokens : List Token} {tree : NamedTree} (h : Derives v (p + 1) tokens tree) :
      Derives v p tokens tree
  | join {o : BinaryOperator} {t : Token} {left right : List Token}
      {leftTree rightTree : NamedTree} (ht : IsBinary o t)
      (hleft : Derives v o.precedence left leftTree)
      (hright : Derives v (o.precedence + 1) right rightTree) :
      Derives v o.precedence (left ++ t :: right)
        fun numbering => o.combine (leftTree numbering) (rightTree numbering)
  | adjoin {number next : Token} {left right : List Token} {leftTree rightTree : NamedTree}
      (hnumber : left.getLast? = some number) (hisNumber : number.isNumber = true)
      (hnext : right.head? = some next) (hopens : (next.kind.isOpen || next.kind.isIdent) = true)
      (hleft : Derives v BinaryOperator.multiply.precedence left leftTree)
      (hright : Derives v (BinaryOperator.multiply.precedence + 1) right rightTree) :
      Derives v BinaryOperator.multiply.precedence (left ++ right)
        fun numbering => BinaryOperator.multiply.combine (leftTree numbering) (rightTree numbering)

/-- An expression with tight operators only is one with looser operators allowed. -/
theorem Derives.mono {v : Vocabulary} {p q : Nat} {tokens : List Token} {tree : NamedTree}
    (h : Derives v q tokens tree) (hpq : p ≤ q) : Derives v p tokens tree := by
  induction hpq with
  | refl => exact h
  | step _ ih => exact ih (.loosen h)

/-- No expression is empty. -/
theorem Derives.ne_nil {v : Vocabulary} {p : Nat} {tokens : List Token} {tree : NamedTree}
    (h : Derives v p tokens tree) : tokens ≠ [] := by
  induction h with
  | loosen _ ih => exact ih
  | adjoin _ _ _ _ _ _ ih _ => simp [ih]
  | _ => simp

end Grammar

end Reckoner
