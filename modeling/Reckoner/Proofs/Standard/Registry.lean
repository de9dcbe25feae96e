import Reckoner.Parser.Reduction
import Reckoner.Proofs.Registry
import Reckoner.Standard.Functions

/-!
The standard functions by their places.

With the fundamental operators and the usual functions registered, every operator has a fixed
place. The operators between operands are listed once, with their symbols, precedences and places,
so that what holds of all of them is proved by one case distinction.
-/
namespace Reckoner

namespace Standard

/-- The registry of the fundamental operators and the usual functions. -/
def registry : Registry :=
  (addFunctions vocabulary).functions

/-- The place of the negation. -/
def negation : FunctionId :=
  4

/-- The place of the assignment. -/
def assignment : FunctionId :=
  6

theorem findByName?_negate : registry.findByName? "negate" = some negation :=
  rfl

/-- The names of the functions of one double. -/
def usualNames : List String :=
  ["sin", "cos", "tan", "sqrt", "acos", "asin", "atan", "cosh", "sinh", "tanh", "acosh", "asinh",
    "atanh", "ln"]

/-- What holds of the operators, of the functions of one double, of rounding and of the absolute
value holds of all standard functions. -/
theorem forall_mem_standard {P : NamedFunction → Prop} (hoperators : ∀ f ∈ fundamentals, P f)
    (husual : ∀ name ∈ usualNames, ∀ op symbol, P { usual name op with symbol })
    (hround : P { name := "round", eval := some (inMode round) })
    (habs : P { name := "abs", eval := some (inMode abs) }) :
    ∀ f ∈ fundamentals ++ functions, P f := by
  refine List.forall_mem_append.2 ⟨hoperators, ?_⟩
  simp only [usualNames, List.forall_mem_cons] at husual
  obtain ⟨hsin, hcos, htan, hsqrt, hacos, hasin, hatan, hcosh, hsinh, htanh, hacosh, hasinh, hatanh,
    hln, -⟩ := husual
  simp only [functions, List.forall_mem_cons]
  exact ⟨hsin _ _, hcos _ _, htan _ _, hsqrt _ _, hacos _ _, hasin _ _, hatan _ _, hcosh _ _,
    hsinh _ _, htanh _ _, hacosh _ _, hasinh _ _, hatanh _ _, hln _ _, hround, habs,
    List.forall_mem_nil _⟩

theorem coherent_vocabulary : vocabulary.functions.Coherent :=
  Registry.coherent_empty.registerAll fundamentals

theorem coherent_registry : registry.Coherent :=
  coherent_vocabulary.registerAll functions

end Standard

/-- The operators that stand between two operands. -/
inductive BinaryOperator where
  | assign
  | add
  | subtract
  | multiply
  | divide
  | power
deriving DecidableEq, Repr

namespace BinaryOperator

/-- The symbol of an operator. -/
def symbol : BinaryOperator → String
  | assign => "="
  | add => "+"
  | subtract => "-"
  | multiply => "*"
  | divide => "/"
  | power => "^"

/-- What a token of the operator stands for. -/
def kind : BinaryOperator → TokenKind
  | assign => .equals
  | add => .plus
  | subtract => .minus
  | multiply => .asterisk
  | divide => .slash
  | power => .circumflex

/-- How tightly an operator binds, from one for the assignment up. -/
def precedence : BinaryOperator → Nat
  | assign => 1
  | add | subtract => 2
  | multiply | divide => 3
  | power => 4

/-- The place of the operator's function. -/
def place : BinaryOperator → FunctionId
  | assign => Standard.assignment
  | add => 0
  | multiply => 1
  | subtract => 2
  | divide => 3
  | power => 5

/-- A call of the operator takes further operands instead of being nested. -/
def flattens : BinaryOperator → Bool
  | add | multiply => true
  | _ => false

/-- The registered description of the operator. -/
def description (o : BinaryOperator) : NamedFunction :=
  (Standard.registry.get? o.place).getD { name := o.symbol }

theorem findBySymbol?_symbol (o : BinaryOperator) :
    Standard.registry.findBySymbol? o.symbol = some o.place := by
  cases o <;> rfl

theorem get?_place (o : BinaryOperator) :
    Standard.registry.get? o.place = some o.description := by
  cases o <;> rfl

@[simp] theorem precedence_description (o : BinaryOperator) :
    o.description.precedence = o.precedence := by
  cases o <;> rfl

@[simp] theorem fixity_description (o : BinaryOperator) :
    o.description.fixity = .infixOp := by
  cases o <;> rfl

@[simp] theorem accepts_two_description (o : BinaryOperator) :
    o.description.arity.accepts 2 = true := by
  cases o <;> rfl

theorem flattens_description (o : BinaryOperator) :
    (o.description.associative && o.description.arity.isVariadic) = o.flattens := by
  cases o <;> rfl

theorem place_injective {o o' : BinaryOperator} (h : o.place = o'.place) : o = o' := by
  revert h
  cases o <;> cases o' <;> decide

theorem place_ne_assignment {o : BinaryOperator} (h : o ≠ assign) :
    o.place ≠ Standard.assignment :=
  fun hplace => h (place_injective (show o.place = assign.place from hplace))

theorem place_ne_negation (o : BinaryOperator) : o.place ≠ Standard.negation := by
  cases o <;> decide

theorem ne_assign_of_flattens {o : BinaryOperator} (h : o.flattens = true) : o ≠ assign := by
  rintro rfl
  cases h

end BinaryOperator

namespace Standard

/-- The registered description of the negation. -/
def negationDescription : NamedFunction :=
  (registry.get? negation).getD { name := "negate" }

theorem get?_negation : registry.get? negation = some negationDescription :=
  rfl

end Standard

/-- The fundamental operators are registered at their places, and only the assignment builds a tree
of its own. -/
structure Registry.HasOperators (r : Registry) : Prop where
  symbol : ∀ o : BinaryOperator, r.findBySymbol? o.symbol = some o.place
  operator : ∀ o : BinaryOperator, r.get? o.place = some o.description
  negate : r.findByName? "negate" = some Standard.negation
  negation : r.get? Standard.negation = some Standard.negationDescription
  plain : ∀ {id : FunctionId} {f : NamedFunction}, r.get? id = some f → id ≠ Standard.assignment →
    f.builder = none

namespace Standard

theorem hasOperators_registry : registry.HasOperators where
  symbol := BinaryOperator.findBySymbol?_symbol
  operator := BinaryOperator.get?_place
  negate := findByName?_negate
  negation := get?_negation
  plain := by
    intro id f h hid
    have hall : ∀ i < 23, i ≠ assignment → (registry.get? i).all (·.builder.isNone) = true := by
      decide +kernel
    have hlt : id < registry.functions.length := (List.getElem?_eq_some_iff.1 h).1
    have hnone := hall id hlt hid
    rw [h] at hnone
    simpa using hnone

/-- The fundamental operators are enough. -/
theorem hasOperators_vocabulary : vocabulary.functions.HasOperators where
  symbol := fun o => by cases o <;> rfl
  operator := fun o => by cases o <;> rfl
  negate := rfl
  negation := rfl
  plain := by
    intro id f h hid
    have hall : ∀ i < 7, i ≠ assignment →
        (vocabulary.functions.get? i).all (·.builder.isNone) = true := by
      decide +kernel
    have hlt : id < vocabulary.functions.functions.length := (List.getElem?_eq_some_iff.1 h).1
    have hnone := hall id hlt hid
    rw [h] at hnone
    simpa using hnone

end Standard

end Reckoner
