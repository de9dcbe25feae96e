import Mathlib.Algebra.BigOperators.Group.List.Basic
import Reckoner.Proofs.Fraction.Rounding
import Reckoner.Proofs.Value

/-!
The standard functions over the rational numbers.

The results are written down without words, flags or normal forms. They are what exact values are
compared with.
-/
namespace Reckoner

namespace Standard

/-- The result of a function over the rational numbers, by the function's name. Division by zero is
undefined, and so are powers of zero that are not positive and exponents that are not whole. -/
def rationalResult? (name : String) (qs : List ℚ) : Option ℚ :=
  match name, qs with
  | "add", qs => some qs.sum
  | "multiply", qs => some qs.prod
  | "subtract", [a, b] => some (a - b)
  | "divide", [a, b] => if b = 0 then none else some (a / b)
  | "negate", [a] => some (-a)
  | "pow", [a, b] => if b.den = 1 ∧ ¬ (a = 0 ∧ b ≤ 0) then some (a ^ b.num) else none
  | "abs", [a] => some |a|
  | "round", [a] => some (nearestInt a)
  | _, _ => none

/-- The arguments divide by zero: a quotient of exact values by zero, or a power of zero with a
whole exponent that is not positive. -/
def DividesByZero (name : String) (args : List Value) : Prop :=
  (name = "divide" ∧ ∃ a b p, args = [a, b] ∧ a.rat? = some p ∧ b.rat? = some 0) ∨
    (name = "pow" ∧ ∃ a n, args = [a, .int n] ∧ a.rat? = some 0 ∧ n.toInt ≤ 0)

variable {name : String}

/-! ## Numbers of operands -/

theorem length_eq_one (hname : name ∈ ["negate", "abs", "round"]) (qs : List ℚ)
    (hdefined : rationalResult? name qs ≠ none) : qs.length = 1 := by
  simp only [List.mem_cons, List.not_mem_nil, or_false] at hname
  rcases hname with rfl | rfl | rfl <;> rcases qs with _ | ⟨a, _ | ⟨b, rest⟩⟩ <;>
    simp [rationalResult?] at hdefined ⊢

theorem length_eq_two (hname : name ∈ ["subtract", "divide", "pow"]) (qs : List ℚ)
    (hdefined : rationalResult? name qs ≠ none) : qs.length = 2 := by
  simp only [List.mem_cons, List.not_mem_nil, or_false] at hname
  rcases hname with rfl | rfl | rfl <;> rcases qs with _ | ⟨a, _ | ⟨b, _ | ⟨c, rest⟩⟩⟩ <;>
    simp [rationalResult?] at hdefined ⊢

end Standard

end Reckoner
