import Reckoner.Proofs.Standard.Exact

/-!
Sums and products in the exact mode, and how their operands group.

A sum or product of numbers is never an error. It is a double, or it is the canonical form of the
total of its operands, which are exact then.
-/
namespace Reckoner

open Standard (rationalResult?)

namespace BinaryOperator

/-- The sum of rational numbers, or their product. -/
def total (o : BinaryOperator) (qs : List ℚ) : ℚ :=
  if o = .multiply then qs.prod else qs.sum

variable {o : BinaryOperator} {args : List Value}

theorem total_append (o : BinaryOperator) (qs ps : List ℚ) :
    o.total (qs ++ ps) = o.total [o.total qs, o.total ps] := by
  unfold total
  split <;> simp

theorem total_singleton (o : BinaryOperator) (q : ℚ) : o.total [q] = q := by
  unfold total
  split <;> simp

theorem rationalResult?_description (ho : o.flattens = true) (qs : List ℚ) :
    rationalResult? o.description.name qs = some (o.total qs) := by
  cases o
  case add => rfl
  case multiply => rfl
  all_goals cases ho

/-- A sum or product of numbers is a double or exact. -/
theorem call_cases {s : Store} (ho : o.flattens = true) (hmode : s.mode = .exact)
    (hargs : ∀ a ∈ args, a.WellFormed) :
    (∃ x, o.description.call s args = .double x) ∨
      ∃ qs, args.mapM Value.rat? = some qs ∧
        (o.description.call s args).Exactly (o.total qs) := by
  rw [Standard.call_of_mode_eq o.get?_place hmode]
  cases o
  case add =>
    rcases Standard.operation_cases .add hargs nofun with h | ⟨⟨⟨⟩, -⟩, -⟩ | ⟨qs, q, hqs, ⟨⟩, hv⟩
    · exact .inl h
    · exact .inr ⟨qs, hqs, hv⟩
  case multiply =>
    rcases Standard.operation_cases .mul hargs nofun with h | ⟨⟨⟨⟩, -⟩, -⟩ | ⟨qs, q, hqs, ⟨⟩, hv⟩
    · exact .inl h
    · exact .inr ⟨qs, hqs, hv⟩
  all_goals cases ho

end BinaryOperator

end Reckoner
