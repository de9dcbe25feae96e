import Reckoner.Proofs.Fraction.Rounding
import Reckoner.Proofs.Word.Operations

/-!
The operations on fractions never go wrong on the way.

Whatever the terms are, no division is by zero and no plain operation leaves the width; an operation
that cannot give the true result overflows instead. Only rounding needs a positive denominator.
-/
namespace Reckoner

namespace Fraction

open Checked Word

variable {w : Nat} {f : Fraction w}

theorem faultless_normalize (hw : 2 ≤ w) (f : Fraction w) : Faultless f.normalize := by
  intro s
  by_cases hden : f.den = 0#w
  · rw [run_normalize_of_den_eq_zero hden]
  · rcases run_normalize hw hden s with ⟨r, -, hrun⟩ | ⟨-, hrun⟩
    · rw [hrun]
    · rw [hrun]

/-- Denominators are divided by their common divisor, unless both are zero. -/
theorem faultless_align (hw : 2 ≤ w) (a b : Fraction w) : Faultless (align a b) := by
  by_cases hzero : a.den = 0#w ∧ b.den = 0#w
  · rw [align, hzero.1, hzero.2]
    exact faultless_bind_of_run run_gcd_zero (faultless_pure _)
  · obtain ⟨g, x, y, h, -⟩ := exists_cancels_of_ne hw (Decidable.not_and_iff_not_or_not.1 hzero)
    refine faultless_bind_of_run h.gcd ?_
    rw [if_neg h.ne_zero]
    exact faultless_bind_of_run h.right <| (faultless_mul _ _).bind fun _ =>
      faultless_bind_of_run h.left <| (faultless_mul _ _).bind fun _ =>
        faultless_bind_of_run h.left <| (faultless_mul _ _).bind fun _ => faultless_pure _

theorem faultless_add (hw : 2 ≤ w) (a b : Fraction w) : Faultless (add a b) :=
  (faultless_align hw a b).bind fun _ =>
    (Word.faultless_add _ _).bind fun _ => faultless_normalize hw _

theorem faultless_sub (hw : 2 ≤ w) (a b : Fraction w) : Faultless (sub a b) :=
  (faultless_align hw a b).bind fun _ =>
    (Word.faultless_sub _ _).bind fun _ => faultless_normalize hw _

theorem faultless_mul (hw : 2 ≤ w) (a b : Fraction w) : Faultless (mul a b) :=
  (Word.faultless_mul _ _).bind fun _ =>
    (Word.faultless_mul _ _).bind fun _ => faultless_normalize hw _

/-- The quotient by zero is no fault either: it is the invalid fraction. -/
theorem faultless_div (hw : 2 ≤ w) (a b : Fraction w) : Faultless (div a b) :=
  (Word.faultless_mul _ _).bind fun _ =>
    (Word.faultless_mul _ _).bind fun _ => faultless_normalize hw _

/-- Rounding divides by the denominator. -/
theorem faultless_round (hden : 0 < f.den.toInt) : Faultless f.round := by
  obtain ⟨x, hrun, -⟩ := run_round hden
  intro s
  rw [hrun]

end Fraction

end Reckoner
