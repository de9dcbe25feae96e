import Reckoner.Proofs.Fraction.Exactness
import Reckoner.Proofs.Fraction.Faults
import Reckoner.Proofs.Fraction.Reading
import Reckoner.Proofs.Word.Multiple
import Reckoner.Proofs.Word.Rounds

/-!
The exact arithmetic never goes wrong on the way.

From eight bits on no step that takes a result to fit or a divisor not to be zero is mistaken about
it, whatever the words and fractions are: also where an overflow has left wrapped terms that stand for
nothing, since every step is safe for all of them.
-/
namespace Reckoner

namespace Word

variable {w : Nat}

theorem FindsGcd.faultless {a b : BitVec w} (h : FindsGcd a b) : Checked.Faultless (gcd a b) := by
  obtain ⟨g, -, hrun⟩ := h.found
  intro s
  rw [hrun]

theorem toInt_ten (hw : 8 ≤ w) : (10#w).toInt = 10 := by
  have hpow := two_pow_le hw
  have hfits : Fits w 10 := by
    rw [fits_iff]
    omega
  exact hfits

end Word

namespace Fraction

open Checked Word

variable {w : Nat}

theorem Operation.faultless_apply (hw : 2 ≤ w) (o : Operation) (f g : Fraction w) :
    Faultless (o.apply f g) := by
  cases o with
  | add => exact faultless_add hw f g
  | sub => exact faultless_sub hw f g
  | mul => exact faultless_mul hw f g
  | div => exact faultless_div hw f g

/-! ## The decimal reading -/

/-- Nothing is divided if there are no lowest terms that fit. -/
theorem faultless_readDecimal_of_invalid (hw : 2 ≤ w) {f : Fraction w}
    (h : f.reduced.den = 0#w) (budget : Nat) : Faultless (f.readDecimal budget) := by
  intro s
  have hresult := (oblivious_normalize f).result { s with overflow := false }
  have hfault := faultless_normalize hw f { s with overflow := false }
  rcases hrun : f.normalize.run { s with overflow := false } with ⟨g, t⟩
  rw [hrun] at hresult hfault
  obtain rfl : g = f.reduced := hresult
  simp only [readDecimal, run_bind, run_apart, hrun, h, if_true, run_pure]
  exact hfault

theorem faultless_readDecimal_of_integer {f : Fraction w}
    (hnormalize : ∀ s, f.normalize.run s = (f.reduced, s)) (hden : f.reduced.den ≠ 0#w)
    (hone : f.reduced.den = 1#w) (budget : Nat) : Faultless (f.readDecimal budget) := by
  intro s
  rw [hone] at hden
  simp only [readDecimal, run_bind, run_apart, hnormalize, hone, hden, if_false, if_true, run_pure]

/-- The long division is one of a remainder by a denominator from two up. -/
theorem faultless_readDecimal (hw : 8 ≤ w) (f : Fraction w) (budget : Nat) :
    Faultless (f.readDecimal budget) := by
  have hwidth : 2 ≤ w := by omega
  by_cases hinvalid : f.reduced.den = 0#w
  · exact faultless_readDecimal_of_invalid hwidth hinvalid budget
  · obtain ⟨hr, hnormalize⟩ := run_normalize_of_valid hwidth hinvalid
    by_cases hone : f.reduced.den = 1#w
    · exact faultless_readDecimal_of_integer hnormalize hinvalid hone budget
    · have hden : 2 ≤ f.toRat.den := by
        have hpos := f.toRat.den_pos
        have hne : f.toRat.den ≠ 1 := by
          intro hunit
          refine hone (BitVec.eq_of_toInt_eq ?_)
          rw [hr.den, hunit, BitVec.toInt_one (by omega)]
          rfl
        omega
      obtain ⟨_, _, -, hrun⟩ := exists_run_readDecimal (toInt_ten hw) hnormalize hr hden budget
      intro s
      rw [hrun]

/-! ## All operations -/

/-- The exact arithmetic never goes wrong. In words of eight bits or more, whatever the words and
the pairs are: the loop of the greatest common divisor ends and the divisor is found, or the least
word in its place exactly if it does not fit; and in the greatest common divisor, the least common
multiple, normalization, the four operations and the decimal reading no division is by zero and no
result of a step that is not checked leaves the width. -/
theorem never_faults (hw : 8 ≤ w) (a b : BitVec w) (f g : Fraction w) (budget : Nat) :
    FindsGcd a b ∧ Faultless (gcd a b) ∧ Faultless (lcm a b) ∧ Faultless f.normalize ∧
      (∀ o : Operation, Faultless (o.apply f g)) ∧ Faultless (f.readDecimal budget) := by
  have hwidth : 2 ≤ w := by omega
  have hgcd := findsGcd (show 0 < w by omega) a b
  exact ⟨hgcd, hgcd.faultless, faultless_lcm hwidth a b, faultless_normalize hwidth f,
    fun o => o.faultless_apply hwidth f g, faultless_readDecimal hw f budget⟩

/-- Eight bits, and two fractions with negative denominators: one is not in lowest terms, the other
one has none that fit, and the numerator of their product wraps. -/
theorem never_faults_least :
    let a := least 8
    let f : Fraction 8 := ⟨-100#8, -6#8⟩
    let g : Fraction 8 := ⟨a, minusOne 8⟩
    8 ≤ 8 ∧ ((Operation.mul.apply f g).run {}).2.overflow = true ∧
      FindsGcd a a ∧ Faultless (gcd a a) ∧ Faultless (lcm a a) ∧ Faultless f.normalize ∧
      (∀ o : Operation, Faultless (o.apply f g)) ∧ Faultless (f.readDecimal 3) := by
  intro a f g
  have hw : 8 ≤ 8 := by decide
  exact ⟨hw, by decide +kernel, never_faults hw a a f g 3⟩

/-- A single bit is not enough: minus one divided by itself does not fit. -/
example : ((normalize (⟨1#1, 1#1⟩ : Fraction 1)).run {}).2.fault = true := by decide +kernel

end Fraction

end Reckoner
