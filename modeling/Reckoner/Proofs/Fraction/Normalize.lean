import Mathlib.Algebra.Order.Field.Rat
import Mathlib.Data.Nat.GCD.Basic
import Mathlib.Data.Nat.Prime.Basic
import Mathlib.Data.Rat.Lemmas
import Reckoner.Fraction
import Reckoner.Proofs.Word.Gcd

/-!
Lowest terms.

A raw pair with a denominator other than zero stands for a rational number, and normalization finds
the one pair that represents this number with a positive denominator and no common divisor. Where a
term of it does not fit, normalization says so and gives the invalid fraction.
-/
namespace Reckoner

namespace Fraction

open Word

variable {w : Nat}

/-- The rational number that a pair of words stands for; zero if the denominator is zero. -/
def toRat (f : Fraction w) : ℚ :=
  (f.num.toInt : ℚ) / (f.den.toInt : ℚ)

/-- The pair is the lowest-terms form of `q` with a positive denominator. -/
structure Represents (f : Fraction w) (q : ℚ) : Prop where
  num : f.num.toInt = q.num
  den : f.den.toInt = q.den

variable {f g : Fraction w} {p q : ℚ}

theorem Represents.toRat_eq (h : Represents f q) : f.toRat = q := by
  rw [toRat, h.num, h.den]
  exact_mod_cast Rat.num_div_den q

theorem Represents.den_pos (h : Represents f q) : 0 < f.den.toInt := by
  rw [h.den]
  exact_mod_cast q.den_pos

theorem Represents.den_ne_zero (h : Represents f q) : f.den ≠ 0#w := by
  intro hzero
  have hpos := h.den_pos
  simp [hzero] at hpos

theorem Represents.unique (hf : Represents f q) (hg : Represents g q) : f = g := by
  have hnum : f.num = g.num := BitVec.eq_of_toInt_eq (hf.num.trans hg.num.symm)
  have hden : f.den = g.den := BitVec.eq_of_toInt_eq (hf.den.trans hg.den.symm)
  cases f
  cases g
  simp_all

/-- Both terms of the lowest-terms form of `q` fit. -/
def Fits (w : Nat) (q : ℚ) : Prop :=
  Word.Fits w q.num ∧ Word.Fits w q.den

theorem Represents.fits (h : Represents f q) : Fits w q :=
  ⟨h.num ▸ fits_toInt f.num, h.den ▸ fits_toInt f.den⟩

theorem represents_of_coprime {f : Fraction w} (hden : 0 < f.den.toInt)
    (hcoprime : Nat.Coprime f.num.toInt.natAbs f.den.toInt.natAbs) : Represents f f.toRat where
  num := (Rat.num_div_eq_of_coprime hden hcoprime).symm
  den := (Rat.den_div_eq_of_coprime hden hcoprime).symm

theorem run_normalize_of_den_eq_zero (h : f.den = 0#w) (s : Status) :
    f.normalize.run s = (invalid, s) := by
  simp only [normalize, h, if_true, Checked.run_pure]

/-- Cancelling a common divisor leaves the ratio as it is. -/
theorem toRat_eq_of_cancels {g n d : BitVec w} (h : Cancels f.num f.den g n d) :
    f.toRat = (n.toInt : ℚ) / (d.toInt : ℚ) := by
  have hg : (g.toInt : ℚ) ≠ 0 := by exact_mod_cast toInt_ne_zero h.ne_zero
  rw [toRat, ← h.mul_left, ← h.mul_right]
  push_cast
  exact mul_div_mul_right _ _ hg

/-- Normalization finds the lowest-terms form if both its terms fit, and overflows otherwise. -/
theorem run_normalize (hw : 2 ≤ w) (hden : f.den ≠ 0#w) (s : Status) :
    (∃ r, Represents r f.toRat ∧ f.normalize.run s = (r, s)) ∨
      ¬ Fits w f.toRat ∧ f.normalize.run s = (invalid, { s with overflow := true }) := by
  obtain ⟨g, n, d, h⟩ := exists_cancels hw f.num hden
  have hrat := toRat_eq_of_cancels h
  have hcoprime := h.coprime
  have hdne := h.right_ne_zero hden
  have hwpos : 0 < w := by omega
  rcases Int.lt_or_gt_of_ne hdne with hdneg | hdpos
  · -- The sign moves to the numerator, if both terms have an opposite.
    have hnot : ¬ 0 < d.toInt := by omega
    have hopposite : f.toRat = ((-n.toInt : ℤ) : ℚ) / ((-d.toInt : ℤ) : ℚ) := by
      rw [hrat]
      push_cast
      exact (neg_div_neg_eq _ _).symm
    have hcoprime' : Nat.Coprime (-n.toInt).natAbs (-d.toInt).natAbs := by simpa using hcoprime
    have hnumEq : f.toRat.num = -n.toInt := by
      rw [hopposite]
      exact Rat.num_div_eq_of_coprime (by omega) hcoprime'
    have hdenEq : (f.toRat.den : ℤ) = -d.toInt := by
      rw [hopposite]
      exact Rat.den_div_eq_of_coprime (by omega) hcoprime'
    by_cases hleast : n = least w ∨ d = least w
    · refine .inr ⟨?_, ?_⟩
      · rintro ⟨hnfits, hdfits⟩
        rw [hnumEq] at hnfits
        rw [hdenEq] at hdfits
        rcases hleast with rfl | rfl
        · exact not_fits_neg_least hwpos hnfits
        · exact not_fits_neg_least hwpos hdfits
      · simp only [normalize, hden, if_false, Checked.run_bind, h.gcd, h.left, h.right,
          BitVec.slt_eq_decide, BitVec.toInt_zero, hnot, decide_false, Bool.false_eq_true, hleast, if_true,
          Checked.run_mark, Checked.run_pure, Bool.or_true]
    · have hnfits := fits_neg_toInt hwpos fun h => hleast (.inl h)
      have hdfits := fits_neg_toInt hwpos fun h => hleast (.inr h)
      refine .inl ⟨⟨-n, -d⟩, ⟨?_, ?_⟩, ?_⟩
      · rw [toInt_neg_of_fits hnfits, hnumEq]
      · rw [toInt_neg_of_fits hdfits, hdenEq]
      · simp only [normalize, hden, if_false, Checked.run_bind, h.gcd, h.left, h.right,
          BitVec.slt_eq_decide, BitVec.toInt_zero, hnot, decide_false, Bool.false_eq_true, hleast,
          run_opposite hnfits, run_opposite hdfits, Checked.run_pure]
  · refine .inl ⟨⟨n, d⟩, ?_, ?_⟩
    · rw [hrat]
      exact represents_of_coprime hdpos hcoprime
    · simp only [normalize, hden, if_false, Checked.run_bind, h.gcd, h.left, h.right,
        BitVec.slt_eq_decide, BitVec.toInt_zero, hdpos, decide_true, if_true, Checked.run_pure]

/-- A fraction in lowest terms is its own lowest-terms form. -/
theorem run_normalize_of_represents (h : Represents f q) (s : Status) :
    f.normalize.run s = (f, s) := by
  rcases run_normalize (width_of_pos h.den_pos) h.den_ne_zero s with ⟨r, hr, hrun⟩ | ⟨hfits, -⟩
  · rw [h.toRat_eq] at hr
    rw [hrun, hr.unique h]
  · rw [h.toRat_eq] at hfits
    exact absurd h.fits hfits

theorem reduced_of_den_eq_zero (h : f.den = 0#w) : f.reduced = invalid := by
  rw [reduced, Checked.result, run_normalize_of_den_eq_zero h]

/-- The reduced fraction is the lowest-terms form if both its terms fit, and invalid otherwise. -/
theorem reduced_cases (hw : 2 ≤ w) (hden : f.den ≠ 0#w) :
    Represents f.reduced f.toRat ∨ ¬ Fits w f.toRat ∧ f.reduced = invalid := by
  rcases run_normalize hw hden {} with ⟨r, hr, hrun⟩ | ⟨hfits, hrun⟩
  · left
    rwa [reduced, Checked.result, hrun]
  · right
    rw [reduced, Checked.result, hrun]
    exact ⟨hfits, rfl⟩

/-- A valid reduced fraction is the lowest-terms form, found without any report. -/
theorem run_normalize_of_valid (hw : 2 ≤ w) (h : f.reduced.den ≠ 0#w) :
    Represents f.reduced f.toRat ∧ ∀ s, f.normalize.run s = (f.reduced, s) := by
  have hden : f.den ≠ 0#w := fun hzero => h (by rw [reduced_of_den_eq_zero hzero]; rfl)
  have hrepresents : Represents f.reduced f.toRat := by
    rcases reduced_cases hw hden with hr | ⟨-, hinvalid⟩
    · exact hr
    · exact absurd (by rw [hinvalid]; rfl) h
  refine ⟨hrepresents, fun s => ?_⟩
  rcases run_normalize hw hden s with ⟨r, hr, hrun⟩ | ⟨hfits, -⟩
  · rw [hrun, hr.unique hrepresents]
  · exact absurd hrepresents.fits hfits

/-! ## Pairs whose ratio does not fit -/

/-- The pair has a ratio, but its sign cannot move to the numerator: one term is the least word,
which has no opposite, and nothing cancels since the other one is odd. -/
def Stranded (f : Fraction w) : Prop :=
  f.den.toInt < 0 ∧
    (f.num = least w ∧ Odd f.den.toInt ∨ f.den = least w ∧ Odd f.num.toInt)

/-- The size of the least word is a power of two. -/
theorem coprime_least_iff (hw : 2 ≤ w) (m : ℤ) :
    Nat.Coprime m.natAbs (least w).toInt.natAbs ↔ Odd m := by
  have hsize : (least w).toInt.natAbs = 2 ^ (w - 1) := by
    rw [least, BitVec.toInt_intMin_of_pos (by omega)]
    simp
  rw [hsize, Nat.coprime_pow_right_iff (by omega), Nat.coprime_two_right, Int.natAbs_odd]

theorem exists_multiple (hden : f.den ≠ 0#w) :
    ∃ c : ℤ, f.num.toInt = c * f.toRat.num ∧ f.den.toInt = c * f.toRat.den :=
  Rat.num_den_mk (toInt_ne_zero hden) (Rat.divInt_eq_div _ _).symm

/-- A common factor other than `-1` leaves terms that fit. -/
theorem fits_of_multiple {x y c : ℤ} (h : Word.Fits w x) (hx : x = c * y) (hzero : c ≠ 0)
    (hminus : c ≠ -1) : Word.Fits w y := by
  by_cases hone : c = 1
  · rw [hx, hone, one_mul] at h
    exact h
  · refine h.of_two_mul_le ?_
    rw [hx, Int.natAbs_mul]
    exact Nat.mul_le_mul_right _ (by omega)

/-- The terms of a stranded pair have no common divisor. -/
theorem Stranded.coprime (hw : 2 ≤ w) (h : f.Stranded) :
    Nat.Coprime f.num.toInt.natAbs f.den.toInt.natAbs := by
  rcases h.2 with ⟨hleast, hodd⟩ | ⟨hleast, hodd⟩
  · rw [hleast, Nat.coprime_comm]
    exact (coprime_least_iff hw _).2 hodd
  · rw [hleast]
    exact (coprime_least_iff hw _).2 hodd

/-- A pair has a ratio that does not fit exactly if it is stranded. -/
theorem stranded_iff (hw : 2 ≤ w) (hden : f.den ≠ 0#w) : f.Stranded ↔ ¬ Fits w f.toRat := by
  have hwpos : 0 < w := by omega
  have hpos := f.toRat.den_pos
  obtain ⟨c, hnum, hdenom⟩ := exists_multiple hden
  constructor
  · intro h
    have hunit : c.natAbs = 1 := Nat.eq_one_of_dvd_coprimes (h.coprime hw)
      (Int.natAbs_dvd_natAbs.2 ⟨_, hnum⟩) (Int.natAbs_dvd_natAbs.2 ⟨_, hdenom⟩)
    have hminus : c = -1 := by
      rcases Int.natAbs_eq_iff.1 hunit with rfl | rfl
      · have hneg := h.1
        omega
      · rfl
    rw [hminus, neg_one_mul] at hnum hdenom
    rintro ⟨hnfits, hdfits⟩
    rcases h.2 with ⟨hleast, -⟩ | ⟨hleast, -⟩
    · rw [← neg_eq_iff_eq_neg.2 hnum, hleast] at hnfits
      exact not_fits_neg_least hwpos hnfits
    · rw [← neg_eq_iff_eq_neg.2 hdenom, hleast] at hdfits
      exact not_fits_neg_least hwpos hdfits
  · intro h
    have hzero : c ≠ 0 := by
      rintro rfl
      exact toInt_ne_zero hden (by rw [hdenom, zero_mul])
    have hminus : c = -1 := by
      by_contra hminus
      exact h ⟨fits_of_multiple (fits_toInt f.num) hnum hzero hminus,
        fits_of_multiple (fits_toInt f.den) hdenom hzero hminus⟩
    rw [hminus, neg_one_mul] at hnum hdenom
    have hcoprime := f.toRat.reduced
    rw [← Int.natAbs_natCast f.toRat.den, ← neg_eq_iff_eq_neg.2 hnum, ← neg_eq_iff_eq_neg.2 hdenom,
      Int.natAbs_neg, Int.natAbs_neg] at hcoprime
    refine ⟨by omega, ?_⟩
    by_cases hleastNum : f.num = least w
    · rw [hleastNum, Nat.coprime_comm] at hcoprime
      exact .inl ⟨hleastNum, (coprime_least_iff hw _).1 hcoprime⟩
    · by_cases hleastDen : f.den = least w
      · rw [hleastDen] at hcoprime
        exact .inr ⟨hleastDen, (coprime_least_iff hw _).1 hcoprime⟩
      · refine absurd ⟨?_, ?_⟩ h
        · rw [← neg_eq_iff_eq_neg.2 hnum]
          exact fits_neg_toInt hwpos hleastNum
        · rw [← neg_eq_iff_eq_neg.2 hdenom]
          exact fits_neg_toInt hwpos hleastDen

end Fraction

end Reckoner
