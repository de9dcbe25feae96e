import Mathlib.Algebra.Order.Floor.Ring
import Mathlib.Data.Rat.Floor
import Reckoner.Proofs.Fraction.Normalize

/-!
Rounding to the nearest whole number.
-/
namespace Reckoner

/-- The nearest integer, halves away from zero. -/
def nearestInt (q : ℚ) : ℤ :=
  if 0 ≤ q then ⌊q + 1 / 2⌋ else -⌊-q + 1 / 2⌋

/-- Every other integer is farther from `q`, or as far and nearer to zero. -/
def IsNearest (q : ℚ) (n : ℤ) : Prop :=
  ∀ m : ℤ, m ≠ n → |q - n| < |q - m| ∨ |q - n| = |q - m| ∧ |m| < |n|

theorem IsNearest.neg {q : ℚ} {n : ℤ} (h : IsNearest q n) : IsNearest (-q) (-n) := by
  have hdistance : ∀ k : ℤ, |-q - k| = |q - (-k : ℤ)| := by
    intro k
    rw [← abs_neg]
    push_cast
    congr 1
    ring
  intro m hm
  have hother := h (-m) (by omega)
  rwa [hdistance, hdistance, neg_neg, abs_neg n, ← abs_neg m]

theorem isNearest_floor {q : ℚ} (hq : 0 ≤ q) : IsNearest q ⌊q + 1 / 2⌋ := by
  have hlow := Int.floor_le (q + 1 / 2)
  have hhigh := Int.lt_floor_add_one (q + 1 / 2)
  have hnonneg : 0 ≤ ⌊q + 1 / 2⌋ := Int.floor_nonneg.2 (by linarith)
  generalize ⌊q + 1 / 2⌋ = n at *
  have hhalf : |q - n| ≤ 1 / 2 := abs_le.2 ⟨by linarith, by linarith⟩
  intro m hm
  rcases lt_or_gt_of_ne hm with hless | hmore
  · have hcast : (m : ℚ) ≤ n - 1 := by exact_mod_cast Int.le_sub_one_of_lt hless
    rw [abs_of_nonneg (show 0 ≤ q - m by linarith)]
    -- A lower integer is as near only if `q` lies half way between the two.
    by_cases htie : |q - n| < q - m
    · exact .inl htie
    · have hequal : |q - n| = q - m := by linarith
      have hnext : (m : ℚ) = n - 1 := by linarith
      have hnext' : m = n - 1 := by exact_mod_cast hnext
      have hpos : (0 : ℚ) < n := by linarith
      have hpos' : 0 < n := by exact_mod_cast hpos
      refine .inr ⟨hequal, ?_⟩
      rw [abs_of_nonneg (show 0 ≤ m by omega), abs_of_nonneg hnonneg]
      exact hless
  · have hcast : (n : ℚ) + 1 ≤ m := by exact_mod_cast Int.add_one_le_of_lt hmore
    left
    rw [abs_of_neg (show q - m < 0 by linarith)]
    linarith

theorem isNearest_nearestInt (q : ℚ) : IsNearest q (nearestInt q) := by
  unfold nearestInt
  split
  · next hq => exact isNearest_floor hq
  · next hq =>
      have hopposite := (isNearest_floor (q := -q) (by linarith)).neg
      rwa [neg_neg] at hopposite

/-- Rounding `n / d` by the quotient and remainder of natural numbers. -/
theorem floor_div_add_half {n d : Int} (hn : 0 ≤ n) (hd : 0 < d) :
    ⌊(n : ℚ) / d + 1 / 2⌋ = if 2 * (n % d) < d then n / d else n / d + 1 := by
  have hdRat : (0 : ℚ) < d := by exact_mod_cast hd
  have hmod := Int.emod_lt_of_pos n hd
  have hnonneg := Int.emod_nonneg n hd.ne'
  have hdiv := Int.mul_ediv_add_emod n d
  have hsplit : (n : ℚ) / d + 1 / 2 = (2 * n + d) / (2 * d) := by
    field_simp
  rw [hsplit, Int.floor_eq_iff, le_div_iff₀ (by positivity), div_lt_iff₀ (by positivity)]
  generalize n / d = k at hdiv ⊢
  generalize n % d = r at *
  subst hdiv
  split
  · next h =>
      constructor
      · have hle : k * (2 * d) ≤ 2 * (d * k + r) + d := by nlinarith
        exact_mod_cast hle
      · have hlt : 2 * (d * k + r) + d < (k + 1) * (2 * d) := by nlinarith
        exact_mod_cast hlt
  · next h =>
      constructor
      · have hle : (k + 1) * (2 * d) ≤ 2 * (d * k + r) + d := by nlinarith
        exact_mod_cast hle
      · have hlt : 2 * (d * k + r) + d < (k + 1 + 1) * (2 * d) := by nlinarith
        exact_mod_cast hlt

/-- The nearest integer by quotient and remainder toward zero. -/
theorem nearestInt_div {n d : Int} (hd : 0 < d) :
    nearestInt ((n : ℚ) / d) =
      if (n.tmod d).natAbs < d - (n.tmod d).natAbs then n.tdiv d
      else n.tdiv d + (n.tmod d).sign := by
  have hdRat : (0 : ℚ) < d := by exact_mod_cast hd
  rcases lt_or_ge n 0 with hneg | hpos
  · obtain ⟨m, rfl⟩ : ∃ m, n = -m := ⟨-n, by omega⟩
    have hm : (0 : ℚ) < m := by exact_mod_cast (by omega : 0 < m)
    have hnot : ¬ (0 : ℚ) ≤ ((-m : Int) : ℚ) / d := by
      push_cast
      rw [not_le]
      exact div_neg_of_neg_of_pos (by linarith) hdRat
    have hopposite : -(((-m : Int) : ℚ) / d) = (m : ℚ) / d := by
      push_cast
      ring
    rw [nearestInt, if_neg hnot, hopposite, floor_div_add_half (by omega) hd, Int.neg_tdiv,
      Int.neg_tmod, Int.tdiv_eq_ediv_of_nonneg (by omega), Int.tmod_eq_emod_of_nonneg (by omega),
      Int.natAbs_neg, Int.sign_neg]
    have hnonneg := Int.emod_nonneg m hd.ne'
    split
    · next h => rw [if_pos (by omega)]
    · next h =>
        rw [if_neg (by omega), Int.sign_eq_one_of_pos (by omega)]
        omega
  · have hq : (0 : ℚ) ≤ (n : ℚ) / d := by positivity
    rw [nearestInt, if_pos hq, floor_div_add_half hpos hd, Int.tdiv_eq_ediv_of_nonneg hpos,
      Int.tmod_eq_emod_of_nonneg hpos]
    have hnonneg := Int.emod_nonneg n hd.ne'
    split
    · next h => rw [if_pos (by omega)]
    · next h => rw [if_neg (by omega), Int.sign_eq_one_of_pos (by omega)]

/-- A rounded ratio lies between zero and the numerator. -/
theorem nearestInt_div_between {n d : Int} (hd : 0 < d) :
    (0 ≤ nearestInt ((n : ℚ) / d) ∧ nearestInt ((n : ℚ) / d) ≤ n) ∨
      (n ≤ nearestInt ((n : ℚ) / d) ∧ nearestInt ((n : ℚ) / d) ≤ 0) := by
  rw [nearestInt_div hd]
  have hcases : ∀ m : Int, 0 ≤ m → 0 ≤ m / d ∧ 0 ≤ m % d ∧ m / d + m % d ≤ m := by
    intro m hm
    have hquotient := Int.ediv_nonneg hm hd.le
    have hremainder := Int.emod_nonneg m hd.ne'
    have hsplit := Int.mul_ediv_add_emod m d
    have hle : m / d ≤ d * (m / d) := by nlinarith
    exact ⟨hquotient, hremainder, by omega⟩
  rcases lt_or_ge n 0 with hneg | hpos
  · obtain ⟨m, rfl⟩ : ∃ m, n = -m := ⟨-n, by omega⟩
    obtain ⟨hquotient, hremainder, hle⟩ := hcases m (by omega)
    right
    rw [Int.neg_tdiv, Int.neg_tmod, Int.tdiv_eq_ediv_of_nonneg (by omega),
      Int.tmod_eq_emod_of_nonneg (by omega), Int.natAbs_neg, Int.sign_neg]
    split
    · omega
    · rw [Int.sign_eq_one_of_pos (by omega)]
      omega
  · obtain ⟨hquotient, hremainder, hle⟩ := hcases n hpos
    left
    rw [Int.tdiv_eq_ediv_of_nonneg hpos, Int.tmod_eq_emod_of_nonneg hpos]
    split
    · omega
    · rw [Int.sign_eq_one_of_pos (by omega)]
      omega

namespace Word

variable {w : Nat}

theorem run_magnitude {a : BitVec w} (h : Fits w a.toInt.natAbs) :
    ∃ size, (∀ s, (magnitude a).run s = (size, s)) ∧ size.toInt = a.toInt.natAbs := by
  by_cases hneg : a.toInt < 0
  · have hfits : Fits w (-a.toInt) := by
      have heq : (a.toInt.natAbs : Int) = -a.toInt := by omega
      rwa [heq] at h
    refine ⟨-a, fun s => ?_, ?_⟩
    · simp only [magnitude, BitVec.slt_eq_decide, BitVec.toInt_zero, hneg, decide_true, if_true,
        run_opposite hfits]
    · rw [toInt_neg_of_fits hfits]
      omega
  · refine ⟨a, fun s => ?_, by omega⟩
    simp only [magnitude, BitVec.slt_eq_decide, BitVec.toInt_zero, hneg, decide_false,
      Bool.false_eq_true, if_false, Checked.run_pure]

end Word

namespace Fraction

open Word

variable {w : Nat} {f : Fraction w}

theorem toInt_signum (hw : 1 < w) (a : BitVec w) : (signum a).toInt = a.toInt.sign := by
  unfold signum
  by_cases hneg : a.toInt < 0
  · simp only [BitVec.slt_eq_decide, BitVec.toInt_zero, hneg, decide_true, if_true]
    rw [toInt_minusOne (by omega), Int.sign_eq_neg_one_of_neg hneg]
  · by_cases hzero : a = 0#w
    · simp [hzero, BitVec.slt_eq_decide]
    · have hne := toInt_ne_zero hzero
      simp only [BitVec.slt_eq_decide, BitVec.toInt_zero, hneg, decide_false, Bool.false_eq_true,
        if_false, hzero]
      rw [BitVec.toInt_one hw, Int.sign_eq_one_of_pos (by omega)]

/-- Rounding finds the nearest whole number, and none of its steps leaves the width. -/
theorem run_round (hden : 0 < f.den.toInt) :
    ∃ x, (∀ s, f.round.run s = (x, s)) ∧ x.toInt = nearestInt f.toRat := by
  have hw := width_of_pos hden
  have hwpos : 0 < w := by omega
  have hne : f.den ≠ 0#w := by
    intro h
    simp [h] at hden
  have hdivides : Divides f.num f.den := divides_of_ne hne (.inr (by omega))
  have hremainder : (f.num.srem f.den).toInt = f.num.toInt.tmod f.den.toInt := BitVec.toInt_srem _ _
  have hsmall : (f.num.toInt.tmod f.den.toInt).natAbs < f.den.toInt.natAbs := by
    rw [Int.natAbs_tmod]
    exact Nat.mod_lt _ (by omega)
  have hbounds := toInt_bounds f.den hwpos
  have hsizeFits : Word.Fits w (f.num.srem f.den).toInt.natAbs := by
    rw [hremainder, fits_iff_of_pos hwpos]
    omega
  obtain ⟨size, hsize, hsizeInt⟩ := run_magnitude hsizeFits
  rw [hremainder] at hsizeInt
  have hlackingFits : Word.Fits w (f.den.toInt - size.toInt) := by
    rw [fits_iff_of_pos hwpos]
    omega
  have hnearest := nearestInt_div (n := f.num.toInt) hden
  have hfits : Word.Fits w (nearestInt f.toRat) := by
    have hzero : Word.Fits w 0 := by
      rw [fits_iff_of_pos hwpos]
      omega
    rcases nearestInt_div_between (n := f.num.toInt) hden with ⟨hlow, hhigh⟩ | ⟨hlow, hhigh⟩
    · exact hzero.between (fits_toInt f.num) hlow hhigh
    · exact (fits_toInt f.num).between hzero hlow hhigh
  have hquotient := toInt_sdiv_of_divides hdivides
  by_cases hless : size.toInt < f.den.toInt - size.toInt
  · refine ⟨f.num.sdiv f.den, fun s => ?_, ?_⟩
    · simp only [round, Checked.run_bind, run_quotient hdivides, run_remainder hdivides, hsize,
        run_difference hlackingFits, BitVec.slt_eq_decide, toInt_sub_of_fits hlackingFits, hless,
        decide_true, if_true, Checked.run_pure]
    · rw [toRat, hnearest, if_pos (by omega), hquotient]
  · rw [toRat, hnearest, if_neg (by omega)] at hfits
    have hsum : Word.Fits w ((f.num.sdiv f.den).toInt + (signum (f.num.srem f.den)).toInt) := by
      rw [hquotient, toInt_signum hw, hremainder]
      exact hfits
    refine ⟨f.num.sdiv f.den + signum (f.num.srem f.den), fun s => ?_, ?_⟩
    · simp only [round, Checked.run_bind, run_quotient hdivides, run_remainder hdivides, hsize,
        run_difference hlackingFits, BitVec.slt_eq_decide, toInt_sub_of_fits hlackingFits, hless,
        decide_false, Bool.false_eq_true, if_false, run_sum hsum]
    · rw [toRat, hnearest, if_neg (by omega), toInt_add_of_fits hsum, hquotient, toInt_signum hw,
        hremainder]

end Fraction

end Reckoner
