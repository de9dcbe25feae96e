import Reckoner.Proofs.Word.Bounds

/-!
The checked operations on words are exact or say that they are not.

Each returns the result wrapped to the width, and raises `overflow` exactly if the true result does
not fit; no bound that it computes on the way is out of range itself.
-/
namespace Reckoner

namespace Word

variable {w : Nat}

/-- A comparison finds out what it is made for. -/
theorem decide_eq_not_decide {p q : Prop} [Decidable p] [Decidable q] (h : p ↔ ¬ q) :
    decide p = !decide q := by
  rw [← decide_not]
  exact decide_eq_decide.2 h

/-- A comparison finds out that `x` is beyond a bound. -/
theorem decide_eq_not_fits (hw : 0 < w) {p : Prop} [Decidable p] {x : Int}
    (hp : p ↔ (greatest w).toInt < x ∨ x < (least w).toInt) :
    decide p = !decide (Fits w x) := by
  apply decide_eq_not_decide
  rw [hp, fits_iff_of_pos hw]
  omega

theorem run_add (a b : BitVec w) (s : Status) :
    (add a b).run s =
      (a + b, { s with overflow := s.overflow || !decide (Fits w (a.toInt + b.toInt)) }) := by
  rcases Int.lt_trichotomy b.toInt 0 with hneg | hzero | hpos
  · have hw := width_pos (a := b) (by omega)
    have ha := toInt_bounds a hw
    have hb := toInt_bounds b hw
    have hbound : Fits w ((least w).toInt - b.toInt) := by
      rw [fits_iff_of_pos hw]
      omega
    have hmark : decide (a.toInt < (least w - b).toInt) =
        !decide (Fits w (a.toInt + b.toInt)) := by
      apply decide_eq_not_fits hw
      rw [toInt_sub_of_fits hbound]
      omega
    have hnot : ¬ 0 < b.toInt := by omega
    simp only [add, BitVec.slt_eq_decide, BitVec.toInt_zero, hneg, hnot, decide_true, decide_false,
      if_true, Bool.false_eq_true, if_false, Checked.run_bind, run_difference hbound,
      Checked.run_mark, Checked.run_pure, hmark]
  · have hfits : Fits w (a.toInt + b.toInt) := by
      rw [hzero, Int.add_zero]
      exact fits_toInt a
    have hnot : ¬ b.toInt < 0 ∧ ¬ 0 < b.toInt := by omega
    simp only [add, BitVec.slt_eq_decide, BitVec.toInt_zero, hnot, decide_false, Bool.false_eq_true,
      if_false, Checked.run_pure, hfits, decide_true, Bool.not_true, Bool.or_false]
  · have hw := width_pos (a := b) (by omega)
    have ha := toInt_bounds a hw
    have hb := toInt_bounds b hw
    have hbound : Fits w ((greatest w).toInt - b.toInt) := by
      rw [fits_iff_of_pos hw]
      omega
    have hmark : decide ((greatest w - b).toInt < a.toInt) =
        !decide (Fits w (a.toInt + b.toInt)) := by
      apply decide_eq_not_fits hw
      rw [toInt_sub_of_fits hbound]
      omega
    have hnot : ¬ b.toInt < 0 := by omega
    simp only [add, BitVec.slt_eq_decide, BitVec.toInt_zero, hpos, hnot, decide_true, decide_false,
      if_true, Bool.false_eq_true, if_false, Checked.run_bind, run_difference hbound,
      Checked.run_mark, Checked.run_pure, hmark]

theorem run_sub (a b : BitVec w) (s : Status) :
    (sub a b).run s =
      (a - b, { s with overflow := s.overflow || !decide (Fits w (a.toInt - b.toInt)) }) := by
  rcases Int.lt_trichotomy b.toInt 0 with hneg | hzero | hpos
  · have hw := width_pos (a := b) (by omega)
    have ha := toInt_bounds a hw
    have hb := toInt_bounds b hw
    have hbound : Fits w ((greatest w).toInt + b.toInt) := by
      rw [fits_iff_of_pos hw]
      omega
    have hmark : decide ((greatest w + b).toInt < a.toInt) =
        !decide (Fits w (a.toInt - b.toInt)) := by
      apply decide_eq_not_fits hw
      rw [toInt_add_of_fits hbound]
      omega
    have hnot : ¬ 0 < b.toInt := by omega
    simp only [sub, BitVec.slt_eq_decide, BitVec.toInt_zero, hneg, hnot, decide_true, decide_false,
      if_true, Bool.false_eq_true, if_false, Checked.run_bind, run_sum hbound,
      Checked.run_mark, Checked.run_pure, hmark]
  · have hfits : Fits w (a.toInt - b.toInt) := by
      rw [hzero, Int.sub_zero]
      exact fits_toInt a
    have hnot : ¬ b.toInt < 0 ∧ ¬ 0 < b.toInt := by omega
    simp only [sub, BitVec.slt_eq_decide, BitVec.toInt_zero, hnot, decide_false, Bool.false_eq_true,
      if_false, Checked.run_pure, hfits, decide_true, Bool.not_true, Bool.or_false]
  · have hw := width_pos (a := b) (by omega)
    have ha := toInt_bounds a hw
    have hb := toInt_bounds b hw
    have hbound : Fits w ((least w).toInt + b.toInt) := by
      rw [fits_iff_of_pos hw]
      omega
    have hmark : decide (a.toInt < (least w + b).toInt) =
        !decide (Fits w (a.toInt - b.toInt)) := by
      apply decide_eq_not_fits hw
      rw [toInt_add_of_fits hbound]
      omega
    have hnot : ¬ b.toInt < 0 := by omega
    simp only [sub, BitVec.slt_eq_decide, BitVec.toInt_zero, hpos, hnot, decide_true, decide_false,
      if_true, Bool.false_eq_true, if_false, Checked.run_bind, run_sum hbound,
      Checked.run_mark, Checked.run_pure, hmark]

/-- The absolute value, which only the least word does not have. -/
theorem fits_natAbs_iff (a : BitVec w) (hw : 0 < w) : Fits w a.toInt.natAbs ↔ a ≠ least w := by
  have ha := toInt_bounds a hw
  rw [fits_iff_of_pos hw, ne_eq, ← BitVec.toInt_inj]
  omega

theorem run_abs (a : BitVec w) (hw : 0 < w) (s : Status) :
    (abs a).run s =
      (if a.toInt < 0 then -a else a,
        { s with overflow := s.overflow || !decide (Fits w a.toInt.natAbs) }) := by
  have hmark : decide (a = least w) = !decide (Fits w (a.toInt.natAbs : Int)) := by
    apply decide_eq_not_decide
    rw [fits_natAbs_iff a hw, Decidable.not_not]
  simp only [abs, Checked.run_bind, Checked.run_mark, Checked.run_pure, BitVec.slt_eq_decide,
    BitVec.toInt_zero, decide_eq_true_eq, hmark]

/-! ## Multiplication -/

/-- A quotient of a bound is below a factor exactly if the product is beyond the bound. -/
theorem tdiv_lt_iff_lt_mul {x y bound : Int} (hbound : 0 ≤ bound) (hy : 0 < y) :
    bound.tdiv y < x ↔ bound < x * y := by
  rw [Int.tdiv_eq_ediv_of_nonneg hbound]
  exact Int.ediv_lt_iff_lt_mul hy

/-- Dividing by a word other than zero never leaves the width, but for the least word by `-1`. -/
theorem divides_of_ne {a b : BitVec w} (hb : b ≠ 0#w) (h : a ≠ least w ∨ b.toInt ≠ -1) :
    Divides a b := by
  refine ⟨hb, ?_⟩
  have hne := toInt_ne_zero hb
  have hw := width_pos hne
  have ha := toInt_bounds a hw
  have hsize : (a.toInt.tdiv b.toInt).natAbs ≤ a.toInt.natAbs := by
    rw [Int.natAbs_tdiv]
    exact Nat.div_le_self _ _
  rw [fits_iff_of_pos hw]
  rcases h with h | h
  · rw [ne_eq, ← BitVec.toInt_inj] at h
    omega
  · by_cases hzero : a.toInt = 0
    · rw [hzero, Int.zero_tdiv]
      omega
    · by_cases hone : b.toInt = 1
      · rw [hone, Int.tdiv_one]
        omega
      · have hless : (a.toInt.tdiv b.toInt).natAbs < a.toInt.natAbs := by
          rw [Int.natAbs_tdiv]
          exact Nat.div_lt_self (by omega) (by omega)
        omega

/-- The greatest word divided by any other than zero, and the least by a positive one. -/
theorem greatest_divides (hw : 0 < w) {a : BitVec w} (ha : a.toInt ≠ 0) :
    Divides (greatest w) a := by
  refine divides_of_ne (fun h => ha (by simp [h])) (.inl ?_)
  have hbounds := toInt_bounds (least w) hw
  rw [ne_eq, ← BitVec.toInt_inj]
  omega

theorem least_divides {a : BitVec w} (ha : 0 < a.toInt) : Divides (least w) a := by
  refine divides_of_ne (fun h => ?_) (.inr (by omega))
  simp [h] at ha

theorem decide_greatest_lt_of_pos {a b : BitVec w} (ha : 0 < a.toInt) (hb : 0 < b.toInt) :
    decide (((greatest w).sdiv b).toInt < a.toInt) = !decide (Fits w (a.toInt * b.toInt)) := by
  have hw := width_pos (a := a) (by omega)
  have hbounds := toInt_bounds a hw
  have hdivides := greatest_divides hw (show b.toInt ≠ 0 by omega)
  apply decide_eq_not_fits hw
  have hquotient := tdiv_lt_iff_lt_mul (x := a.toInt) (by omega : 0 ≤ (greatest w).toInt) hb
  have hsign : 0 < a.toInt * b.toInt := Int.mul_pos ha hb
  rw [toInt_sdiv_of_divides hdivides]
  omega

theorem decide_lt_least_of_pos {a b : BitVec w} (ha : 0 < a.toInt) (hb : b.toInt ≤ 0) :
    decide (b.toInt < ((least w).sdiv a).toInt) = !decide (Fits w (b.toInt * a.toInt)) := by
  have hw := width_pos (a := a) (by omega)
  have hbounds := toInt_bounds a hw
  have hdivides := least_divides ha
  apply decide_eq_not_fits hw
  have hquotient := tdiv_lt_iff_lt_mul (x := -b.toInt) (by omega : 0 ≤ -(least w).toInt) ha
  have hsign : b.toInt * a.toInt ≤ 0 := Int.mul_nonpos_of_nonpos_of_nonneg (by omega) (by omega)
  rw [Int.neg_tdiv, Int.neg_mul] at hquotient
  rw [toInt_sdiv_of_divides hdivides]
  omega

theorem decide_lt_greatest_of_neg {a b : BitVec w} (ha : a.toInt < 0) (hb : b.toInt ≤ 0) :
    decide (b.toInt < ((greatest w).sdiv a).toInt) = !decide (Fits w (b.toInt * a.toInt)) := by
  have hw := width_pos (a := a) (by omega)
  have hbounds := toInt_bounds a hw
  have hdivides := greatest_divides hw (show a.toInt ≠ 0 by omega)
  apply decide_eq_not_fits hw
  have hquotient := tdiv_lt_iff_lt_mul (x := -b.toInt) (by omega : 0 ≤ (greatest w).toInt)
    (by omega : 0 < -a.toInt)
  have hsign : 0 ≤ b.toInt * a.toInt := Int.mul_nonneg_of_nonpos_of_nonpos (by omega) (by omega)
  rw [Int.tdiv_neg, Int.neg_mul_neg] at hquotient
  rw [toInt_sdiv_of_divides hdivides]
  omega

/-- A product overflows exactly where it does not fit. The comparison that finds this out depends on
the signs of the factors. -/
theorem run_mul (a b : BitVec w) (s : Status) :
    (mul a b).run s =
      (a * b, { s with overflow := s.overflow || !decide (Fits w (a.toInt * b.toInt)) }) := by
  by_cases hapos : 0 < a.toInt
  · by_cases hbpos : 0 < b.toInt
    · have hdivides : Divides (greatest w) b :=
        greatest_divides (width_pos (a := a) (by omega)) (by omega)
      simp only [mul, BitVec.slt_eq_decide, BitVec.toInt_zero, hapos, hbpos, decide_true, if_true,
        Checked.run_bind, run_quotient hdivides, Checked.run_mark, Checked.run_pure,
        decide_greatest_lt_of_pos hapos hbpos]
    · have hmark := decide_lt_least_of_pos hapos (show b.toInt ≤ 0 by omega)
      rw [Int.mul_comm] at hmark
      simp only [mul, BitVec.slt_eq_decide, BitVec.toInt_zero, hapos, hbpos, decide_true,
        decide_false, if_true, Bool.false_eq_true, if_false, Checked.run_bind,
        run_quotient (least_divides hapos), Checked.run_mark, Checked.run_pure, hmark]
  · by_cases hbpos : 0 < b.toInt
    · have hmark := decide_lt_least_of_pos hbpos (show a.toInt ≤ 0 by omega)
      simp only [mul, BitVec.slt_eq_decide, BitVec.toInt_zero, hapos, hbpos, decide_true,
        decide_false, if_true, Bool.false_eq_true, if_false, Checked.run_bind,
        run_quotient (least_divides hbpos), Checked.run_mark, Checked.run_pure, hmark]
    · by_cases hzero : a = 0#w
      · have hfits : Fits w (a.toInt * b.toInt) := by
          rw [hzero, BitVec.toInt_zero, Int.zero_mul]
          exact fits_zero
        have hnot : ¬ a ≠ 0#w := fun h => h hzero
        simp only [mul, BitVec.slt_eq_decide, BitVec.toInt_zero, hapos, hbpos, hnot, decide_false,
          Bool.false_eq_true, if_false, Checked.run_pure, hfits, decide_true, Bool.not_true,
          Bool.or_false]
      · have hane := toInt_ne_zero hzero
        have hdivides : Divides (greatest w) a := greatest_divides (width_pos hane) hane
        have hmark := decide_lt_greatest_of_neg (show a.toInt < 0 by omega)
          (show b.toInt ≤ 0 by omega)
        rw [Int.mul_comm] at hmark
        simp only [mul, BitVec.slt_eq_decide, BitVec.toInt_zero, hapos, hbpos, hzero, decide_false,
          ne_eq, not_false_eq_true, if_true, Bool.false_eq_true, if_false,
          Checked.run_bind, run_quotient hdivides, Checked.run_mark, Checked.run_pure, hmark]

end Word

end Reckoner
