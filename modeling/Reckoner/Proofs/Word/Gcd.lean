import Reckoner.Proofs.Word.Checked

/-!
The greatest common divisor of words.

The remainders of the Euclidean algorithm have the absolute values that the algorithm has on natural
numbers. The divisor itself fits but for the one that is as large as the least word.
-/
namespace Reckoner

namespace Word

variable {w : Nat}

theorem toInt_minusOne (hw : 0 < w) : (minusOne w).toInt = -1 := by
  simp [minusOne, BitVec.toInt_allOnes, hw]

theorem natAbs_euclidStep (a : BitVec w) {b : BitVec w} (hb : b ≠ 0#w) :
    (euclidStep a b).toInt.natAbs = a.toInt.natAbs % b.toInt.natAbs := by
  unfold euclidStep
  split
  · next h =>
      rw [h, toInt_minusOne (width_pos (toInt_ne_zero hb)), BitVec.toInt_zero]
      exact (Nat.mod_one _).symm
  · rw [BitVec.toInt_srem, Int.natAbs_tmod]

/-- No division of the algorithm goes wrong. -/
theorem minusOne_or_divides (a : BitVec w) {b : BitVec w} (hb : b ≠ 0#w) :
    b = minusOne w ∨ Divides a b := by
  by_cases h : b = minusOne w
  · exact .inl h
  · refine .inr (divides_of_ne hb (.inr fun hone => h ?_))
    apply BitVec.eq_of_toInt_eq
    rw [hone, toInt_minusOne (width_pos (toInt_ne_zero hb))]

theorem run_euclid_zero (a : BitVec w) (s : Status) : (euclid a 0#w).run s = (a, s) := by
  rw [euclid, if_pos rfl]
  rfl

theorem run_euclid_of_ne (a : BitVec w) {b : BitVec w} (hb : b ≠ 0#w) (s : Status) :
    (euclid a b).run s = (euclid b (euclidStep a b)).run s := by
  rw [euclid, if_neg hb]
  simp only [Checked.run_bind, Checked.run_expect, minusOne_or_divides a hb, decide_true,
    Bool.not_true, Bool.or_false]

theorem run_euclid (a b : BitVec w) :
    ∃ g, (∀ s, (euclid a b).run s = (g, s)) ∧
      g.toInt.natAbs = Nat.gcd a.toInt.natAbs b.toInt.natAbs := by
  induction a, b using euclid.induct with
  | case1 a => exact ⟨a, run_euclid_zero a, by simp⟩
  | case2 a b hb ih =>
      obtain ⟨g, hrun, hg⟩ := ih
      refine ⟨g, fun s => (run_euclid_of_ne a hb s).trans (hrun s), ?_⟩
      rw [hg, natAbs_euclidStep a hb, Nat.gcd_comm, ← Nat.gcd_rec, Nat.gcd_comm]

/-- The greatest common divisor is not negative unless it is as large as the least word. -/
theorem run_gcd (a b : BitVec w) :
    ∃ g, (∀ s, (gcd a b).run s = (g, s)) ∧
      g.toInt.natAbs = Nat.gcd a.toInt.natAbs b.toInt.natAbs ∧ (0 ≤ g.toInt ∨ g = least w) := by
  obtain ⟨g, hrun, hg⟩ := run_euclid a b
  by_cases hnegate : g.toInt < 0 ∧ g ≠ least w
  · have hfits := fits_neg_toInt (width_pos (a := g) (by omega)) hnegate.2
    refine ⟨-g, fun s => ?_, ?_, .inl ?_⟩
    · simp only [gcd, Checked.run_bind, hrun, BitVec.slt_eq_decide, BitVec.toInt_zero, hnegate.1,
        hnegate.2, ne_eq, not_false_eq_true, decide_true, Bool.and_self, if_true,
        run_opposite hfits]
    · rw [toInt_neg_of_fits hfits, Int.natAbs_neg, hg]
    · rw [toInt_neg_of_fits hfits]
      omega
  · have hcondition : (g.slt 0#w && decide (g ≠ least w)) = false := by
      simpa [BitVec.slt_eq_decide] using hnegate
    refine ⟨g, fun s => ?_, hg, ?_⟩
    · simp only [gcd, Checked.run_bind, hrun, hcondition, Bool.false_eq_true, if_false,
        Checked.run_pure]
    · by_cases hleast : g = least w
      · exact .inr hleast
      · refine .inl ?_
        have hnot : ¬ g.toInt < 0 := fun h => hnegate ⟨h, hleast⟩
        omega

/-- Only two zeros have no greatest common divisor. -/
theorem run_gcd_zero (s : Status) : (gcd 0#w 0#w).run s = (0#w, s) := by
  obtain ⟨g, hrun, hg, -⟩ := run_gcd 0#w 0#w
  have hzero : g = 0#w := BitVec.eq_of_toInt_eq (by simpa using hg)
  rw [hrun, hzero]

/-- From two bits on, a word can be divided by a common divisor of it, and the quotient is exact. -/
theorem run_quotient_of_dvd (hw : 2 ≤ w) {a g : BitVec w} (hg : g ≠ 0#w)
    (hsign : 0 ≤ g.toInt ∨ g = least w) (hdvd : g.toInt ∣ a.toInt) :
    ∃ q, (∀ s, (quotient a g).run s = (q, s)) ∧ q.toInt * g.toInt = a.toInt := by
  have hdivides : Divides a g := by
    refine divides_of_ne hg (.inr ?_)
    rcases hsign with hsign | rfl
    · omega
    · have hleast := two_mul_toInt_least (w := w) (by omega)
      have hpow := two_pow_le hw
      omega
  refine ⟨a.sdiv g, fun s => run_quotient hdivides s, ?_⟩
  rw [toInt_sdiv_of_divides hdivides]
  exact Int.tdiv_mul_cancel hdvd

/-- `g` is found as the greatest common divisor of `a` and `b`, and dividing by it gives `x` and
`y`. -/
structure Cancels (a b g x y : BitVec w) : Prop where
  gcd : ∀ s, (gcd a b).run s = (g, s)
  natAbs : g.toInt.natAbs = Nat.gcd a.toInt.natAbs b.toInt.natAbs
  ne_zero : g ≠ 0#w
  left : ∀ s, (quotient a g).run s = (x, s)
  right : ∀ s, (quotient b g).run s = (y, s)
  mul_left : x.toInt * g.toInt = a.toInt
  mul_right : y.toInt * g.toInt = b.toInt

theorem exists_cancels_of_ne (hw : 2 ≤ w) {a b : BitVec w} (h : a ≠ 0#w ∨ b ≠ 0#w) :
    ∃ g x y, Cancels a b g x y ∧ (0 ≤ g.toInt ∨ g = least w) := by
  obtain ⟨g, hgcd, hg, hsign⟩ := run_gcd a b
  have hgne : g ≠ 0#w := by
    rintro rfl
    rw [BitVec.toInt_zero, Int.natAbs_zero, eq_comm, Nat.gcd_eq_zero_iff] at hg
    rcases h with ha | hb
    · exact toInt_ne_zero ha (Int.natAbs_eq_zero.1 hg.1)
    · exact toInt_ne_zero hb (Int.natAbs_eq_zero.1 hg.2)
  have haDvd : g.toInt ∣ a.toInt := by
    rw [← Int.natAbs_dvd_natAbs, hg]
    exact Nat.gcd_dvd_left _ _
  have hbDvd : g.toInt ∣ b.toInt := by
    rw [← Int.natAbs_dvd_natAbs, hg]
    exact Nat.gcd_dvd_right _ _
  obtain ⟨x, hx, hmulLeft⟩ := run_quotient_of_dvd hw hgne hsign haDvd
  obtain ⟨y, hy, hmulRight⟩ := run_quotient_of_dvd hw hgne hsign hbDvd
  exact ⟨g, x, y, ⟨hgcd, hg, hgne, hx, hy, hmulLeft, hmulRight⟩, hsign⟩

theorem exists_cancels (hw : 2 ≤ w) (a : BitVec w) {b : BitVec w} (hb : b ≠ 0#w) :
    ∃ g x y, Cancels a b g x y := by
  obtain ⟨g, x, y, h, -⟩ := exists_cancels_of_ne hw (a := a) (.inr hb)
  exact ⟨g, x, y, h⟩

theorem Cancels.right_ne_zero {a b g x y : BitVec w} (h : Cancels a b g x y) (hb : b ≠ 0#w) :
    y.toInt ≠ 0 := by
  intro hzero
  have hmul := h.mul_right
  rw [hzero, Int.zero_mul] at hmul
  exact toInt_ne_zero hb hmul.symm

/-- Nothing is left to cancel. -/
theorem Cancels.coprime {a b g x y : BitVec w} (h : Cancels a b g x y) :
    Nat.Coprime x.toInt.natAbs y.toInt.natAbs := by
  have hg := toInt_ne_zero h.ne_zero
  have hmul : Nat.gcd (x.toInt.natAbs * g.toInt.natAbs) (y.toInt.natAbs * g.toInt.natAbs) =
      g.toInt.natAbs := by
    rw [← Int.natAbs_mul, ← Int.natAbs_mul, h.mul_left, h.mul_right, h.natAbs]
  rw [Nat.gcd_mul_right] at hmul
  exact Nat.eq_of_mul_eq_mul_right (by omega) (hmul.trans (Nat.one_mul _).symm)

end Word

end Reckoner
