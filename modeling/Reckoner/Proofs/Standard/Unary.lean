import Reckoner.Proofs.Fraction.Rounding
import Reckoner.Proofs.Standard.Fallback

/-!
The exact functions of one operand.

The opposite and the absolute value of an exact number are exact, unless its numerator is the least
word, whose opposite does not fit: both are then left to floating point. Rounding is always exact.
-/
namespace Reckoner

namespace Standard

variable {v : Value} {q : ℚ} {f : Fraction 64}

theorem represents_neg (hf : f.Represents q) (hleast : f.num ≠ Word.least 64) :
    f.neg.Represents (-q) where
  num := by
    rw [Fraction.neg, Word.toInt_neg_of_fits (Word.fits_neg_toInt (by decide) hleast), hf.num,
      Rat.neg_num]
  den := by rw [Fraction.neg, hf.den, Rat.neg_den]

theorem unlessOverflow_abs (a : BitVec 64) :
    (Word.abs a).unlessOverflow =
      if a = Word.least 64 then none else some (if a.toInt < 0 then -a else a) := by
  have hfits := Word.fits_natAbs_iff a (by decide)
  rw [Checked.unlessOverflow, Word.run_abs a (by decide)]
  by_cases hleast : a = Word.least 64
  · have hnot : ¬ Word.Fits 64 a.toInt.natAbs := mt hfits.1 (not_not.2 hleast)
    simp only [hnot, decide_false, Bool.not_false, Bool.or_true, if_true, if_pos hleast]
  · simp only [hfits.2 hleast, decide_true, Bool.not_true, Bool.or_false, Bool.false_eq_true,
      if_false, if_neg hleast]

/-- The size of the numerator makes the absolute value. -/
theorem represents_abs (hf : f.Represents q) (hleast : f.num ≠ Word.least 64) :
    (⟨if f.num.toInt < 0 then -f.num else f.num, f.den⟩ : Fraction 64).Represents |q| := by
  by_cases hneg : f.num.toInt < 0
  · rw [if_pos hneg, abs_of_neg (Rat.num_neg.1 (hf.num ▸ hneg))]
    exact represents_neg hf hleast
  · rw [if_neg hneg, abs_of_nonneg (Rat.num_nonneg.1 (hf.num ▸ not_lt.1 hneg))]
    exact hf

theorem unaryExact_of_none {exact : Fraction 64 → Option Value} (op : Float → Float)
    (hv : v.toFraction? = some f) (h : exact f = none) :
    unaryExact exact op .exact [v] = unaryExact exact op .float [v] := by
  simp [unaryExact, hv, h]

theorem unaryExact_of_some {exact : Fraction 64 → Option Value} {u : Value} (op : Float → Float)
    (hv : v.toFraction? = some f) (h : exact f = some u) : unaryExact exact op .exact [v] = u := by
  simp [unaryExact, hv, h]

theorem exactly_negate (hv : v.toFraction? = some f) (hf : f.Represents q)
    (hleast : f.num ≠ Word.least 64) : (negate .exact [v]).Exactly (-q) := by
  rw [negate, unaryExact_of_some _ hv (if_neg hleast)]
  exact Value.exactly_ofFraction (represents_neg hf hleast)

theorem exactly_abs (hv : v.toFraction? = some f) (hf : f.Represents q)
    (hleast : f.num ≠ Word.least 64) : (abs .exact [v]).Exactly |q| := by
  have hexact := unlessOverflow_abs f.num
  rw [if_neg hleast] at hexact
  rw [abs, unaryExact_of_some _ hv (by rw [hexact]; rfl)]
  exact Value.exactly_ofFraction (represents_abs hf hleast)

/-- The opposite of the least numerator is left to floating point, and the absolute value too. -/
theorem unary_of_least (hv : v.toFraction? = some f) (hleast : f.num = Word.least 64) :
    negate .exact [v] = negate .float [v] ∧ abs .exact [v] = abs .float [v] := by
  have hexact := unlessOverflow_abs f.num
  rw [if_pos hleast] at hexact
  exact ⟨unaryExact_of_none _ hv (if_pos hleast), unaryExact_of_none _ hv (by rw [hexact]; rfl)⟩

/-- The exact functions of one operand. On an exact operand, opposite and absolute value are exact
unless the numerator is the least word, where they are those of floating point; rounding gives the
nearest whole number, halves away from zero, and no step of it leaves the width. -/
theorem exact_unary (hreduced : v.Reduced) (hv : v.toFraction? = some f) :
    (if f.num = Word.least 64 then
      negate .exact [v] = negate .float [v] ∧ abs .exact [v] = abs .float [v]
    else
      (negate .exact [v]).Exactly (-f.toRat) ∧ (abs .exact [v]).Exactly |f.toRat|) ∧
    ∃ n : BitVec 64, round .exact [v] = .int n ∧ IsNearest f.toRat n.toInt ∧
      ∀ s, f.round.run s = (n, s) := by
  have hf := hreduced.represents hv
  constructor
  · split
    next hleast => exact unary_of_least hv hleast
    next hleast => exact ⟨exactly_negate hv hf hleast, exactly_abs hv hf hleast⟩
  · obtain ⟨n, hrun, hn⟩ := Fraction.run_round hf.den_pos
    refine ⟨n, ?_, hn ▸ isNearest_nearestInt f.toRat, hrun⟩
    rw [round, unaryExact_of_some _ hv rfl, Checked.result, hrun]

/-- Minus five halves. -/
theorem exact_unary_neg_five_halves :
    let f : Fraction 64 := ⟨-5#64, 2#64⟩
    let v := Value.fraction f
    v.Reduced ∧ v.toFraction? = some f ∧ (negate .exact [v]).Exactly (-f.toRat) ∧
      (abs .exact [v]).Exactly |f.toRat| ∧
      ∃ n : BitVec 64, round .exact [v] = .int n ∧ IsNearest f.toRat n.toInt ∧
        ∀ s, f.round.run s = (n, s) := by
  intro f v
  have hreduced : v.Reduced := ⟨by decide, by decide⟩
  have hnum : f.num ≠ Word.least 64 := by decide
  have h := exact_unary hreduced (show v.toFraction? = some f from rfl)
  rw [if_neg hnum] at h
  exact ⟨hreduced, rfl, h.1.1, h.1.2, h.2⟩

end Standard

end Reckoner
