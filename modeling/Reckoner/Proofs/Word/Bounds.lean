import Mathlib.Algebra.Group.Int.Defs
import Reckoner.Word

/-!
The integers that fit a word, and the plain operations on words where nothing wraps.
-/
namespace Reckoner

namespace Checked

theorem run_bind {α β : Type} (x : Checked α) (f : α → Checked β) (s : Status) :
    (x >>= f).run s = (f (x.run s).1).run (x.run s).2 :=
  rfl

theorem run_pure {α : Type} (a : α) (s : Status) : (pure a : Checked α).run s = (a, s) :=
  rfl

end Checked

namespace Word

variable {w : Nat}

/-- The bounds of a width, doubled so that they are integers for the width zero too. -/
theorem fits_iff {x : Int} : Fits w x ↔ -2 ^ w ≤ 2 * x ∧ 2 * x < 2 ^ w := by
  have hcast : (((2 : Nat) ^ w : Nat) : Int) = 2 ^ w := by simp
  constructor
  · intro h
    have hlower := BitVec.le_two_mul_toInt (x := BitVec.ofInt w x)
    have hupper := BitVec.two_mul_toInt_lt (x := BitVec.ofInt w x)
    rw [h] at hlower hupper
    exact ⟨hlower, hupper⟩
  · rintro ⟨hlower, hupper⟩
    rw [Fits, BitVec.toInt_ofInt]
    exact Int.bmod_eq_of_le_mul_two (by omega) (by omega)

theorem fits_toInt (a : BitVec w) : Fits w a.toInt :=
  fits_iff.2 ⟨BitVec.le_two_mul_toInt, BitVec.two_mul_toInt_lt⟩

theorem fits_zero : Fits w 0 := by
  simpa using fits_toInt (0#w)

theorem two_pow_le {k : Nat} (h : k ≤ w) : (2 : Int) ^ k ≤ 2 ^ w := by
  exact_mod_cast Nat.pow_le_pow_right (show 0 < 2 by decide) h

/-- A number between two that fit fits. -/
theorem Fits.between {x y z : Int} (hx : Fits w x) (hz : Fits w z) (hxy : x ≤ y) (hyz : y ≤ z) :
    Fits w y := by
  rw [fits_iff] at *
  omega

theorem Fits.of_le {m n : Nat} (h : Fits w n) (hle : m ≤ n) : Fits w m :=
  fits_zero.between h (Int.natCast_nonneg m) (Int.ofNat_le.2 hle)

/-- A number of at most half the size of one that fits does so with either sign. -/
theorem Fits.of_two_mul_le {x y : Int} (h : Fits w y) (hx : 2 * x.natAbs ≤ y.natAbs) :
    Fits w x := by
  have hpow : (0 : Int) < 2 ^ w := Int.pow_pos (by decide)
  rw [fits_iff] at *
  omega

/-- A word with a value other than zero has at least one bit. -/
theorem width_pos {a : BitVec w} (h : a.toInt ≠ 0) : 0 < w := by
  rcases Nat.eq_zero_or_pos w with rfl | hw
  · exact absurd (by simp [BitVec.of_length_zero]) h
  · exact hw

/-- A positive word has a bit besides the sign. -/
theorem width_of_pos {a : BitVec w} (h : 0 < a.toInt) : 1 < w := by
  have hupper := BitVec.two_mul_toInt_lt (x := a)
  have hcases : w = 0 ∨ w = 1 ∨ 1 < w := by omega
  rcases hcases with rfl | rfl | hw
  · omega
  · omega
  · exact hw

theorem toInt_ne_zero {a : BitVec w} (h : a ≠ 0#w) : a.toInt ≠ 0 := by
  intro hzero
  exact h (BitVec.eq_of_toInt_eq (by simpa using hzero))

theorem two_mul_toInt_least (hw : 0 < w) : 2 * (least w).toInt = -2 ^ w := by
  obtain ⟨k, rfl⟩ : ∃ k, w = k + 1 := ⟨w - 1, by omega⟩
  rw [least, BitVec.toInt_intMin_of_pos (by omega), Nat.add_sub_cancel, Int.pow_succ]
  omega

theorem two_mul_toInt_greatest (hw : 0 < w) : 2 * (greatest w).toInt = 2 ^ w - 2 := by
  obtain ⟨k, rfl⟩ : ∃ k, w = k + 1 := ⟨w - 1, by omega⟩
  rw [greatest, BitVec.toInt_intMax, Nat.add_sub_cancel, Int.pow_succ]
  omega

theorem fits_iff_of_pos (hw : 0 < w) {x : Int} :
    Fits w x ↔ (least w).toInt ≤ x ∧ x ≤ (greatest w).toInt := by
  have hleast := two_mul_toInt_least hw
  have hgreatest := two_mul_toInt_greatest hw
  rw [fits_iff]
  omega

theorem toInt_least_add_greatest (hw : 0 < w) : (least w).toInt + (greatest w).toInt = -1 := by
  have hleast := two_mul_toInt_least hw
  have hgreatest := two_mul_toInt_greatest hw
  omega

/-- The bounds of the width lie around zero, one further down than up. -/
theorem toInt_bounds (a : BitVec w) (hw : 0 < w) :
    (least w).toInt ≤ a.toInt ∧ a.toInt ≤ (greatest w).toInt ∧
      (least w).toInt = -(greatest w).toInt - 1 := by
  have ha := (fits_iff_of_pos hw).1 (fits_toInt a)
  have hsum := toInt_least_add_greatest hw
  omega

/-- A word other than the least one has an opposite. -/
theorem fits_neg_toInt (hw : 0 < w) {a : BitVec w} (ha : a ≠ least w) : Fits w (-a.toInt) := by
  have hbounds := toInt_bounds a hw
  have hne : a.toInt ≠ (least w).toInt := fun h => ha (BitVec.eq_of_toInt_eq h)
  rw [fits_iff_of_pos hw]
  omega

theorem not_fits_neg_least (hw : 0 < w) : ¬ Fits w (-(least w).toInt) := by
  have hbounds := toInt_bounds (least w) hw
  rw [fits_iff_of_pos hw]
  omega

/-! ## Values of results that fit -/

theorem toInt_add_of_fits {a b : BitVec w} (h : Fits w (a.toInt + b.toInt)) :
    (a + b).toInt = a.toInt + b.toInt := by
  rw [BitVec.toInt_add, ← BitVec.toInt_ofInt]
  exact h

theorem toInt_sub_of_fits {a b : BitVec w} (h : Fits w (a.toInt - b.toInt)) :
    (a - b).toInt = a.toInt - b.toInt := by
  rw [BitVec.toInt_sub, ← BitVec.toInt_ofInt]
  exact h

theorem toInt_mul_of_fits {a b : BitVec w} (h : Fits w (a.toInt * b.toInt)) :
    (a * b).toInt = a.toInt * b.toInt := by
  rw [BitVec.toInt_mul, ← BitVec.toInt_ofInt]
  exact h

theorem toInt_neg_of_fits {a : BitVec w} (h : Fits w (-a.toInt)) : (-a).toInt = -a.toInt := by
  rw [BitVec.toInt_neg, ← BitVec.toInt_ofInt]
  exact h

theorem toInt_sdiv_of_divides {a b : BitVec w} (h : Divides a b) :
    (a.sdiv b).toInt = a.toInt.tdiv b.toInt := by
  rw [BitVec.toInt_sdiv, ← BitVec.toInt_ofInt]
  exact h.2

/-! ## Plain operations -/

theorem run_sum {a b : BitVec w} (h : Fits w (a.toInt + b.toInt)) (s : Status) :
    (sum a b).run s = (a + b, s) := by
  simp only [sum, Checked.run_bind, Checked.run_expect, h, Checked.run_pure, decide_true,
    Bool.not_true, Bool.or_false]

theorem run_difference {a b : BitVec w} (h : Fits w (a.toInt - b.toInt)) (s : Status) :
    (difference a b).run s = (a - b, s) := by
  simp only [difference, Checked.run_bind, Checked.run_expect, h, Checked.run_pure, decide_true,
    Bool.not_true, Bool.or_false]

theorem run_product {a b : BitVec w} (h : Fits w (a.toInt * b.toInt)) (s : Status) :
    (product a b).run s = (a * b, s) := by
  simp only [product, Checked.run_bind, Checked.run_expect, h, Checked.run_pure, decide_true,
    Bool.not_true, Bool.or_false]

theorem run_opposite {a : BitVec w} (h : Fits w (-a.toInt)) (s : Status) :
    (opposite a).run s = (-a, s) := by
  simp only [opposite, Checked.run_bind, Checked.run_expect, h, Checked.run_pure, decide_true,
    Bool.not_true, Bool.or_false]

theorem run_quotient {a b : BitVec w} (h : Divides a b) (s : Status) :
    (quotient a b).run s = (a.sdiv b, s) := by
  simp only [quotient, Checked.run_bind, Checked.run_expect, h, Checked.run_pure, decide_true,
    Bool.not_true, Bool.or_false]

theorem run_remainder {a b : BitVec w} (h : Divides a b) (s : Status) :
    (remainder a b).run s = (a.srem b, s) := by
  simp only [remainder, Checked.run_bind, Checked.run_expect, h, Checked.run_pure, decide_true,
    Bool.not_true, Bool.or_false]

end Word

end Reckoner
