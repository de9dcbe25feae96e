import Reckoner.Proofs.Word.Gcd
import Reckoner.Proofs.Word.Operations

/-!
The least common multiple of words.

It is found by one exact division and one checked multiplication, so what is reported is what the
multiplication reports of the product of the quotient and the other word. This is the multiple
itself, unless the common divisor had to be replaced by the least word: then the quotient has the
wrong sign. That makes no difference where the product is zero, but it does for two least words. Their
multiple is as large as they are and does not fit; the product is the least word, and no overflow is
reported.
-/
namespace Reckoner

namespace Word

open Checked

variable {w : Nat} {a b g x y : BitVec w} {m m' : Checked (BitVec w)} {n : Int}

/-- The computation gives the integer `n` wrapped to the width, which is `n` itself where it fits,
and adds to the status whether it does not. -/
structure Finds (m : Checked (BitVec w)) (n : Int) : Prop where
  value : ∀ s : Status, (m.run s).1 = BitVec.ofInt w n
  overflow : ∀ s : Status, (m.run s).2.overflow = (s.overflow || !decide (Fits w n))

theorem Computes.finds (hw : 0 < w) (h : Computes m n) : Finds m n where
  value := h.value
  overflow := fun s => by rw [h.overflow, decide_eq_not_decide (not_fits_iff hw).symm]

theorem Finds.of_run (h : Finds m n) (hrun : ∀ s, m'.run s = m.run s) : Finds m' n where
  value := fun s => by rw [hrun, h.value]
  overflow := fun s => by rw [hrun, h.overflow]

/-! ## The quotient by the common divisor -/

theorem run_lcm_zero (s : Status) : (lcm 0#w 0#w).run s = (0#w, s) := by
  simp only [lcm, run_bind, run_gcd_zero, if_true, run_pure]

theorem Cancels.run_lcm (h : Cancels a b g x y) (s : Status) :
    (lcm a b).run s = (mul x b).run s := by
  simp only [lcm, run_bind, h.gcd, h.ne_zero, if_false, h.left]

theorem faultless_lcm (hw : 2 ≤ w) (a b : BitVec w) : Faultless (lcm a b) := by
  intro s
  by_cases hzero : a = 0#w ∧ b = 0#w
  · rw [hzero.1, hzero.2, run_lcm_zero]
  · obtain ⟨g, x, y, h, -⟩ := exists_cancels_of_ne hw (Decidable.not_and_iff_not_or_not.1 hzero)
    rw [h.run_lcm, run_mul]

theorem toInt_least_neg (hw : 0 < w) : (least w).toInt < 0 := by
  have hbounds := toInt_bounds 0#w hw
  rw [BitVec.toInt_zero] at hbounds
  omega

/-- No words but zero and the least one are multiples of the least one. -/
theorem eq_zero_or_eq_least (hw : 0 < w) (h : (least w).toInt ∣ a.toInt) :
    a = 0#w ∨ a = least w := by
  by_cases hzero : a = 0#w
  · exact .inl hzero
  · have hbounds := toInt_bounds a hw
    have hle := Nat.le_of_dvd (Int.natAbs_pos.2 (toInt_ne_zero hzero)) (Int.natAbs_dvd_natAbs.2 h)
    exact .inr (BitVec.eq_of_toInt_eq (by omega))

/-- What is multiplied in the end is the multiple. -/
theorem Cancels.product_eq (hw : 0 < w) (h : Cancels a b g x y) (hsign : 0 ≤ g.toInt ∨ g = least w)
    (hleast : ¬ (a = least w ∧ b = least w)) :
    x.toInt * b.toInt = a.toInt * b.toInt / Int.gcd a.toInt b.toInt := by
  have hne := toInt_ne_zero h.ne_zero
  rcases hsign with hnonneg | rfl
  · have hgcd : (Int.gcd a.toInt b.toInt : Int) = g.toInt := by
      rw [Int.gcd, ← h.natAbs, Int.natAbs_of_nonneg hnonneg]
    rw [hgcd, ← h.mul_left, Int.mul_right_comm, Int.mul_ediv_cancel _ hne]
  · -- The quotient has the wrong sign, but one of the words is zero.
    have hzero : a = 0#w ∨ b = 0#w := by
      rcases eq_zero_or_eq_least hw ⟨_, (Int.mul_comm _ _).trans h.mul_left |>.symm⟩ with ha | ha
      · exact .inl ha
      · have hb := eq_zero_or_eq_least hw ⟨_, (Int.mul_comm _ _).trans h.mul_right |>.symm⟩
        exact .inr (hb.resolve_right fun hb => hleast ⟨ha, hb⟩)
    rcases hzero with rfl | rfl
    · have hmul := h.mul_left
      rw [BitVec.toInt_zero, Int.mul_eq_zero] at hmul
      rw [hmul.resolve_right hne, BitVec.toInt_zero, Int.zero_mul, Int.zero_ediv]
    · rw [BitVec.toInt_zero, Int.mul_zero, Int.mul_zero, Int.zero_ediv]

/-! ## Two least words, and all others -/

theorem finds_lcm_zero : Finds (lcm (0#w) (0#w)) 0 where
  value := fun s => by simp [run_lcm_zero]
  overflow := fun s => by simp [run_lcm_zero, fits_zero]

theorem finds_lcm_of_ne (hw : 2 ≤ w) (hzero : a ≠ 0#w ∨ b ≠ 0#w)
    (hleast : ¬ (a = least w ∧ b = least w)) :
    Finds (lcm a b) (a.toInt * b.toInt / Int.gcd a.toInt b.toInt) := by
  have hwpos : 0 < w := by omega
  obtain ⟨g, x, y, h, hsign⟩ := exists_cancels_of_ne hw hzero
  rw [← h.product_eq hwpos hsign hleast]
  exact ((computes_mul hwpos x b).finds hwpos).of_run h.run_lcm

theorem finds_lcm_of_one_bit (a b : BitVec 1) :
    Finds (lcm a b) (a.toInt * b.toInt / Int.gcd a.toInt b.toInt) := by
  have hall : ∀ (a b : BitVec 1) (overflow fault : Bool),
      ((lcm a b).run ⟨overflow, fault⟩).1 =
          BitVec.ofInt 1 (a.toInt * b.toInt / Int.gcd a.toInt b.toInt) ∧
        ((lcm a b).run ⟨overflow, fault⟩).2.overflow =
          (overflow || !decide (Fits 1 (a.toInt * b.toInt / Int.gcd a.toInt b.toInt))) := by
    decide +kernel
  exact ⟨fun s => (hall a b s.overflow s.fault).1, fun s => (hall a b s.overflow s.fault).2⟩

/-- Two least words are divided by themselves, and the quotient one leaves the other as it is. -/
theorem run_lcm_least (hw : 2 ≤ w) (s : Status) :
    (lcm (least w) (least w)).run s = (least w, s) := by
  have hneg := toInt_least_neg (w := w) (by omega)
  have hne : least w ≠ 0#w := by
    intro hzero
    rw [hzero, BitVec.toInt_zero] at hneg
    omega
  obtain ⟨g, x, y, h, hsign⟩ := exists_cancels_of_ne hw (b := least w) (.inl hne)
  have hg : g = least w := by
    have hbounds := toInt_bounds g (show 0 < w by omega)
    have hnatAbs := h.natAbs
    rw [Nat.gcd_self] at hnatAbs
    exact hsign.resolve_left (by omega)
  have hmul := h.mul_left
  rw [hg] at hmul
  have hfits : Fits w (x.toInt * (least w).toInt) := by
    rw [hmul]
    exact fits_toInt _
  have hvalue : x * least w = least w :=
    BitVec.eq_of_toInt_eq ((toInt_mul_of_fits hfits).trans hmul)
  rw [h.run_lcm, run_mul, hvalue]
  simp [hfits]

/-- Their multiple does not fit, but nothing is reported. -/
theorem not_finds_lcm_least (hw : 2 ≤ w) :
    ¬ Finds (lcm (least w) (least w))
      ((least w).toInt * (least w).toInt / Int.gcd (least w).toInt (least w).toInt) := by
  intro h
  have hneg := toInt_least_neg (w := w) (by omega)
  have hmultiple : (least w).toInt * (least w).toInt / Int.gcd (least w).toInt (least w).toInt =
      -(least w).toInt := by
    have hsize : ((least w).toInt.natAbs : Int) = -(least w).toInt := by omega
    rw [Int.gcd_self, hsize, Int.ediv_neg, Int.mul_ediv_cancel _ (by omega)]
  have hoverflow := h.overflow {}
  rw [run_lcm_least hw, hmultiple] at hoverflow
  simp [not_fits_neg_least (show 0 < w by omega)] at hoverflow

/-- The least common multiple is exact or reports an overflow, but for two least words. For words of
any width and any status before, it gives the product divided by the greatest common divisor,
wrapped, and overflow has been raised afterwards exactly if it had been before or this number does
not fit. Only two least words, of two bits or more, give the least word without the report. -/
theorem finds_lcm_iff (a b : BitVec w) :
    (Finds (lcm a b) (a.toInt * b.toInt / Int.gcd a.toInt b.toInt) ↔
      ¬ (2 ≤ w ∧ a = least w ∧ b = least w)) ∧
    (2 ≤ w → ∀ s, (lcm (least w) (least w)).run s = (least w, s)) ∧
    ∀ s, (lcm (0#w) (0#w)).run s = (0#w, s) := by
  refine ⟨⟨?_, fun h => ?_⟩, run_lcm_least, run_lcm_zero⟩
  · rintro h ⟨hw, rfl, rfl⟩
    exact not_finds_lcm_least hw h
  · by_cases hzero : a = 0#w ∧ b = 0#w
    · rw [hzero.1, hzero.2, BitVec.toInt_zero, Int.zero_mul, Int.zero_ediv]
      exact finds_lcm_zero
    · by_cases hw : 2 ≤ w
      · exact finds_lcm_of_ne hw (Decidable.not_and_iff_not_or_not.1 hzero)
          fun hleast => h ⟨hw, hleast⟩
      · have hcases : w = 0 ∨ w = 1 := by omega
        rcases hcases with rfl | rfl
        · exact absurd ⟨BitVec.of_length_zero, BitVec.of_length_zero⟩ hzero
        · exact finds_lcm_of_one_bit a b

/-- In 64 bits the multiple of two least words is wrong without a report. -/
theorem not_finds_lcm_of_least_words :
    ¬ ∀ a b : BitVec 64, ¬ (a = 0#64 ∧ b = 0#64) →
      Finds (lcm a b) (a.toInt * b.toInt / Int.gcd a.toInt b.toInt) :=
  fun h => not_finds_lcm_least (by decide) (h (least 64) (least 64) (by decide))

example : (lcm (-4#8) 6#8).result = -12#8 := by decide +kernel

end Word

end Reckoner
