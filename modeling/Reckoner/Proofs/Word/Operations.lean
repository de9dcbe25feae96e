import Reckoner.Proofs.Word.Checked

/-!
What the checked operations on words compute.

Each returns the true result wrapped to the width and reports an overflow exactly if that result is
out of range. What has been reported before stays reported, and no bound that is computed on the way
is out of range itself or divided by zero.
-/
namespace Reckoner

namespace Checked

variable {α β : Type}

/-- No step that the computation takes to be safe goes wrong. -/
def Faultless (x : Checked α) : Prop :=
  ∀ s : Status, (x.run s).2.fault = s.fault

theorem faultless_pure (a : α) : Faultless (pure a : Checked α) :=
  fun _ => rfl

theorem Faultless.bind {x : Checked α} {f : α → Checked β} (hx : Faultless x)
    (hf : ∀ a, Faultless (f a)) : Faultless (x >>= f) := by
  intro s
  rw [run_bind]
  exact (hf _ _).trans (hx s)

/-- A computation that always gives `a` and leaves the status alone can be left out. -/
theorem faultless_bind_of_run {x : Checked α} {a : α} {f : α → Checked β}
    (hx : ∀ s, x.run s = (a, s)) (hf : Faultless (f a)) : Faultless (x >>= f) := by
  intro s
  rw [run_bind, hx]
  exact hf s

end Checked

namespace Word

open Checked

variable {w : Nat}

/-- No signed word of the width has the value `x`: with one bit for the sign, the others count up to
a power of two below zero and to the number before it above. -/
def OutOfRange (w : Nat) (x : Int) : Prop :=
  x < -2 ^ (w - 1) ∨ 2 ^ (w - 1) ≤ x

instance (w : Nat) (x : Int) : Decidable (OutOfRange w x) :=
  inferInstanceAs (Decidable (_ ∨ _))

theorem not_fits_iff (hw : 0 < w) {x : Int} : ¬ Fits w x ↔ OutOfRange w x := by
  obtain ⟨k, rfl⟩ : ∃ k, w = k + 1 := ⟨w - 1, by omega⟩
  rw [fits_iff, OutOfRange, Nat.add_sub_cancel, Int.pow_succ]
  omega

/-- The computation gives the integer `x` wrapped to the width, adds to the status whether `x` is
out of range, and does nothing that goes wrong. -/
structure Computes (m : Checked (BitVec w)) (x : Int) : Prop where
  value : ∀ s : Status, (m.run s).1 = BitVec.ofInt w x
  overflow : ∀ s : Status, (m.run s).2.overflow = (s.overflow || decide (OutOfRange w x))
  faultless : Faultless m

theorem computes_of_run (hw : 0 < w) {m : Checked (BitVec w)} {a : BitVec w} {x : Int}
    (hrun : ∀ s, m.run s = (a, { s with overflow := s.overflow || !decide (Fits w x) }))
    (ha : BitVec.ofInt w x = a) : Computes m x where
  value := fun s => by rw [hrun, ha]
  overflow := fun s => by
    have hmark : decide (OutOfRange w x) = !decide (Fits w x) :=
      decide_eq_not_decide (not_fits_iff hw).symm
    rw [hrun, hmark]
  faultless := fun s => by rw [hrun]

/-! ## The operations -/

theorem computes_add (hw : 0 < w) (a b : BitVec w) : Computes (add a b) (a.toInt + b.toInt) := by
  refine computes_of_run hw (run_add a b) ?_
  rw [BitVec.ofInt_add, BitVec.ofInt_toInt, BitVec.ofInt_toInt]

theorem computes_sub (hw : 0 < w) (a b : BitVec w) : Computes (sub a b) (a.toInt - b.toInt) := by
  refine computes_of_run hw (run_sub a b) ?_
  rw [Int.sub_eq_add_neg, BitVec.ofInt_add, BitVec.ofInt_neg, BitVec.ofInt_toInt,
    BitVec.ofInt_toInt, BitVec.sub_eq_add_neg]

theorem computes_mul (hw : 0 < w) (a b : BitVec w) : Computes (mul a b) (a.toInt * b.toInt) := by
  refine computes_of_run hw (run_mul a b) ?_
  rw [BitVec.ofInt_mul, BitVec.ofInt_toInt, BitVec.ofInt_toInt]

theorem computes_abs (hw : 0 < w) (a : BitVec w) : Computes (abs a) a.toInt.natAbs := by
  refine computes_of_run hw (run_abs a hw) ?_
  by_cases hneg : a.toInt < 0
  · rw [if_pos hneg, Int.ofNat_natAbs_of_nonpos (by omega), BitVec.ofInt_neg, BitVec.ofInt_toInt]
  · rw [if_neg hneg, Int.natAbs_of_nonneg (by omega), BitVec.ofInt_toInt]

theorem faultless_add (a b : BitVec w) : Faultless (add a b) := by
  intro s
  rw [run_add]

theorem faultless_sub (a b : BitVec w) : Faultless (sub a b) := by
  intro s
  rw [run_sub]

theorem faultless_mul (a b : BitVec w) : Faultless (mul a b) := by
  intro s
  rw [run_mul]

theorem faultless_abs (a : BitVec w) (hw : 0 < w) : Faultless (abs a) :=
  (computes_abs hw a).faultless

/-- The checked operations are exact up to the width and report it. For words of any width and any
status before, addition, subtraction, absolute value and multiplication give the true result
wrapped; overflow has been raised afterwards exactly if it had been before or the true result is out
of range, and no bound that the operation compares with has gone wrong. -/
theorem computes_operations (hw : 0 < w) (a b : BitVec w) :
    Computes (add a b) (a.toInt + b.toInt) ∧ Computes (sub a b) (a.toInt - b.toInt) ∧
      Computes (abs a) a.toInt.natAbs ∧ Computes (mul a b) (a.toInt * b.toInt) :=
  ⟨computes_add hw a b, computes_sub hw a b, computes_abs hw a, computes_mul hw a b⟩

/-- The least word of eight bits and minus one: their product and the absolute value are out of
range by one, the difference is not. -/
theorem computes_operations_least :
    let a := least 8
    let b := minusOne 8
    0 < 8 ∧ Computes (add a b) (-129) ∧ Computes (sub a b) (-127) ∧ Computes (abs a) 128 ∧
      Computes (mul a b) 128 ∧ OutOfRange 8 128 ∧ ¬ OutOfRange 8 (-127) := by
  intro a b
  have hw : 0 < 8 := by decide
  obtain ⟨hadd, hsub, habs, hmul⟩ := computes_operations hw a b
  exact ⟨hw, hadd, hsub, habs, hmul, by decide, by decide⟩

end Word

end Reckoner
