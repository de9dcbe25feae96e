import Mathlib.Tactic.FieldSimp
import Reckoner.Proofs.Fraction.Normalize

/-!
The operations on fractions are exact unless they overflow.

A flag that is down in the end has been down all along, so every product and sum on the way was the
true one; what is normalized in the end is then the true result, in whatever form.
-/
namespace Reckoner

namespace Checked

theorem unlessOverflow_eq_some {α : Type} {x : Checked α} {a : α} :
    x.unlessOverflow = some a ↔ (x.run {}).2.overflow = false ∧ (x.run {}).1 = a := by
  unfold unlessOverflow
  rcases x.run {} with ⟨b, t⟩
  cases ht : t.overflow <;> simp [ht]

end Checked

namespace Fraction

open Word

variable {w : Nat} {a b f r : Fraction w} {p q : ℚ} {s : Status}

/-- If the flag is still down before normalization, what is normalized is what was meant. -/
theorem represents_normalize (hw : 2 ≤ w)
    (hexact : s.overflow = false → f.den.toInt ≠ 0 ∧ f.toRat = q)
    (h : (f.normalize.run s).2.overflow = false) : Represents (f.normalize.run s).1 q := by
  by_cases hden : f.den = 0#w
  · rw [run_normalize_of_den_eq_zero hden] at h
    exact absurd (by simp [hden]) (hexact h).1
  · rcases run_normalize hw hden s with ⟨r, hr, hrun⟩ | ⟨-, hrun⟩
    · rw [hrun] at h ⊢
      rwa [(hexact h).2] at hr
    · rw [hrun] at h
      cases h

/-- A flag down after a checked operation was down before, and the result is the true one. -/
theorem overflow_or_not_eq_false {c : Bool} {x : Prop} [Decidable x] :
    (c || !decide x) = false ↔ c = false ∧ x := by
  simp

theorem represents_mul (hw : 2 ≤ w) (ha : a.den ≠ 0#w) (hb : b.den ≠ 0#w)
    (h : (mul a b).unlessOverflow = some r) : Represents r (a.toRat * b.toRat) := by
  obtain ⟨hflag, rfl⟩ := Checked.unlessOverflow_eq_some.1 h
  simp only [mul, Checked.run_bind, Word.run_mul] at hflag ⊢
  refine represents_normalize hw (fun hdown => ?_) hflag
  simp only [overflow_or_not_eq_false] at hdown
  refine ⟨?_, ?_⟩
  · rw [toInt_mul_of_fits hdown.2]
    exact mul_ne_zero (toInt_ne_zero ha) (toInt_ne_zero hb)
  · simp only [toRat, toInt_mul_of_fits hdown.1.2, toInt_mul_of_fits hdown.2]
    push_cast
    rw [div_mul_div_comm]

/-- A quotient is exact where it is defined. -/
theorem represents_div (hw : 2 ≤ w) (ha : a.den ≠ 0#w) (hb : b.num ≠ 0#w)
    (h : (div a b).unlessOverflow = some r) : Represents r (a.toRat / b.toRat) := by
  obtain ⟨hflag, rfl⟩ := Checked.unlessOverflow_eq_some.1 h
  simp only [div, Checked.run_bind, Word.run_mul] at hflag ⊢
  refine represents_normalize hw (fun hdown => ?_) hflag
  simp only [overflow_or_not_eq_false] at hdown
  refine ⟨?_, ?_⟩
  · rw [toInt_mul_of_fits hdown.2]
    exact mul_ne_zero (toInt_ne_zero hb) (toInt_ne_zero ha)
  · simp only [toRat, toInt_mul_of_fits hdown.1.2, toInt_mul_of_fits hdown.2]
    push_cast
    rw [div_div_div_eq, mul_comm (a.den.toInt : ℚ)]

/-- Division by zero is the invalid fraction, unless a product overflows that would be zero. -/
theorem div_eq_invalid (hb : b.num = 0#w) (h : (div a b).unlessOverflow = some r) : r = invalid := by
  obtain ⟨hflag, rfl⟩ := Checked.unlessOverflow_eq_some.1 h
  simp only [div, Checked.run_bind, Word.run_mul] at hflag ⊢
  have hzero : b.num * a.den = 0#w := by rw [hb, BitVec.zero_mul]
  rw [run_normalize_of_den_eq_zero hzero]

/-! ## Sums -/

/-- Both fractions over one denominator, if the flag stays down. -/
theorem run_align (hw : 2 ≤ w) (ha : a.den ≠ 0#w) (hb : b.den ≠ 0#w) (s : Status) :
    ∃ na nb common t, (align a b).run s = ((na, nb, common), t) ∧
      (t.overflow = false → common.toInt ≠ 0 ∧ a.toRat = (na.toInt : ℚ) / (common.toInt : ℚ) ∧
        b.toRat = (nb.toInt : ℚ) / (common.toInt : ℚ)) := by
  obtain ⟨g, x, y, h⟩ := exists_cancels hw a.den hb
  refine ⟨a.num * y, b.num * x, x * b.den, ((align a b).run s).2, ?_, ?_⟩
  · simp only [align, Checked.run_bind, h.gcd, h.ne_zero, if_false, h.left, h.right, Word.run_mul,
      Checked.run_pure]
  · intro hdown
    simp only [align, Checked.run_bind, h.gcd, h.ne_zero, if_false, h.left, h.right, Word.run_mul,
      Checked.run_pure, overflow_or_not_eq_false] at hdown
    obtain ⟨⟨⟨-, hna⟩, hnb⟩, hcommon⟩ := hdown
    have hg : (g.toInt : ℚ) ≠ 0 := by exact_mod_cast toInt_ne_zero h.ne_zero
    have hx : x.toInt ≠ 0 := by
      intro hzero
      have hmul := h.mul_left
      rw [hzero, Int.zero_mul] at hmul
      exact toInt_ne_zero ha hmul.symm
    have hxRat : (x.toInt : ℚ) ≠ 0 := by exact_mod_cast hx
    have hyRat : (y.toInt : ℚ) ≠ 0 := by exact_mod_cast h.right_ne_zero hb
    rw [toInt_mul_of_fits hna, toInt_mul_of_fits hnb, toInt_mul_of_fits hcommon]
    refine ⟨mul_ne_zero hx (toInt_ne_zero hb), ?_, ?_⟩
    · rw [toRat, ← h.mul_left, ← h.mul_right]
      push_cast
      field_simp
    · rw [toRat, ← h.mul_right]
      push_cast
      field_simp

theorem represents_add (hw : 2 ≤ w) (ha : a.den ≠ 0#w) (hb : b.den ≠ 0#w)
    (h : (add a b).unlessOverflow = some r) : Represents r (a.toRat + b.toRat) := by
  obtain ⟨hflag, rfl⟩ := Checked.unlessOverflow_eq_some.1 h
  obtain ⟨na, nb, common, t, hrun, hexact⟩ := run_align hw ha hb {}
  simp only [add, Checked.run_bind, hrun, Word.run_add] at hflag ⊢
  refine represents_normalize hw (fun hdown => ?_) hflag
  simp only [overflow_or_not_eq_false] at hdown
  obtain ⟨hcommon, hx, hy⟩ := hexact hdown.1
  refine ⟨hcommon, ?_⟩
  simp only [toRat, toInt_add_of_fits hdown.2] at hx hy ⊢
  rw [hx, hy, ← add_div]
  push_cast
  rfl

theorem represents_sub (hw : 2 ≤ w) (ha : a.den ≠ 0#w) (hb : b.den ≠ 0#w)
    (h : (sub a b).unlessOverflow = some r) : Represents r (a.toRat - b.toRat) := by
  obtain ⟨hflag, rfl⟩ := Checked.unlessOverflow_eq_some.1 h
  obtain ⟨na, nb, common, t, hrun, hexact⟩ := run_align hw ha hb {}
  simp only [sub, Checked.run_bind, hrun, Word.run_sub] at hflag ⊢
  refine represents_normalize hw (fun hdown => ?_) hflag
  simp only [overflow_or_not_eq_false] at hdown
  obtain ⟨hcommon, hx, hy⟩ := hexact hdown.1
  refine ⟨hcommon, ?_⟩
  simp only [toRat, toInt_sub_of_fits hdown.2] at hx hy ⊢
  rw [hx, hy, ← sub_div]
  push_cast
  rfl

end Fraction

end Reckoner
