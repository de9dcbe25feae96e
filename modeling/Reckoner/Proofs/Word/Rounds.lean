import Mathlib.Algebra.Group.Nat.Defs
import Reckoner.Proofs.Word.Gcd

/-!
The rounds of the Euclidean algorithm.

A round goes from a pair of words to the second of them and the remainder. Two rounds leave less than
half of the divisor, so there are never more than two for each bit, whatever the words are. What is
left in the end is the greatest common divisor or its opposite. The sign is then taken off, but for
the least word, which has no opposite.
-/
namespace Reckoner

namespace Word

variable {w : Nat} {a b g : BitVec w} {rounds : Nat}

/-- From the words `a` and `b` the loop makes so many rounds until the divisor is zero, and then `g`
stands beside it. -/
inductive Rounds : (a b : BitVec w) → (rounds : Nat) → (g : BitVec w) → Prop
  | done {a : BitVec w} : Rounds a 0#w 0 a
  | round {a b g : BitVec w} {rounds : Nat} (hb : b ≠ 0#w)
      (hrest : Rounds b (euclidStep a b) rounds g) : Rounds a b (rounds + 1) g

theorem Rounds.run_euclid (h : Rounds a b rounds g) (s : Status) : (euclid a b).run s = (g, s) := by
  induction h with
  | done => exact run_euclid_zero _ s
  | round hb _ ih => rw [run_euclid_of_ne _ hb, ih]

theorem two_mul_mod_lt {m n : Nat} (hn : 0 < n) (hle : n ≤ m) : 2 * (m % n) < m := by
  have hsplit := Nat.div_add_mod m n
  have hless := Nat.mod_lt m hn
  have hquotient : n * 1 ≤ n * (m / n) := Nat.mul_le_mul_left n (Nat.div_pos hle hn)
  omega

/-- Of two remainders in a row the second is less than half of the divisor. -/
theorem two_mul_natAbs_euclidStep_lt (hb : b ≠ 0#w) (hr : euclidStep a b ≠ 0#w) :
    2 * (euclidStep b (euclidStep a b)).toInt.natAbs < b.toInt.natAbs := by
  rw [natAbs_euclidStep b hr]
  exact two_mul_mod_lt (Int.natAbs_pos.2 (toInt_ne_zero hr))
    (Nat.le_of_lt (natAbs_euclidStep_lt hb))

/-- Two rounds take a bit off the divisor, so twice as many rounds as it has bits are enough. -/
theorem exists_rounds_of_lt {bits : Nat} (h : b.toInt.natAbs < 2 ^ bits) :
    ∃ rounds ≤ 2 * bits, ∃ g, Rounds a b rounds g := by
  induction bits generalizing a b with
  | zero =>
      have hzero : b = 0#w := BitVec.eq_of_toInt_eq (by rw [BitVec.toInt_zero]; omega)
      exact ⟨0, Nat.le_refl _, a, hzero ▸ .done⟩
  | succ bits ih =>
      by_cases hb : b = 0#w
      · exact ⟨0, Nat.zero_le _, a, hb ▸ .done⟩
      · by_cases hr : euclidStep a b = 0#w
        · have hlast : Rounds b (euclidStep a b) 0 b := hr ▸ .done
          exact ⟨1, by omega, b, .round hb hlast⟩
        · have hhalf := two_mul_natAbs_euclidStep_lt hb hr
          rw [Nat.pow_succ] at h
          obtain ⟨rounds, hrounds, g, hrest⟩ :=
            ih (a := euclidStep a b) (b := euclidStep b (euclidStep a b)) (by omega)
          exact ⟨rounds + 2, by omega, g, .round hb (.round hr hrest)⟩

theorem natAbs_toInt_lt (a : BitVec w) : a.toInt.natAbs < 2 ^ w := by
  have hlower := BitVec.le_two_mul_toInt (x := a)
  have hupper := BitVec.two_mul_toInt_lt (x := a)
  have hpow : 0 < 2 ^ w := Nat.two_pow_pos w
  have hcast : (((2 : Nat) ^ w : Nat) : Int) = 2 ^ w := by simp
  omega

theorem exists_rounds (a b : BitVec w) : ∃ rounds ≤ 2 * w, ∃ g, Rounds a b rounds g :=
  exists_rounds_of_lt (natAbs_toInt_lt b)

/-- `g` is the greatest common divisor of `a` and `b`, which is not negative; it is the least word
exactly if the divisor does not fit. -/
structure IsGcd (a b g : BitVec w) : Prop where
  toInt_eq : Fits w (Int.gcd a.toInt b.toInt) → g.toInt = Int.gcd a.toInt b.toInt
  eq_least_iff : g = least w ↔ ¬ Fits w (Int.gcd a.toInt b.toInt)

theorem exists_isGcd (hw : 0 < w) (a b : BitVec w) :
    ∃ g, IsGcd a b g ∧ ∀ s, (gcd a b).run s = (g, s) := by
  obtain ⟨g, hrun, hg, hsign⟩ := run_gcd a b
  have hsize : Int.gcd a.toInt b.toInt = g.toInt.natAbs := hg.symm
  have hfits := fits_natAbs_iff g hw
  refine ⟨g, ⟨fun h => ?_, ?_⟩, hrun⟩
  · rw [hsize] at h ⊢
    have hnonneg := hsign.resolve_right (hfits.1 h)
    omega
  · rw [hsize, hfits, Decidable.not_not]

/-- The loop ends with a few rounds, and what the algorithm makes of its end is the greatest common
divisor. -/
structure FindsGcd (a b : BitVec w) : Prop where
  ends : ∃ rounds ≤ 2 * w, ∃ g, Rounds a b rounds g ∧ ∀ s, (euclid a b).run s = (g, s)
  found : ∃ g, IsGcd a b g ∧ ∀ s, (gcd a b).run s = (g, s)

theorem findsGcd (hw : 0 < w) (a b : BitVec w) : FindsGcd a b where
  ends := by
    obtain ⟨rounds, hrounds, g, h⟩ := exists_rounds a b
    exact ⟨rounds, hrounds, g, h, h.run_euclid⟩
  found := exists_isGcd hw a b

end Word

end Reckoner
