import Reckoner.Proofs.Fraction.Faults
import Reckoner.Proofs.Fraction.Marks

/-!
What normalization gives, for every pair of words of every width.

There are three cases: no number, lowest terms that fit, and lowest terms that do not. Only the last
one is an overflow, and in each of them a second normalization has nothing left to do. Below two bits
there is no positive word, so every number is of the last kind.
-/
namespace Reckoner

namespace Fraction

open Checked Word

variable {w : Nat} {f : Fraction w}

/-- The computation finds the lowest terms of `f`: it gives the invalid fraction and reports nothing
if there is no number, gives them and reports nothing if they fit, and gives the invalid fraction
and overflows if they do not. -/
structure FindsLowestTerms (f : Fraction w) (x : Checked (Fraction w)) : Prop where
  undefined : f.den = 0#w → ∀ s, (x.run s).1 = invalid ∧ (x.run s).2.overflow = s.overflow
  lowest : f.den ≠ 0#w → Fits w f.toRat →
    ∀ s, Represents (x.run s).1 f.toRat ∧ (x.run s).2.overflow = s.overflow
  misfit : f.den ≠ 0#w → ¬ Fits w f.toRat →
    ∀ s, (x.run s).1 = invalid ∧ (x.run s).2.overflow = true

/-! ## Widths without a positive word -/

theorem not_fits_of_narrow (hw : w < 2) (q : ℚ) : ¬ Fits w q := by
  rintro ⟨-, hden⟩
  have hpos := q.den_pos
  have hupper := (fits_iff.1 hden).2
  have hcases : w = 0 ∨ w = 1 := by omega
  rcases hcases with rfl | rfl <;> omega

theorem normalize_of_narrow (hw : w < 2) (hden : f.den ≠ 0#w) (s : Status) :
    (f.normalize.run s).1 = invalid ∧ (f.normalize.run s).2.overflow = true := by
  have honeBit : ∀ n d : BitVec 1, d ≠ 0#1 → (normalize ⟨n, d⟩).result = invalid ∧
      ((normalize ⟨n, d⟩).run {}).2.overflow = true := by
    decide +kernel
  have hcases : w = 0 ∨ w = 1 := by omega
  rcases hcases with rfl | rfl
  · exact absurd BitVec.of_length_zero hden
  · obtain ⟨hresult, hoverflow⟩ := honeBit f.num f.den hden
    rw [(oblivious_normalize f).result, (oblivious_normalize f).overflow]
    exact ⟨hresult, by simpa using .inr hoverflow⟩

/-! ## Every width -/

theorem findsLowestTerms_normalize (f : Fraction w) : FindsLowestTerms f f.normalize where
  undefined := fun hden s => by
    rw [run_normalize_of_den_eq_zero hden]
    exact ⟨rfl, rfl⟩
  lowest := fun hden hfits s => by
    have hw : 2 ≤ w := Nat.le_of_not_lt fun hw => not_fits_of_narrow hw _ hfits
    rcases run_normalize hw hden s with ⟨r, hr, hrun⟩ | ⟨hmisfit, -⟩
    · rw [hrun]
      exact ⟨hr, rfl⟩
    · exact absurd hfits hmisfit
  misfit := fun hden hmisfit s => by
    by_cases hw : w < 2
    · exact normalize_of_narrow hw hden s
    · rcases run_normalize (Nat.le_of_not_lt hw) hden s with ⟨r, hr, -⟩ | ⟨-, hrun⟩
      · exact absurd hr.fits hmisfit
      · rw [hrun]
        exact ⟨rfl, rfl⟩

/-- What is found is the invalid fraction or the lowest terms of a number. -/
theorem FindsLowestTerms.cases {x : Checked (Fraction w)} (h : FindsLowestTerms f x) (s : Status) :
    (x.run s).1 = invalid ∨ Represents (x.run s).1 f.toRat := by
  by_cases hden : f.den = 0#w
  · exact .inl (h.undefined hden s).1
  · by_cases hfits : Fits w f.toRat
    · exact .inr (h.lowest hden hfits s).1
    · exact .inl (h.misfit hden hfits s).1

/-- Normalization finds the lowest terms or says that they do not fit, whatever the pair is and has
been reported before, and normalizing what it gives once more changes nothing and reports nothing.
From two bits on no step of it goes wrong. -/
theorem lowest_terms_of_normalize (f : Fraction w) :
    FindsLowestTerms f f.normalize ∧
      (∀ s t, (f.normalize.run s).1.normalize.run t = ((f.normalize.run s).1, t)) ∧
      (2 ≤ w → Faultless f.normalize) := by
  have hfinds := findsLowestTerms_normalize f
  refine ⟨hfinds, fun s t => ?_, fun hw => faultless_normalize hw f⟩
  rcases hfinds.cases s with hinvalid | hrepresents
  · rw [hinvalid]
    exact run_normalize_of_den_eq_zero rfl t
  · exact run_normalize_of_represents hrepresents t

/-- The sign of the least word moves to the numerator once something has been cancelled. -/
example : (normalize (⟨6#8, least 8⟩ : Fraction 8)).result = ⟨-3#8, 64#8⟩ := by decide +kernel

end Fraction

end Reckoner
