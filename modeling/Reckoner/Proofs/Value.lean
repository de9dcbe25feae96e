import Reckoner.Proofs.Fraction.Normalize
import Reckoner.Value

/-!
Exact values and the rational numbers that they stand for.

A raw pair gives the canonical form of its ratio, or division by zero if there is none that fits.
-/
namespace Reckoner

namespace Value

/-- The value is a number in canonical form: a double, a whole number, or a fraction in lowest terms
with a denominator from two up. -/
def WellFormed : Value → Prop
  | double _ | int _ => True
  | fraction f => 2 ≤ f.den.toInt ∧ Nat.Coprime f.num.toInt.natAbs f.den.toInt.natAbs
  | null | error _ => False

/-- The rational number that an exact value stands for. -/
def rat? : Value → Option ℚ
  | int n => some n.toInt
  | fraction f => some f.toRat
  | null | double _ | error _ => none

/-- The value is the canonical form of `q`. -/
def Exactly (v : Value) (q : ℚ) : Prop :=
  v.WellFormed ∧ v.rat? = some q

/-- The value is the canonical form of `q`, or a double in its place. -/
def Approximates (v : Value) (q : ℚ) : Prop :=
  v.Exactly q ∨ ∃ x, v = .double x

variable {v : Value} {q : ℚ} {f : Fraction 64}

theorem represents_ofWord {w : Nat} (hw : 1 < w) (n : BitVec w) :
    (Fraction.ofWord n).Represents n.toInt where
  num := by simp [Fraction.ofWord]
  den := by simp [Fraction.ofWord, BitVec.toInt_one hw]

/-- An exact number in canonical form is worked on as the fraction that represents it. -/
theorem Exactly.toFraction? (h : v.Exactly q) : ∃ f, v.toFraction? = some f ∧ f.Represents q := by
  obtain ⟨hwell, hrat⟩ := h
  cases v with
  | int n =>
      obtain rfl : (n.toInt : ℚ) = q := by simpa [rat?] using hrat
      exact ⟨.ofWord n, rfl, represents_ofWord (by decide) n⟩
  | fraction f =>
      obtain rfl : f.toRat = q := by simpa [rat?] using hrat
      obtain ⟨hden, hcoprime⟩ := hwell
      exact ⟨f, rfl, Fraction.represents_of_coprime (by omega) hcoprime⟩
  | _ => cases hrat

theorem WellFormed.exactly_of_toFraction? (h : v.WellFormed) (hf : v.toFraction? = some f) :
    ∃ q, v.Exactly q ∧ f.Represents q := by
  have hrat : ∃ q, v.rat? = some q := by
    cases v with
    | int n => exact ⟨_, rfl⟩
    | fraction f => exact ⟨_, rfl⟩
    | _ => cases hf
  obtain ⟨q, hq⟩ := hrat
  obtain ⟨f', hf', hrepresents⟩ := Exactly.toFraction? ⟨h, hq⟩
  rw [hf] at hf'
  cases hf'
  exact ⟨q, ⟨h, hq⟩, hrepresents⟩

/-- A fraction in lowest terms is its own lowest-terms form. -/
theorem reduced_of_represents {w : Nat} {f : Fraction w} (h : f.Represents q) : f.reduced = f := by
  rw [Fraction.reduced, Checked.result, Fraction.run_normalize_of_represents h]

/-- The value of a fraction in lowest terms is the canonical form of its ratio. -/
theorem exactly_ofFraction (h : f.Represents q) : (ofFraction f).Exactly q := by
  have hvalid : f.isValid = true := by simpa [Fraction.isValid] using h.den_ne_zero
  rw [ofFraction, reduced_of_represents h]
  simp only [hvalid, if_true]
  by_cases hone : f.den = 1#64
  · have hint : f.isInteger = true := by simpa [Fraction.isInteger] using hone
    rw [if_pos hint]
    refine ⟨trivial, ?_⟩
    have hrat := h.toRat_eq
    rw [Fraction.toRat, hone, BitVec.toInt_one (by decide)] at hrat
    simpa [rat?] using hrat
  · have hint : ¬ f.isInteger = true := by simpa [Fraction.isInteger] using hone
    rw [if_neg hint]
    refine ⟨⟨?_, ?_⟩, ?_⟩
    · have hpos := h.den_pos
      have hne : f.den.toInt ≠ 1 := by
        intro heq
        exact hone (BitVec.eq_of_toInt_eq (heq.trans (BitVec.toInt_one (by decide)).symm))
      omega
    · rw [h.num, h.den]
      exact q.reduced
    · rw [rat?, h.toRat_eq]

theorem ofFraction_of_invalid (h : f.reduced = Fraction.invalid) :
    ofFraction f = divisionByZero := by
  rw [ofFraction, h]
  rfl

/-- The value of a raw pair is the canonical form of its ratio, if the pair has one whose terms fit,
and division by zero otherwise. -/
theorem ofFraction_cases (f : Fraction 64) :
    f.den ≠ 0#64 ∧ Fraction.Fits 64 f.toRat ∧ (ofFraction f).Exactly f.toRat ∨
      (f.den = 0#64 ∨ ¬ Fraction.Fits 64 f.toRat) ∧ ofFraction f = divisionByZero := by
  by_cases hden : f.den = 0#64
  · exact .inr ⟨.inl hden, ofFraction_of_invalid (Fraction.reduced_of_den_eq_zero hden)⟩
  · rcases Fraction.reduced_cases (by decide) hden with hr | ⟨hfits, hinvalid⟩
    · have hsame : ofFraction f = ofFraction f.reduced := by
        rw [ofFraction, ofFraction, reduced_of_represents hr]
      exact .inl ⟨hden, hr.fits, hsame ▸ exactly_ofFraction hr⟩
    · exact .inr ⟨.inr hfits, ofFraction_of_invalid hinvalid⟩

theorem Exactly.ne_divisionByZero (h : v.Exactly q) : v ≠ divisionByZero := by
  rintro rfl
  cases h.2

/-- A raw pair gives division by zero exactly if its denominator is zero or its sign cannot move to
the numerator. Every other pair gives the canonical form of its ratio. -/
theorem ofFraction_eq_divisionByZero_iff (f : Fraction 64) :
    (ofFraction f = divisionByZero ↔ f.den = 0#64 ∨ f.Stranded) ∧
      (ofFraction f = divisionByZero ∨ (ofFraction f).Exactly f.toRat) := by
  rcases ofFraction_cases f with ⟨hden, hfits, hexactly⟩ | ⟨hwhy, hzero⟩
  · refine ⟨iff_of_false hexactly.ne_divisionByZero ?_, .inr hexactly⟩
    rintro (h | h)
    · exact hden h
    · exact (Fraction.stranded_iff (by decide) hden).1 h hfits
  · refine ⟨iff_of_true hzero ?_, .inl hzero⟩
    by_cases hden : f.den = 0#64
    · exact .inl hden
    · exact .inr ((Fraction.stranded_iff (by decide) hden).2 (hwhy.resolve_left hden))

/-- The denominator need not be zero: one divided by the least word. -/
theorem not_den_eq_zero_of_least :
    ¬ (ofFraction ⟨1#64, Word.least 64⟩ = divisionByZero ↔
      Fraction.den ⟨1#64, Word.least 64⟩ = 0#64) := by
  have hinvalid : (⟨1#64, Word.least 64⟩ : Fraction 64).reduced = Fraction.invalid := by
    decide +kernel
  exact fun h => absurd (h.1 (ofFraction_of_invalid hinvalid)) (by decide)

theorem Approximates.wellFormed (h : v.Approximates q) : v.WellFormed := by
  rcases h with h | ⟨x, rfl⟩
  · exact h.1
  · trivial

/-- Only one number is approximated by an exact value. -/
theorem Exactly.eq_of_approximates {p : ℚ} (h : v.Exactly q) (hp : v.Approximates p) : p = q := by
  rcases hp with hp | ⟨x, rfl⟩
  · exact Option.some.inj (hp.2.symm.trans h.2)
  · cases h.2

/-- Several values are taken one by one; nothing is found if nothing is found for one of them. -/
theorem mapM_cons_eq_some {α : Type} {g : Value → Option α} {vs : List Value} {as : List α}
    (h : (v :: vs).mapM g = some as) :
    ∃ a rest, g v = some a ∧ vs.mapM g = some rest ∧ as = a :: rest := by
  rw [List.mapM_cons] at h
  obtain ⟨a, ha, h⟩ := Option.bind_eq_some_iff.1 h
  obtain ⟨rest, hrest, hlast⟩ := Option.bind_eq_some_iff.1 h
  exact ⟨a, rest, ha, hrest, (Option.some.inj hlast).symm⟩

theorem exists_mapM {α : Type} {g : Value → Option α} {vs : List Value}
    (h : ∀ v ∈ vs, ∃ a, g v = some a) : ∃ as, vs.mapM g = some as := by
  induction vs with
  | nil => exact ⟨[], rfl⟩
  | cons v rest ih =>
      obtain ⟨a, ha⟩ := h v List.mem_cons_self
      obtain ⟨as, has⟩ := ih fun u hu => h u (List.mem_cons_of_mem _ hu)
      exact ⟨a :: as, by simp [List.mapM_cons, ha, has]⟩

/-- Several exact values approximate only the numbers that they stand for. -/
theorem mapM_rat?_eq_of_approximates {vs : List Value} {qs ps : List ℚ}
    (hvs : vs.mapM rat? = some ps) (h : List.Forall₂ Approximates vs qs) : qs = ps := by
  induction h generalizing ps with
  | nil => simpa using hvs
  | cons hv _ ih =>
      obtain ⟨p, ps', hp, hps, rfl⟩ := mapM_cons_eq_some hvs
      rw [ih hps, Exactly.eq_of_approximates ⟨hv.wellFormed, hp⟩ hv]

/-- A rational number has one canonical form. -/
theorem Exactly.unique {u : Value} (hv : v.Exactly q) (hu : u.Exactly q) : v = u := by
  obtain ⟨hvWell, hvRat⟩ := hv
  obtain ⟨huWell, huRat⟩ := hu
  have hwhole : ∀ {n : BitVec 64} {f : Fraction 64}, (int n).rat? = some q →
      (fraction f).WellFormed → (fraction f).rat? ≠ some q := by
    intro n f hn hf hq
    obtain ⟨hden, hcoprime⟩ := hf
    have hone := (Fraction.represents_of_coprime (by omega) hcoprime).den
    rw [Option.some.inj hq, ← Option.some.inj hn, Rat.den_intCast] at hone
    omega
  cases v with
  | int n =>
      cases u with
      | int n' =>
          have hcast := Option.some.inj (hvRat.trans huRat.symm)
          rw [BitVec.eq_of_toInt_eq (Rat.intCast_inj.1 hcast)]
      | fraction f => exact absurd huRat (hwhole hvRat huWell)
      | _ => cases huRat
  | fraction f =>
      cases u with
      | int n => exact absurd hvRat (hwhole huRat hvWell)
      | fraction g =>
          have hf := Fraction.represents_of_coprime (by have := hvWell.1; omega) hvWell.2
          have hg := Fraction.represents_of_coprime (by have := huWell.1; omega) huWell.2
          rw [Option.some.inj hvRat] at hf
          rw [Option.some.inj huRat] at hg
          rw [hf.unique hg]
      | _ => cases huRat
  | _ => cases hvRat

theorem exists_of_isError (h : v.isError = true) : ∃ e, v = .error e := by
  cases v with
  | error e => exact ⟨e, rfl⟩
  | _ => cases h

theorem WellFormed.not_isError (h : v.WellFormed) : v.isError = false := by
  cases v <;> first | rfl | cases h

end Value

end Reckoner
