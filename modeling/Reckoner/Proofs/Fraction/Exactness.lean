import Reckoner.Proofs.Fraction.Marks
import Reckoner.Proofs.Fraction.Operations

/-!
The four operations on fractions: exact, or flagged.

Where the flag stays down the result is the true one in lowest terms. The converse holds where no
intermediate product is larger than what is asked for: then an operation overflows only if the
true result itself does not fit. The operations on whole numbers are of this kind.
-/
namespace Reckoner

namespace Word

variable {w : Nat}

theorem run_add_of_fits {a b : BitVec w} (h : Fits w (a.toInt + b.toInt)) (s : Status) :
    (add a b).run s = (a + b, s) := by
  simp [run_add, h]

theorem run_sub_of_fits {a b : BitVec w} (h : Fits w (a.toInt - b.toInt)) (s : Status) :
    (sub a b).run s = (a - b, s) := by
  simp [run_sub, h]

theorem run_mul_of_fits {a b : BitVec w} (h : Fits w (a.toInt * b.toInt)) (s : Status) :
    (mul a b).run s = (a * b, s) := by
  simp [run_mul, h]

theorem overflow_add {a b : BitVec w} (h : ¬ Fits w (a.toInt + b.toInt)) (s : Status) :
    ((add a b).run s).2.overflow = true := by
  simp [run_add, h]

theorem overflow_sub {a b : BitVec w} (h : ¬ Fits w (a.toInt - b.toInt)) (s : Status) :
    ((sub a b).run s).2.overflow = true := by
  simp [run_sub, h]

theorem overflow_mul {a b : BitVec w} (h : ¬ Fits w (a.toInt * b.toInt)) (s : Status) :
    ((mul a b).run s).2.overflow = true := by
  simp [run_mul, h]

end Word

namespace Fraction

open Word Checked

variable {w : Nat} {a b f r : Fraction w} {p q : ℚ}

instance (w : Nat) (q : ℚ) : Decidable (Fits w q) :=
  inferInstanceAs (Decidable (_ ∧ _))

/-- The lowest-terms form of `q`, if both its terms fit. -/
def ofRat? (w : Nat) (q : ℚ) : Option (Fraction w) :=
  if Fits w q then some ⟨BitVec.ofInt w q.num, BitVec.ofInt w q.den⟩ else none

theorem ofRat?_eq_none : ofRat? w q = none ↔ ¬ Fits w q := by
  simp [ofRat?]

theorem ofRat?_eq_some : ofRat? w q = some r ↔ r.Represents q := by
  constructor
  · intro h
    unfold ofRat? at h
    split at h
    · next hfits =>
        cases h
        exact ⟨hfits.1, hfits.2⟩
    · cases h
  · intro h
    have hform : Represents (⟨BitVec.ofInt w q.num, BitVec.ofInt w q.den⟩ : Fraction w) q :=
      ⟨h.fits.1, h.fits.2⟩
    rw [ofRat?, if_pos h.fits, hform.unique h]

theorem unlessOverflow_normalize (hw : 2 ≤ w) (hden : f.den ≠ 0#w) :
    f.normalize.unlessOverflow = ofRat? w f.toRat := by
  rcases run_normalize hw hden {} with ⟨r, hr, hrun⟩ | ⟨hfits, hrun⟩
  · rw [ofRat?_eq_some.2 hr, unlessOverflow_eq, Checked.result, hrun]
    rfl
  · rw [ofRat?_eq_none.2 hfits, unlessOverflow_eq_none, hrun]

/-- The denominator makes no difference to what is zero. -/
theorem toRat_eq_zero (hb : b.den ≠ 0#w) : b.toRat = 0 ↔ b.num = 0#w := by
  have hden : (b.den.toInt : ℚ) ≠ 0 := by exact_mod_cast toInt_ne_zero hb
  rw [toRat, div_eq_zero_iff, or_iff_left hden, ← BitVec.toInt_inj, BitVec.toInt_zero]
  norm_cast

theorem Represents.num_eq_zero_iff (h : a.Represents q) : a.num = 0#w ↔ q = 0 := by
  rw [← h.toRat_eq, toRat_eq_zero h.den_ne_zero]

/-! ## Products and quotients -/

/-- A product of fractions of which both terms fit. -/
theorem unlessOverflow_mul_of_fits (hw : 2 ≤ w) (ha : a.den ≠ 0#w) (hb : b.den ≠ 0#w)
    (hnum : Word.Fits w (a.num.toInt * b.num.toInt))
    (hden : Word.Fits w (a.den.toInt * b.den.toInt)) :
    (mul a b).unlessOverflow = ofRat? w (a.toRat * b.toRat) := by
  have hne : a.den * b.den ≠ 0#w := by
    intro hzero
    have hproduct := toInt_mul_of_fits hden
    rw [hzero, BitVec.toInt_zero, eq_comm, Int.mul_eq_zero] at hproduct
    exact hproduct.elim (toInt_ne_zero ha) (toInt_ne_zero hb)
  have hrat : toRat (⟨a.num * b.num, a.den * b.den⟩ : Fraction w) = a.toRat * b.toRat := by
    simp only [toRat, toInt_mul_of_fits hnum, toInt_mul_of_fits hden]
    push_cast
    rw [div_mul_div_comm]
  rw [mul, unlessOverflow_bind_of_run (run_mul_of_fits hnum {}),
    unlessOverflow_bind_of_run (run_mul_of_fits hden {}), unlessOverflow_normalize hw hne, hrat]

/-- Where nothing cancels, a product overflows only if it does not fit. -/
theorem unlessOverflow_mul_of_represents (hw : 2 ≤ w) (ha : a.Represents p) (hb : b.Represents q)
    (hnum : (p * q).num = p.num * q.num) (hden : (p * q).den = p.den * q.den) :
    (mul a b).unlessOverflow = ofRat? w (p * q) := by
  have hdenInt : ((p * q).den : ℤ) = p.den * q.den := by exact_mod_cast hden
  by_cases hn : Word.Fits w (a.num.toInt * b.num.toInt)
  · by_cases hd : Word.Fits w (a.den.toInt * b.den.toInt)
    · rw [unlessOverflow_mul_of_fits hw ha.den_ne_zero hb.den_ne_zero hn hd, ha.toRat_eq,
        hb.toRat_eq]
    · have hfits : ¬ Fits w (p * q) := by
        rintro ⟨-, h⟩
        rw [hdenInt, ← ha.den, ← hb.den] at h
        exact hd h
      rw [ofRat?_eq_none.2 hfits, mul, unlessOverflow_bind_of_run (run_mul_of_fits hn {}),
        unlessOverflow_bind_eq_none (fun _ => oblivious_normalize _) (overflow_mul hd {})]
  · have hfits : ¬ Fits w (p * q) := by
      rintro ⟨h, -⟩
      rw [hnum, ← ha.num, ← hb.num] at h
      exact hn h
    rw [ofRat?_eq_none.2 hfits, mul, unlessOverflow_bind_eq_none
      (fun _ => (Word.oblivious_mul _ _).bind fun _ => oblivious_normalize _) (overflow_mul hn {})]

/-- A quotient of fractions of which both products fit. -/
theorem unlessOverflow_div_of_fits (hw : 2 ≤ w) (ha : a.den ≠ 0#w) (hb : b.num ≠ 0#w)
    (hnum : Word.Fits w (a.num.toInt * b.den.toInt))
    (hden : Word.Fits w (b.num.toInt * a.den.toInt)) :
    (div a b).unlessOverflow = ofRat? w (a.toRat / b.toRat) := by
  have hne : b.num * a.den ≠ 0#w := by
    intro hzero
    have hproduct := toInt_mul_of_fits hden
    rw [hzero, BitVec.toInt_zero, eq_comm, Int.mul_eq_zero] at hproduct
    exact hproduct.elim (toInt_ne_zero hb) (toInt_ne_zero ha)
  have hrat : toRat (⟨a.num * b.den, b.num * a.den⟩ : Fraction w) = a.toRat / b.toRat := by
    simp only [toRat, toInt_mul_of_fits hnum, toInt_mul_of_fits hden]
    push_cast
    rw [div_div_div_eq, mul_comm (a.den.toInt : ℚ)]
  rw [div, unlessOverflow_bind_of_run (run_mul_of_fits hnum {}),
    unlessOverflow_bind_of_run (run_mul_of_fits hden {}), unlessOverflow_normalize hw hne, hrat]

/-- Division by zero overflows only if the numerator does. -/
theorem unlessOverflow_div_zero (hb : b.num = 0#w)
    (hnum : Word.Fits w (a.num.toInt * b.den.toInt)) :
    (div a b).unlessOverflow = some invalid := by
  have hden : Word.Fits w (b.num.toInt * a.den.toInt) := by
    rw [hb, BitVec.toInt_zero, Int.zero_mul]
    exact fits_zero
  have hzero : b.num * a.den = 0#w := by rw [hb, BitVec.zero_mul]
  rw [div, unlessOverflow_bind_of_run (run_mul_of_fits hnum {}),
    unlessOverflow_bind_of_run (run_mul_of_fits hden {}), unlessOverflow_eq, Checked.result,
    run_normalize_of_den_eq_zero hzero]
  rfl

/-! ## Sums and differences -/

/-- A whole number and a fraction over the denominator of the fraction. -/
theorem run_align_of_isInteger (hw : 2 ≤ w) (ha : a.den = 1#w)
    (hfits : Word.Fits w (a.num.toInt * b.den.toInt)) :
    (align a b).run {} = ((a.num * b.den, b.num, b.den), {}) := by
  have hone : (1#w : BitVec w).toInt = 1 := BitVec.toInt_one (by omega)
  have hgcd : ∀ s, (gcd a.den b.den).run s = (1#w, s) := by
    obtain ⟨g, hrun, hg, hsign⟩ := run_gcd a.den b.den
    have hleast := two_mul_toInt_least (w := w) (by omega)
    have hpow := two_pow_le hw
    have hnatAbs : g.toInt.natAbs = 1 := by rw [hg, ha, hone, Int.natAbs_one, Nat.gcd_one_left]
    have hgOne : g = 1#w := by
      apply BitVec.eq_of_toInt_eq
      rcases hsign with hsign | rfl
      · omega
      · omega
    rwa [hgOne] at hrun
  have hnonzero : (1#w : BitVec w) ≠ 0#w := by
    intro hzero
    rw [hzero, BitVec.toInt_zero] at hone
    cases hone
  have hquotient : ∀ (c : BitVec w) (s : Status), (quotient c 1#w).run s = (c, s) := by
    intro c s
    rw [run_quotient (divides_of_ne hnonzero (.inr (by omega))), BitVec.sdiv_one]
  have hnum : Word.Fits w (b.num.toInt * (1#w : BitVec w).toInt) := by
    rw [hone, Int.mul_one]
    exact fits_toInt b.num
  have hden : Word.Fits w ((1#w : BitVec w).toInt * b.den.toInt) := by
    rw [hone, Int.one_mul]
    exact fits_toInt b.den
  rw [ha] at hgcd
  simp only [align, ha, run_bind, hgcd, hnonzero, if_false, hquotient, run_mul_of_fits hfits,
    run_mul_of_fits hnum, run_mul_of_fits hden, run_pure, BitVec.mul_one, BitVec.one_mul]

/-- The numerator of a whole number plus a fraction. -/
theorem num_intCast_add (n : Int) (q : ℚ) : ((n : ℚ) + q).num = n * q.den + q.num := by
  have hproduct : (((n : ℚ) + q).num : ℚ) = ((n : ℚ) + q) * q.den := by
    rw [← Rat.intCast_add_den n q, Rat.mul_den_eq_num]
  have hq : q * q.den = q.num := Rat.mul_den_eq_num q
  rw [add_mul, hq] at hproduct
  exact_mod_cast hproduct

theorem toRat_of_isInteger (hw : 2 ≤ w) (ha : a.den = 1#w) : a.toRat = a.num.toInt := by
  rw [toRat, ha, BitVec.toInt_one (by omega), Int.cast_one, div_one]

/-- A whole number plus a fraction in lowest terms: the sum is one as it stands. -/
theorem unlessOverflow_add_of_isInteger (hw : 2 ≤ w) (ha : a.den = 1#w) (hb : b.Represents q)
    (hfits : Word.Fits w (a.num.toInt * b.den.toInt)) :
    (add a b).unlessOverflow = ofRat? w (a.toRat + q) := by
  have hproduct := toInt_mul_of_fits hfits
  have hrun := run_align_of_isInteger hw ha hfits
  have hnum : (a.toRat + q).num = (a.num * b.den).toInt + b.num.toInt := by
    rw [toRat_of_isInteger hw ha, num_intCast_add, hproduct, hb.num, hb.den]
  rw [add, unlessOverflow_bind_of_run hrun]
  by_cases hsum : Word.Fits w ((a.num * b.den).toInt + b.num.toInt)
  · have hrat : toRat (⟨a.num * b.den + b.num, b.den⟩ : Fraction w) = a.toRat + q := by
      have hden : (b.den.toInt : ℚ) ≠ 0 := by exact_mod_cast toInt_ne_zero hb.den_ne_zero
      rw [toRat_of_isInteger hw ha, ← hb.toRat_eq]
      simp only [toRat, toInt_add_of_fits hsum, hproduct]
      push_cast
      rw [add_div, mul_div_cancel_right₀ _ hden]
    have hne : (⟨a.num * b.den + b.num, b.den⟩ : Fraction w).den ≠ 0#w := hb.den_ne_zero
    rw [unlessOverflow_bind_of_run (run_add_of_fits hsum {}), unlessOverflow_normalize hw hne, hrat]
  · have hnot : ¬ Fits w (a.toRat + q) := by
      rintro ⟨h, -⟩
      rw [hnum] at h
      exact hsum h
    rw [unlessOverflow_bind_eq_none (fun _ => oblivious_normalize _) (overflow_add hsum {}),
      ofRat?_eq_none.2 hnot]

/-! ## Whole numbers -/

theorem represents_of_isInteger (hw : 2 ≤ w) (ha : a.den = 1#w) :
    a.Represents (a.num.toInt : ℚ) where
  num := by simp
  den := by simp [ha, BitVec.toInt_one (show 1 < w by omega)]

theorem represents_zero (hw : 2 ≤ w) : (ofWord 0#w).Represents 0 where
  num := by simp [ofWord]
  den := by simp [ofWord, BitVec.toInt_one (show 1 < w by omega)]

theorem represents_one (hw : 2 ≤ w) : (ofWord 1#w).Represents 1 where
  num := by simp [ofWord, BitVec.toInt_one (show 1 < w by omega)]
  den := by simp [ofWord, BitVec.toInt_one (show 1 < w by omega)]

theorem unlessOverflow_zero_add (hw : 2 ≤ w) (hb : b.Represents q) :
    (add (ofWord 0#w) b).unlessOverflow = some b := by
  have hzero := represents_zero hw
  have hfits : Word.Fits w ((ofWord 0#w).num.toInt * b.den.toInt) := by
    rw [hzero.num, Rat.num_zero, Int.zero_mul]
    exact fits_zero
  rw [unlessOverflow_add_of_isInteger hw rfl hb hfits, hzero.toRat_eq, zero_add]
  exact ofRat?_eq_some.2 hb

theorem unlessOverflow_one_mul (hw : 2 ≤ w) (hb : b.Represents q) :
    (mul (ofWord 1#w) b).unlessOverflow = some b := by
  rw [unlessOverflow_mul_of_represents hw (represents_one hw) hb (by simp) (by simp), one_mul]
  exact ofRat?_eq_some.2 hb

theorem fits_intCast (hw : 2 ≤ w) {n : Int} : Fits w (n : ℚ) ↔ Word.Fits w n := by
  have hone : Word.Fits w 1 := by
    rw [← BitVec.toInt_one (show 1 < w by omega)]
    exact fits_toInt 1#w
  simp [Fits, hone]

/-- The factor one on the right. -/
theorem fits_mul_one (hw : 2 ≤ w) (n : BitVec w) (ha : a.den = 1#w) :
    Word.Fits w (n.toInt * a.den.toInt) := by
  rw [ha, BitVec.toInt_one (by omega), Int.mul_one]
  exact fits_toInt n

theorem unlessOverflow_sub_of_isInteger (hw : 2 ≤ w) (ha : a.den = 1#w) (hb : b.den = 1#w) :
    (sub a b).unlessOverflow = ofRat? w (a.toRat - b.toRat) := by
  have hrun := run_align_of_isInteger hw ha (fits_mul_one hw a.num hb)
  rw [hb, BitVec.mul_one] at hrun
  have hrat : a.toRat - b.toRat = ((a.num.toInt - b.num.toInt : ℤ) : ℚ) := by
    rw [toRat_of_isInteger hw ha, toRat_of_isInteger hw hb, Int.cast_sub]
  rw [sub, unlessOverflow_bind_of_run hrun, hrat]
  by_cases hfits : Word.Fits w (a.num.toInt - b.num.toInt)
  · have hform := represents_of_isInteger hw (a := ⟨a.num - b.num, 1#w⟩) rfl
    rw [toInt_sub_of_fits hfits] at hform
    rw [unlessOverflow_bind_of_run (run_sub_of_fits hfits {}),
      unlessOverflow_normalize hw hform.den_ne_zero, hform.toRat_eq]
  · rw [unlessOverflow_bind_eq_none (fun _ => oblivious_normalize _) (overflow_sub hfits {}),
      ofRat?_eq_none.2 fun h => hfits ((fits_intCast hw).1 h)]

/-! ## The four operations -/

/-- The operations on two fractions. -/
inductive Operation where
  | add
  | sub
  | mul
  | div
deriving DecidableEq, Repr

namespace Operation

/-- The operation on pairs of words. -/
def apply : Operation → Fraction w → Fraction w → Checked (Fraction w)
  | add => Fraction.add
  | sub => Fraction.sub
  | mul => Fraction.mul
  | div => Fraction.div

/-- The operation on rational numbers; division by zero has no result. -/
def result? : Operation → ℚ → ℚ → Option ℚ
  | add, p, q => some (p + q)
  | sub, p, q => some (p - q)
  | mul, p, q => some (p * q)
  | div, p, q => if q = 0 then none else some (p / q)

variable {o : Operation}

theorem oblivious_apply (o : Operation) (a b : Fraction w) : Oblivious (o.apply a b) := by
  cases o with
  | add => exact oblivious_add a b
  | sub => exact oblivious_sub a b
  | mul => exact oblivious_mul a b
  | div => exact oblivious_div a b

theorem result?_eq_none : o.result? p q = none ↔ o = .div ∧ q = 0 := by
  cases o <;> simp [result?]

/-- What is found without an overflow is the true result. -/
theorem represents_apply (hw : 2 ≤ w) (ha : a.den ≠ 0#w) (hb : b.den ≠ 0#w)
    (h : (o.apply a b).unlessOverflow = some r) (hq : o.result? a.toRat b.toRat = some q) :
    r.Represents q := by
  cases o with
  | add =>
      cases hq
      exact represents_add hw ha hb h
  | sub =>
      cases hq
      exact represents_sub hw ha hb h
  | mul =>
      cases hq
      exact represents_mul hw ha hb h
  | div =>
      have hne : b.toRat ≠ 0 := by
        intro hzero
        simp [result?, hzero] at hq
      rw [result?, if_neg hne] at hq
      cases hq
      exact represents_div hw ha (fun hnum => hne ((toRat_eq_zero hb).2 hnum)) h

/-- On whole numbers the true result is found whenever it fits. -/
theorem unlessOverflow_apply_of_isInteger (hw : 2 ≤ w) (ha : a.den = 1#w) (hb : b.den = 1#w)
    (hq : o.result? a.toRat b.toRat = some q) : (o.apply a b).unlessOverflow = ofRat? w q := by
  have haForm := represents_of_isInteger hw ha
  have hbForm := represents_of_isInteger hw hb
  cases o with
  | add =>
      cases hq
      rw [hbForm.toRat_eq]
      exact unlessOverflow_add_of_isInteger hw ha hbForm (fits_mul_one hw a.num hb)
  | sub =>
      cases hq
      exact unlessOverflow_sub_of_isInteger hw ha hb
  | mul =>
      cases hq
      rw [haForm.toRat_eq, hbForm.toRat_eq]
      apply unlessOverflow_mul_of_represents hw haForm hbForm
      · rw [← Int.cast_mul, Rat.num_intCast, Rat.num_intCast, Rat.num_intCast]
      · rw [← Int.cast_mul, Rat.den_intCast, Rat.den_intCast, Rat.den_intCast]
  | div =>
      have hne : b.toRat ≠ 0 := by
        intro hzero
        simp [result?, hzero] at hq
      rw [result?, if_neg hne] at hq
      cases hq
      exact unlessOverflow_div_of_fits hw haForm.den_ne_zero
        (fun hnum => hne ((toRat_eq_zero hbForm.den_ne_zero).2 hnum)) (fits_mul_one hw a.num hb)
        (fits_mul_one hw b.num ha)

/-- An operation is exact or flagged. A flag that was up stays up. A flag that is down before and
after means that the true result was found, in lowest terms with a positive denominator, or the
invalid fraction for a division by zero and only there. On whole numbers the flag goes up exactly if
the true result has a term that does not fit. -/
theorem exact_or_flagged (o : Operation) (ha : 0 < a.den.toInt) (hb : 0 < b.den.toInt)
    (s : Status) :
    let r := ((o.apply a b).run s).1
    let t := ((o.apply a b).run s).2
    (s.overflow = true → t.overflow = true) ∧
    (s.overflow = false → t.overflow = false →
      (∀ q, o.result? a.toRat b.toRat = some q → r.Represents q) ∧
      (r = invalid ↔ o = .div ∧ b.num = 0#w)) ∧
    (s.overflow = false → a.den = 1#w → b.den = 1#w →
      ∀ q, o.result? a.toRat b.toRat = some q → (t.overflow = true ↔ ¬ Fits w q)) := by
  intro r t
  have hw := width_of_pos ha
  have haDen : a.den ≠ 0#w := by
    intro hzero
    simp [hzero] at ha
  have hbDen : b.den ≠ 0#w := by
    intro hzero
    simp [hzero] at hb
  have hr : r = (o.apply a b).result := (oblivious_apply o a b).result s
  have ht : t.overflow = (s.overflow || ((o.apply a b).run {}).2.overflow) :=
    (oblivious_apply o a b).overflow s
  rw [ht]
  refine ⟨fun hs => by rw [hs, Bool.true_or], fun hs hdown => ?_, fun hs haOne hbOne q hq => ?_⟩
  · rw [hs, Bool.false_or] at hdown
    have hfound : (o.apply a b).unlessOverflow = some r := by
      rw [unlessOverflow_eq, hdown, hr]
      rfl
    refine ⟨fun q hq => represents_apply hw haDen hbDen hfound hq, ?_⟩
    cases hq : o.result? a.toRat b.toRat with
    | some q =>
        have hrepresents := represents_apply hw haDen hbDen hfound hq
        have hdefined : ¬ (o = .div ∧ b.num = 0#w) := by
          rintro ⟨ho, hnum⟩
          rw [result?_eq_none.2 ⟨ho, (toRat_eq_zero hbDen).2 hnum⟩] at hq
          cases hq
        have hvalid : r ≠ invalid := by
          intro hinvalid
          exact hrepresents.den_ne_zero (congrArg Fraction.den hinvalid)
        exact iff_of_false hvalid hdefined
    | none =>
        obtain ⟨rfl, hzero⟩ := result?_eq_none.1 hq
        have hnum := (toRat_eq_zero hbDen).1 hzero
        exact iff_of_true (div_eq_invalid hnum hfound) ⟨rfl, hnum⟩
  · rw [hs, Bool.false_or, ← unlessOverflow_eq_none,
      unlessOverflow_apply_of_isInteger hw haOne hbOne hq, ofRat?_eq_none]

/-- In eight bits `127 / -128` does not fit, because its sign cannot move, and `-128 / 127` does. -/
theorem exact_or_flagged_least :
    let a : Fraction 8 := ⟨127#8, 1#8⟩
    let b : Fraction 8 := ⟨-128#8, 1#8⟩
    0 < a.den.toInt ∧ 0 < b.den.toInt ∧
    ((Operation.div.apply a b).run {}).2.overflow = true ∧
    ((Operation.div.apply b a).run {}).2.overflow = false ∧
    ((Operation.div.apply b a).run {}).1.Represents (-128 / 127) := by
  intro a b
  have ha : 0 < a.den.toInt := by decide
  have hb : 0 < b.den.toInt := by decide
  have hresult : Operation.div.result? a.toRat b.toRat = some (127 / -128) := by decide +kernel
  have hresult' : Operation.div.result? b.toRat a.toRat = some (-128 / 127) := by decide +kernel
  have hdown : ((Operation.div.apply b a).run {}).2.overflow = false := by decide +kernel
  refine ⟨ha, hb, ?_, hdown, ?_⟩
  · apply ((exact_or_flagged .div ha hb {}).2.2 rfl rfl rfl _ hresult).2
    decide +kernel
  · exact ((exact_or_flagged .div hb ha {}).2.1 rfl hdown).1 _ hresult'

end Operation

end Fraction

end Reckoner
