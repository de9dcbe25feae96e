import Mathlib.Tactic.Ring
import Reckoner.Proofs.Fraction.Exactness
import Reckoner.Proofs.Value
import Reckoner.Standard

/-!
Exact powers.

Squaring and multiplying forms squares that plain repeated multiplication never forms, but each of
them is a power of the base with an exponent that is no larger than the whole one, and the terms of
such a power fit if those of the whole power do. So both ways overflow for the same bases and
exponents. What remains is the reciprocal for a negative exponent, which overflows for one numerator
only, the least word.
-/
namespace Reckoner

namespace Word

variable {w : Nat}

/-- Smaller powers fit where a larger one fits, also where that is the least word. -/
theorem Fits.pow_of_le {x : Int} {i n : Nat} (hw : 2 ≤ w) (h : Fits w (x ^ n)) (hi : i ≤ n) :
    Fits w (x ^ i) := by
  rcases hi.eq_or_lt with rfl | hlt
  · exact h
  · have hwidth := two_pow_le hw
    have hlower : (x ^ i).natAbs ≤ 1 ∨ 2 * (x ^ i).natAbs ≤ (x ^ n).natAbs := by
      rw [Int.natAbs_pow, Int.natAbs_pow]
      rcases Nat.lt_or_ge x.natAbs 2 with hsmall | hlarge
      · exact .inl (pow_le_one₀ (Nat.zero_le _) (by omega))
      · right
        calc 2 * x.natAbs ^ i ≤ x.natAbs * x.natAbs ^ i := Nat.mul_le_mul_right _ hlarge
          _ = x.natAbs ^ (i + 1) := (Nat.pow_succ').symm
          _ ≤ x.natAbs ^ n := Nat.pow_le_pow_right (by omega) hlt
    rw [fits_iff] at h ⊢
    omega

end Word

namespace Fraction

open Checked Word

variable {w : Nat} {a b base : Fraction w} {q x : ℚ} {i j k n : Nat}

theorem Fits.pow_of_le (hw : 2 ≤ w) (h : Fits w (x ^ n)) (hi : i ≤ n) : Fits w (x ^ i) := by
  simp only [Fits, Rat.num_pow, Rat.den_pow, Nat.cast_pow] at h ⊢
  exact ⟨h.1.pow_of_le hw hi, h.2.pow_of_le hw hi⟩

/-! ## Products of powers -/

/-- A product of two powers of one base overflows only if the power does not fit. -/
theorem unlessOverflow_mul_pow (hw : 2 ≤ w) (ha : a.Represents (x ^ i))
    (hb : b.Represents (x ^ j)) : (mul a b).unlessOverflow = ofRat? w (x ^ (i + j)) := by
  rw [pow_add]
  apply unlessOverflow_mul_of_represents hw ha hb
  · rw [← pow_add, Rat.num_pow, Rat.num_pow, Rat.num_pow, pow_add]
  · rw [← pow_add, Rat.den_pow, Rat.den_pow, Rat.den_pow, pow_add]

/-- Multiplying by the base `k` times. -/
theorem unlessOverflow_foldlM_mul (hw : 2 ≤ w) (hbase : base.Represents x)
    (ha : a.Represents (x ^ i)) (k : Nat) :
    ((List.replicate k base).foldlM mul a).unlessOverflow = ofRat? w (x ^ (i + k)) := by
  rw [unlessOverflow_foldlM oblivious_mul]
  induction k generalizing a i with
  | zero => exact (ofRat?_eq_some.2 ha).symm
  | succ k ih =>
      have hbase' : base.Represents (x ^ 1) := by rwa [pow_one]
      rw [List.replicate_succ, List.foldlM_cons, unlessOverflow_mul_pow hw ha hbase']
      cases hstep : ofRat? w (x ^ (i + 1)) with
      | none =>
          have hnot : ¬ Fits w (x ^ (i + (k + 1))) := fun h =>
            ofRat?_eq_none.1 hstep (Fits.pow_of_le hw h (by omega))
          exact (ofRat?_eq_none.2 hnot).symm
      | some a' =>
          rw [Nat.add_comm k, ← Nat.add_assoc]
          exact ih (ofRat?_eq_some.1 hstep)

/-! ## Reciprocals -/

/-- Turned over, the terms fit unless the numerator is the least word. -/
theorem fits_inv_iff (hw : 2 ≤ w) (ha : a.Represents q) (hq : q ≠ 0) :
    Fits w q⁻¹ ↔ a.num ≠ least w := by
  have hnum : q.num ≠ 0 := Rat.num_ne_zero.2 hq
  have hden : Word.Fits w (q.num.sign * q.den) := by
    have hpos := ha.den_pos
    have hbounds := toInt_bounds a.den (by omega)
    rw [← ha.den, fits_iff_of_pos (by omega)]
    rcases Int.sign_trichotomy q.num with hsign | hsign | hsign
    · rw [hsign]
      omega
    · rw [hsign]
      omega
    · rw [hsign]
      omega
  rw [Fits, Rat.num_inv, Rat.den_inv, if_neg hnum, and_iff_right hden, ← ha.num,
    fits_natAbs_iff a.num (by omega)]

theorem unlessOverflow_reciprocal (hw : 2 ≤ w) (ha : a.Represents q) (hq : q ≠ 0) :
    (div (ofWord 1#w) a).unlessOverflow = ofRat? w q⁻¹ := by
  have hone := represents_one hw
  have hnum : a.num ≠ 0#w := ha.num_eq_zero_iff.not.2 hq
  have hfits : Word.Fits w ((ofWord 1#w).num.toInt * a.den.toInt) := by
    rw [hone.num, Rat.num_one, Int.one_mul]
    exact fits_toInt a.den
  rw [unlessOverflow_div_of_fits hw hone.den_ne_zero hnum hfits (fits_mul_one hw a.num rfl),
    hone.toRat_eq, ha.toRat_eq, one_div]

theorem unlessOverflow_reciprocal_zero (hw : 2 ≤ w) (ha : a.Represents 0) :
    (div (ofWord 1#w) a).unlessOverflow = some invalid := by
  have hone := represents_one hw
  apply unlessOverflow_div_zero (ha.num_eq_zero_iff.2 rfl)
  rw [hone.num, Rat.num_one, Int.one_mul]
  exact fits_toInt a.den

end Fraction

namespace Standard

open Fraction (ofRat? ofRat?_eq_some ofRat?_eq_none)

variable {base power result square : Fraction 64} {v : Value} {n : BitVec 64} {x y : ℚ}
  {e i j : Nat}

/-! ## Squaring and multiplying -/

/-- The result after a round: the square is multiplied in if the exponent is odd. -/
def roundResult (result square : Fraction 64) (e : Nat) : Option (Fraction 64) :=
  if e % 2 = 1 then (Fraction.mul result square).unlessOverflow else some result

/-- The square after a round: it is squared if a bit of the exponent remains. -/
def roundSquare (square : Fraction 64) (e : Nat) : Option (Fraction 64) :=
  if e / 2 = 0 then some square else (Fraction.mul square square).unlessOverflow

theorem powerFrom_zero : powerFrom result square 0 = some result := by
  rw [powerFrom, if_pos rfl]

theorem powerFrom_of_ne_zero (he : e ≠ 0) :
    powerFrom result square e = (roundResult result square e).bind fun result' =>
      (roundSquare square e).bind fun square' => powerFrom result' square' (e / 2) := by
  rw [powerFrom, if_neg he, roundResult, roundSquare]
  cases (if e % 2 = 1 then (Fraction.mul result square).unlessOverflow else some result) with
  | none => rfl
  | some result' =>
      cases (if e / 2 = 0 then some square else (Fraction.mul square square).unlessOverflow) with
      | none => rfl
      | some square' => rfl

/-- The rounds with a bound on their number; nothing if the exponent is not used up by then. -/
def powerWithin (result square : Fraction 64) (e : Nat) : Nat → Option (Option (Fraction 64))
  | 0 => if e = 0 then some (some result) else none
  | rounds + 1 =>
    if e = 0 then
      some (some result)
    else
      match roundResult result square e, roundSquare square e with
      | some result, some square => powerWithin result square (e / 2) rounds
      | _, _ => some none

/-- There are no more rounds than bits of the exponent. -/
theorem powerWithin_eq {rounds : Nat} (he : e < 2 ^ rounds) :
    powerWithin result square e rounds = some (powerFrom result square e) := by
  induction rounds generalizing result square e with
  | zero =>
      obtain rfl : e = 0 := by omega
      rw [powerWithin, if_pos rfl, powerFrom_zero]
  | succ rounds ih =>
      rw [powerWithin]
      by_cases hzero : e = 0
      · rw [if_pos hzero, hzero, powerFrom_zero]
      · rw [if_neg hzero, powerFrom_of_ne_zero hzero]
        cases roundResult result square e with
        | none => rfl
        | some result' =>
            cases roundSquare square e with
            | none => rfl
            | some square' => exact ih (by omega)

theorem roundResult_eq (hresult : result.Represents (x ^ i)) (hsquare : square.Represents (x ^ j)) :
    roundResult result square e = ofRat? 64 (x ^ (i + j * (e % 2))) := by
  unfold roundResult
  split
  · next hodd =>
      rw [hodd, Nat.mul_one]
      exact Fraction.unlessOverflow_mul_pow (by decide) hresult hsquare
  · next heven =>
      have hzero : e % 2 = 0 := by omega
      rw [hzero, Nat.mul_zero, Nat.add_zero]
      exact (ofRat?_eq_some.2 hresult).symm

/-- The last square is not needed, and it is not formed. -/
theorem roundSquare_of_ne_zero (hsquare : square.Represents (x ^ j)) (he : e / 2 ≠ 0) :
    roundSquare square e = ofRat? 64 (x ^ (j + j)) := by
  rw [roundSquare, if_neg he]
  exact Fraction.unlessOverflow_mul_pow (by decide) hsquare hsquare

/-- Squaring and multiplying finds the power whenever it fits: the exponents of all squares and
results on the way are no larger than the one of the power. -/
theorem powerFrom_eq (hresult : result.Represents (x ^ i)) (hsquare : square.Represents (x ^ j)) :
    powerFrom result square e = ofRat? 64 (x ^ (i + j * e)) := by
  induction e using Nat.strongRecOn generalizing result square i j with
  | _ e ih =>
      by_cases hzero : e = 0
      · rw [hzero, powerFrom_zero, Nat.mul_zero, Nat.add_zero]
        exact (ofRat?_eq_some.2 hresult).symm
      · have hexponent : i + j * (e % 2) + (j + j) * (e / 2) = i + j * e := by
          calc i + j * (e % 2) + (j + j) * (e / 2) = i + j * (e % 2 + 2 * (e / 2)) := by ring
            _ = i + j * e := by rw [Nat.mod_add_div]
        have hnone : ∀ {k}, k ≤ i + j * e → ofRat? 64 (x ^ k) = none →
            ofRat? 64 (x ^ (i + j * e)) = none := by
          intro k hk h
          exact ofRat?_eq_none.2 fun hfits =>
            ofRat?_eq_none.1 h (Fraction.Fits.pow_of_le (by decide) hfits hk)
        rw [powerFrom_of_ne_zero hzero, roundResult_eq hresult hsquare]
        cases hround : ofRat? 64 (x ^ (i + j * (e % 2))) with
        | none => exact (hnone (by omega) hround).symm
        | some result' =>
            have hresult' := ofRat?_eq_some.1 hround
            by_cases hlast : e / 2 = 0
            · have hmod : e % 2 = e := by omega
              rw [hmod] at hround
              rw [roundSquare, if_pos hlast, hlast, Option.bind_some, Option.bind_some,
                powerFrom_zero, hround]
            · rw [roundSquare_of_ne_zero hsquare hlast]
              cases hsquare' : ofRat? 64 (x ^ (j + j)) with
              | none =>
                  have hle : j + j ≤ (j + j) * (e / 2) := Nat.le_mul_of_pos_right _ (by omega)
                  exact (hnone (by omega) hsquare').symm
              | some square' =>
                  rw [← hexponent]
                  exact ih (e / 2) (by omega) hresult' (ofRat?_eq_some.1 hsquare')

/-! ## The whole power -/

/-- The power with the sign of the exponent: `power`, or one divided by it. -/
def signedPower (n : BitVec 64) (power : Fraction 64) : Checked (Fraction 64) :=
  if n.slt 0#64 then Fraction.div (.ofWord 1#64) power else return power

/-- The power by repeated multiplication from one, with one flag for all steps. -/
def powerByProducts (base : Fraction 64) (n : BitVec 64) : Option Value :=
  ((List.replicate n.toInt.natAbs base).foldlM Fraction.mul (.ofWord 1#64) >>=
    signedPower n).unlessOverflow.map .ofFraction

theorem slt_zero_iff : n.slt 0#64 = true ↔ n.toInt < 0 := by
  rw [BitVec.slt_iff_toInt_lt, BitVec.toInt_zero]

theorem oblivious_signedPower (n : BitVec 64) (power : Fraction 64) :
    Checked.Oblivious (signedPower n power) := by
  unfold signedPower
  split
  · exact Fraction.oblivious_div _ _
  · exact Checked.oblivious_pure _

theorem ofRat?_one : ofRat? 64 1 = some (.ofWord 1#64) :=
  ofRat?_eq_some.2 (Fraction.represents_one (by decide))

theorem powerByProducts_eq (hbase : base.Represents x) :
    powerByProducts base n = ((ofRat? 64 (x ^ n.toInt.natAbs)).bind fun power =>
      (signedPower n power).unlessOverflow).map .ofFraction := by
  have hone : (Fraction.ofWord 1#64).Represents (x ^ 0) := by
    rw [pow_zero]
    exact Fraction.represents_one (by decide)
  rw [powerByProducts, Checked.unlessOverflow_bind (oblivious_signedPower n),
    Fraction.unlessOverflow_foldlM_mul (by decide) hbase hone, Nat.zero_add]

/-- Squaring and multiplying, and repeated multiplication, have one outcome. -/
theorem powerExact_eq (hbase : base.Represents x) (hn : n ≠ 0#64) :
    powerExact base n = ((ofRat? 64 (x ^ n.toInt.natAbs)).bind fun power =>
      (signedPower n power).unlessOverflow).map .ofFraction := by
  have hone : (Fraction.ofWord 1#64).Represents (x ^ 0) := by
    rw [pow_zero]
    exact Fraction.represents_one (by decide)
  have hbase' : base.Represents (x ^ 1) := by rwa [pow_one]
  rw [powerExact, if_neg hn]
  by_cases hbaseOne : base = .ofWord 1#64
  · obtain rfl : x = 1 := by
      rw [← hbase.toRat_eq, hbaseOne]
      exact (Fraction.represents_one (by decide)).toRat_eq
    have hsigned : (signedPower n (.ofWord 1#64)).unlessOverflow = some (.ofWord 1#64) := by
      unfold signedPower
      split
      · decide +kernel
      · rfl
    have hvalue : Value.ofFraction (.ofWord 1#64) = .int 1#64 :=
      (Value.exactly_ofFraction (Fraction.represents_one (by decide))).unique ⟨trivial, rfl⟩
    rw [if_pos hbaseOne, one_pow, ofRat?_one, Option.bind_some, hsigned, Option.map_some, hvalue]
  · rw [if_neg hbaseOne, powerFrom_eq hone hbase', Nat.zero_add, Nat.one_mul]
    cases ofRat? 64 (x ^ n.toInt.natAbs) with
    | none => rfl
    | some power =>
        rw [Option.bind_some, signedPower]
        simp only
        split
        · rfl
        · rfl

/-! ## Outcomes -/

theorem unlessOverflow_signedPower (hn : 0 ≤ n.toInt) (power : Fraction 64) :
    (signedPower n power).unlessOverflow = some power := by
  have hpositive : ¬ n.slt 0#64 = true := fun h => absurd (slt_zero_iff.1 h) (by omega)
  rw [signedPower, if_neg hpositive]
  rfl

theorem unlessOverflow_signedPower_of_neg (hn : n.toInt < 0) (hpower : power.Represents y)
    (hy : y ≠ 0) : (signedPower n power).unlessOverflow = ofRat? 64 y⁻¹ := by
  rw [signedPower, if_pos (slt_zero_iff.2 hn)]
  exact Fraction.unlessOverflow_reciprocal (by decide) hpower hy

theorem unlessOverflow_signedPower_zero (hn : n.toInt < 0) (hpower : power.Represents 0) :
    (signedPower n power).unlessOverflow = some .invalid := by
  rw [signedPower, if_pos (slt_zero_iff.2 hn)]
  exact Fraction.unlessOverflow_reciprocal_zero (by decide) hpower

/-- Zero has no power with an exponent that is not positive. -/
theorem powerExact_zero (hbase : base.Represents 0) (hn : n.toInt ≤ 0) :
    ∃ e, powerExact base n = some (.error e) ∧ e.kind = .divisionByZero := by
  by_cases hzero : n = 0#64
  · refine ⟨⟨.divisionByZero, "0^0 is not defined", none⟩, ?_, rfl⟩
    rw [powerExact, if_pos hzero, if_pos (hbase.num_eq_zero_iff.2 rfl)]
    rfl
  · have hne := Word.toInt_ne_zero hzero
    have hneg : n.toInt < 0 := by omega
    have hpower : (0 : ℚ) ^ n.toInt.natAbs = 0 := zero_pow (by omega)
    refine ⟨⟨.divisionByZero, "Division by zero", none⟩, ?_, rfl⟩
    rw [powerExact_eq hbase hzero, hpower, ofRat?_eq_some.2 hbase, Option.bind_some,
      unlessOverflow_signedPower_zero hneg hbase]
    rfl

/-- A power is left to floating point if a term of it does not fit before its sign is looked at, or
if the numerator that becomes the denominator is the least word. -/
theorem powerExact_eq_none_iff (hbase : base.Represents x) :
    powerExact base n = none ↔ ¬ Fraction.Fits 64 (x ^ n.toInt.natAbs) ∨
      n.toInt < 0 ∧ x.num ^ n.toInt.natAbs = (Word.least 64).toInt := by
  by_cases hzero : n = 0#64
  · have hone : Fraction.Fits 64 (1 : ℚ) := (Fraction.represents_one (by decide)).fits
    have hsome : powerExact base n ≠ none := by
      rw [powerExact, if_pos hzero]
      split <;> exact Option.some_ne_none _
    have hnot : ¬ (¬ Fraction.Fits 64 (x ^ n.toInt.natAbs) ∨
        n.toInt < 0 ∧ x.num ^ n.toInt.natAbs = (Word.least 64).toInt) := by
      simp [hzero, hone]
    exact iff_of_false hsome hnot
  · rw [powerExact_eq hbase hzero]
    cases hpower : ofRat? 64 (x ^ n.toInt.natAbs) with
    | none => exact iff_of_true rfl (.inl (ofRat?_eq_none.1 hpower))
    | some power =>
        have hform := ofRat?_eq_some.1 hpower
        have hnum : power.num.toInt = x.num ^ n.toInt.natAbs := by rw [hform.num, Rat.num_pow]
        rw [Option.bind_some, Option.map_eq_none_iff, ← hnum, BitVec.toInt_inj,
          or_iff_right (not_not.2 hform.fits)]
        by_cases hneg : n.toInt < 0
        · rw [and_iff_right hneg]
          by_cases hy : x ^ n.toInt.natAbs = 0
          · rw [hy] at hform
            rw [unlessOverflow_signedPower_zero hneg hform, hform.num_eq_zero_iff.2 rfl]
            decide
          · rw [unlessOverflow_signedPower_of_neg hneg hform hy, ofRat?_eq_none,
              Fraction.fits_inv_iff (by decide) hform hy, not_not]
        · rw [unlessOverflow_signedPower (by omega)]
          simp [hneg]

/-- An exact power is the true one. -/
theorem exactly_powerExact (hbase : base.Represents x) (hdefined : ¬ (x = 0 ∧ n.toInt ≤ 0))
    (h : powerExact base n = some v) : v.Exactly (x ^ n.toInt) := by
  by_cases hzero : n = 0#64
  · have hnum : ¬ base.num = 0#64 := fun hnum =>
      hdefined ⟨hbase.num_eq_zero_iff.1 hnum, by rw [hzero, BitVec.toInt_zero]⟩
    rw [powerExact, if_pos hzero, if_neg hnum] at h
    cases h
    rw [hzero, BitVec.toInt_zero, zpow_zero]
    exact ⟨trivial, rfl⟩
  · rw [powerExact_eq hbase hzero] at h
    obtain ⟨r, hr, rfl⟩ := Option.map_eq_some_iff.1 h
    obtain ⟨power, hpower, hsigned⟩ := Option.bind_eq_some_iff.1 hr
    have hform := ofRat?_eq_some.1 hpower
    apply Value.exactly_ofFraction
    by_cases hneg : n.toInt < 0
    · have hx : x ≠ 0 := fun hx => hdefined ⟨hx, by omega⟩
      have hexponent : x ^ n.toInt = (x ^ n.toInt.natAbs)⁻¹ := by
        rw [← zpow_natCast, ← zpow_neg, Int.ofNat_natAbs_of_nonpos (by omega), neg_neg]
      rw [unlessOverflow_signedPower_of_neg hneg hform (pow_ne_zero _ hx)] at hsigned
      rw [hexponent]
      exact ofRat?_eq_some.1 hsigned
    · have hexponent : x ^ n.toInt = x ^ n.toInt.natAbs := by
        rw [← zpow_natCast, Int.natAbs_of_nonneg (by omega)]
      rw [unlessOverflow_signedPower (by omega)] at hsigned
      cases hsigned
      rwa [hexponent]

/-- Squaring and multiplying is repeated multiplication. For a base in lowest terms and an exponent
other than zero it gives what folding the product gives, for a negative exponent with one divided by
it in the end. There is nothing exactly if a term of the power does not fit or its numerator, the
denominator to be, is the least word. Zero has no power with an exponent that is not positive; every
other exact value is the true power, and the power with exponent zero is one. The rounds come to an
end: there are no more than bits of the exponent. -/
theorem powerExact_eq_powerByProducts (hden : 0 < base.den.toInt)
    (hcoprime : Nat.Coprime base.num.toInt.natAbs base.den.toInt.natAbs) (n : BitVec 64) :
    (n ≠ 0#64 → powerExact base n = powerByProducts base n) ∧
    (powerExact base n = none ↔
      ¬ Word.Fits 64 (base.num.toInt ^ n.toInt.natAbs) ∨
        ¬ Word.Fits 64 (base.den.toInt ^ n.toInt.natAbs) ∨
        n.toInt < 0 ∧ base.num.toInt ^ n.toInt.natAbs = (Word.least 64).toInt) ∧
    ((∃ e, powerExact base n = some (.error e) ∧ e.kind = .divisionByZero) ↔
      base.num = 0#64 ∧ n.toInt ≤ 0) ∧
    (¬ (base.num = 0#64 ∧ n.toInt ≤ 0) →
      ∀ v, powerExact base n = some v → v.Exactly (base.toRat ^ n.toInt)) ∧
    (n = 0#64 → base.num ≠ 0#64 → powerExact base n = some (.int 1#64)) ∧
    powerWithin (.ofWord 1#64) base n.toInt.natAbs 64 =
      some (powerFrom (.ofWord 1#64) base n.toInt.natAbs) := by
  have hbase := Fraction.represents_of_coprime hden hcoprime
  have hundefined : base.num = 0#64 ∧ n.toInt ≤ 0 ↔ base.toRat = 0 ∧ n.toInt ≤ 0 := by
    rw [hbase.num_eq_zero_iff]
  have hexact : ¬ (base.num = 0#64 ∧ n.toInt ≤ 0) →
      ∀ v, powerExact base n = some v → v.Exactly (base.toRat ^ n.toInt) := by
    intro hdefined v hv
    exact exactly_powerExact hbase (hundefined.not.1 hdefined) hv
  refine ⟨fun hn => ?_, ?_, ⟨?_, ?_⟩, hexact, fun hn hnum => ?_, ?_⟩
  · rw [powerExact_eq hbase hn, powerByProducts_eq hbase]
  · rw [powerExact_eq_none_iff hbase, Fraction.Fits, Rat.num_pow, Rat.den_pow, Nat.cast_pow,
      ← hbase.num, ← hbase.den, not_and_or, or_assoc]
  · rintro ⟨e, he, -⟩
    by_contra hdefined
    cases (hexact hdefined _ he).2
  · intro h
    obtain ⟨hzero, hn⟩ := hundefined.1 h
    exact powerExact_zero (hzero ▸ hbase) hn
  · rw [powerExact, if_pos hn, if_neg hnum]
  · have hbounds := Word.toInt_bounds n (by decide)
    have hleast := Word.two_mul_toInt_least (w := 64) (by decide)
    exact powerWithin_eq (by omega)

/-- A power of minus two reaches the least word, which has no reciprocal. -/
theorem powerExact_eq_powerByProducts_least :
    let base : Fraction 64 := ⟨-2#64, 1#64⟩
    0 < base.den.toInt ∧ Nat.Coprime base.num.toInt.natAbs base.den.toInt.natAbs ∧
      powerExact base (-63#64) = none ∧ powerExact base 63#64 ≠ none ∧
      powerExact base 63#64 = powerByProducts base 63#64 := by
  intro base
  have hden : 0 < base.den.toInt := by decide
  have hcoprime : Nat.Coprime base.num.toInt.natAbs base.den.toInt.natAbs := by decide
  have hnegative := powerExact_eq_powerByProducts hden hcoprime (-63#64)
  have hpositive := powerExact_eq_powerByProducts hden hcoprime 63#64
  refine ⟨hden, hcoprime, hnegative.2.1.2 ?_, hpositive.2.1.not.2 ?_, hpositive.1 (by decide)⟩
  · decide +kernel
  · decide +kernel

end Standard

end Reckoner
