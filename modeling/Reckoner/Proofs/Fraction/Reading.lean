import Mathlib.Algebra.Order.Floor.Semifield
import Mathlib.Data.Rat.Floor
import Mathlib.Tactic.FieldSimp
import Reckoner.Proofs.Fraction.LongDivision
import Reckoner.Proofs.Fraction.Normalize
import Reckoner.Proofs.Token.Glued

/-!
What a decimal reading denotes.

The text of a reading, read back as a numeral, is the fraction truncated toward zero to as many
places as it has digits. A reading is exact if nothing is cut off by this. One that is not was cut
because the digits were spent or because the next remainder does not fit.
-/
namespace Reckoner

namespace Decimal

/-- The rational number that a decimal numeral denotes; the words denote none. -/
def readRat? (text : List Char) : Option ℚ :=
  let (negative, rest) := splitSign text
  match readScaled? rest with
  | some (.scaled digits exponent) =>
    some ((if negative then -1 else 1) * ((digits : ℚ) * 10 ^ exponent))
  | _ => none

/-- The number without what stands behind the given number of decimal places. -/
def truncate (q : ℚ) (places : ℕ) : ℚ :=
  (if q < 0 then -1 else 1) * ((⌊|q| * 10 ^ places⌋₊ : ℚ) / 10 ^ places)

/-! ## Truncation -/

theorem abs_eq_div (q : ℚ) : |q| = (q.num.natAbs : ℚ) / (q.den : ℚ) := by
  conv_lhs => rw [← Rat.num_div_den q]
  rw [abs_div, Nat.abs_cast, ← Int.cast_abs, Int.abs_eq_natAbs, Int.cast_natCast]

theorem floor_abs (q : ℚ) : ⌊|q|⌋₊ = q.num.natAbs / q.den := by
  rw [abs_eq_div, Nat.floor_div_eq_div]

theorem abs_mul_pow_eq_div (q : ℚ) (places : ℕ) :
    |q| * 10 ^ places = ((q.num.natAbs * 10 ^ places : ℕ) : ℚ) / (q.den : ℚ) := by
  rw [abs_eq_div]
  push_cast
  ring

theorem floor_abs_mul_pow (q : ℚ) (places : ℕ) :
    ⌊|q| * 10 ^ places⌋₊ = q.num.natAbs * 10 ^ places / q.den := by
  rw [abs_mul_pow_eq_div, Nat.floor_div_eq_div]

theorem cast_div_eq_div_iff {m d : ℕ} (hd : 0 < d) :
    ((m / d : ℕ) : ℚ) = (m : ℚ) / (d : ℚ) ↔ m % d = 0 := by
  have hne : (d : ℚ) ≠ 0 := by exact_mod_cast hd.ne'
  rw [eq_div_iff hne, ← Nat.cast_mul, Nat.cast_inj, ← Nat.dvd_iff_mod_eq_zero]
  exact (Nat.dvd_iff_div_mul_eq m d).symm

/-- Nothing is cut off exactly if the division by the denominator leaves nothing. -/
theorem truncate_eq_iff (q : ℚ) (places : ℕ) :
    truncate q places = q ↔ q.num.natAbs * 10 ^ places % q.den = 0 := by
  have hten : (10 : ℚ) ^ places ≠ 0 := by positivity
  have hmagnitude : truncate q places = q ↔ (⌊|q| * 10 ^ places⌋₊ : ℚ) / 10 ^ places = |q| := by
    unfold truncate
    split
    next h => rw [abs_of_neg h, neg_one_mul, neg_eq_iff_eq_neg]
    next h => rw [abs_of_nonneg (not_lt.1 h), one_mul]
  rw [hmagnitude, div_eq_iff hten, floor_abs_mul_pow, abs_mul_pow_eq_div]
  exact cast_div_eq_div_iff q.den_pos

/-! ## Numerals with a point -/

theorem readScaled?_point {whole places : List Char} (hwhole : ∀ c ∈ whole, c.isDigit = true)
    (hplaces : ∀ c ∈ places, c.isDigit = true) (hne : whole ≠ []) :
    readScaled? (whole ++ '.' :: places) =
      some (.scaled (ofDigits (whole ++ places)) (-(places.length : ℤ))) := by
  obtain ⟨htake, hdrop⟩ :=
    Token.takeWhile_append_of_digits hwhole ('.' :: places) (by simp)
  obtain ⟨htake', hdrop'⟩ := Token.takeWhile_append_of_digits hplaces [] (by simp)
  rw [List.append_nil] at htake' hdrop'
  unfold readScaled?
  simp [htake, hdrop, htake', hdrop', hne, readExponent?]

theorem isDigit_of_mem_map_digitChar {digits : List ℕ} (h : ∀ x ∈ digits, x < 10) :
    ∀ c ∈ digits.map Nat.digitChar, c.isDigit = true := by
  intro c hc
  obtain ⟨x, hx, rfl⟩ := List.mem_map.1 hc
  rw [Nat.isDigit_digitChar, decide_eq_true (h x hx)]

/-- A sign, a whole part, a point and digits. -/
def pointed (negative : Bool) (whole : ℕ) (digits : List ℕ) : String :=
  (if negative then "-" else "") ++ toString whole ++ "." ++
    String.ofList (digits.map Nat.digitChar)

theorem readRat?_pointed (negative : Bool) (whole : ℕ) {digits : List ℕ}
    (h : ∀ x ∈ digits, x < 10) :
    readRat? (pointed negative whole digits).toList =
      some ((if negative then -1 else 1) *
        ((Nat.ofDigitChars 10 (digits.map Nat.digitChar) whole : ℚ) / 10 ^ digits.length)) := by
  have hdigits := isDigit_of_mem_map_digitChar h
  have hscaled := readScaled?_point (fun c hc => Token.isDigit_of_mem_digits hc) hdigits
    (Token.digits_ne_nil whole)
  have hvalue : ofDigits (Token.digits whole ++ digits.map Nat.digitChar) =
      Nat.ofDigitChars 10 (digits.map Nat.digitChar) whole := by
    rw [ofDigits, Nat.ofDigitChars_append, Nat.ofDigitChars_ten_toDigits]
  have hunsigned : splitSign (Token.digits whole ++ '.' :: digits.map Nat.digitChar) =
      (false, Token.digits whole ++ '.' :: digits.map Nat.digitChar) := by
    refine Token.splitSign_unsigned fun c hc => ?_
    rw [List.head?_append_of_ne_nil _ (Token.digits_ne_nil whole)] at hc
    exact Token.ne_sign (.inl (Token.isDigit_of_mem_digits (List.mem_of_mem_head? hc)))
  have hsplit : splitSign (pointed negative whole digits).toList =
      (negative, Token.digits whole ++ '.' :: digits.map Nat.digitChar) := by
    cases negative with
    | false => simpa [pointed, Nat.toList_repr] using hunsigned
    | true => simp [pointed, splitSign, Nat.toList_repr]
  simp only [readRat?, hsplit, hscaled, hvalue]
  simp [div_eq_mul_inv]

end Decimal

namespace Reading

/--
The reading writes `q` with the given digits behind the point: as much of `q` as so many places can
hold, at most `budget` of them from the first one on that is not zero. If it is not all of `q`, the
budget was spent or the next multiple of the remainder does not fit.
-/
structure Truncates (r : Reading) (q : ℚ) (w budget : ℕ) (digits : List ℕ) : Prop where
  digit_lt : ∀ x ∈ digits, x < 10
  text : r.text = Decimal.pointed (decide (q < 0)) ⌊|q|⌋₊ digits
  denotes : Decimal.readRat? r.text.toList = some (Decimal.truncate q digits.length)
  exact_iff : r.exact = true ↔ Decimal.readRat? r.text.toList = some q
  significant_le : (digits.dropWhile (· == 0)).length ≤ budget
  cut : r.exact = false → (digits.dropWhile (· == 0)).length = budget ∨
    ¬ Word.Fits w (10 * (q.num.natAbs * 10 ^ digits.length % q.den) : ℕ)

end Reading

namespace LongDivision

variable {w m d budget last : ℕ} {digits : List ℕ}

/-- The digits behind the whole part are those of the quotient, cut off. -/
theorem quotient_remainder (h : LongDivision w d budget false (m % d) digits last) (hd : 0 < d) :
    Nat.ofDigitChars 10 (digits.map Nat.digitChar) (m / d) = m * 10 ^ digits.length / d ∧
      last = m * 10 ^ digits.length % d := by
  have hvalue := h.value (Nat.mod_lt _ hd) (m / d)
  rw [Nat.div_add_mod'] at hvalue
  have hlast := h.last_lt (Nat.mod_lt _ hd)
  rw [hvalue, Nat.mul_add_div hd, Nat.mul_add_mod, Nat.div_eq_of_lt hlast, Nat.mod_eq_of_lt hlast]
  exact ⟨rfl, rfl⟩

/-- A text with the digits of a division denotes the number that was divided, cut off, and the
division ends with nothing left exactly if this is the whole number. -/
theorem truncates {q : ℚ} (h : LongDivision w q.den budget false (q.num.natAbs % q.den) digits last) :
    Reading.Truncates
      ⟨Decimal.pointed (decide (q < 0)) (q.num.natAbs / q.den) digits, decide (last = 0)⟩
      q w budget digits := by
  have hless := Nat.mod_lt q.num.natAbs q.den_pos
  obtain ⟨hquotient, hlast⟩ := h.quotient_remainder q.den_pos
  have hdigits := h.digit_lt hless
  have hdenotes : Decimal.readRat?
      (Decimal.pointed (decide (q < 0)) (q.num.natAbs / q.den) digits).toList =
        some (Decimal.truncate q digits.length) := by
    rw [Decimal.readRat?_pointed _ _ hdigits, hquotient, Decimal.truncate,
      Decimal.floor_abs_mul_pow]
    simp only [decide_eq_true_eq]
  refine ⟨hdigits, by rw [Decimal.floor_abs], hdenotes, ?_, h.significant_le hless, ?_⟩
  · rw [hdenotes, Option.some_inj, Decimal.truncate_eq_iff, ← hlast, decide_eq_true_eq]
  · intro hinexact
    have hne : last ≠ 0 := by simpa using hinexact
    rw [← hlast]
    exact (h.stopped hless).resolve_left hne

end LongDivision

namespace Fraction

open Word

variable {w : ℕ} {f : Fraction w} {q : ℚ}

/-- The numerator is its size with the sign of the number. -/
theorem Represents.num_eq (h : Represents f q) :
    f.num.toInt = if q < 0 then -(q.num.natAbs : ℤ) else q.num.natAbs := by
  have hsign : q < 0 ↔ q.num < 0 := Rat.num_neg.symm
  rw [h.num]
  simp only [hsign]
  omega

theorem Represents.divides (h : Represents f q) (hden : 2 ≤ q.den) : Divides f.num f.den := by
  have hd := h.den
  exact divides_of_ne h.den_ne_zero (.inr (by omega))

theorem Represents.toInt_sdiv (h : Represents f q) (hden : 2 ≤ q.den) :
    (f.num.sdiv f.den).toInt =
      if q < 0 then -((q.num.natAbs / q.den : ℕ) : ℤ) else (q.num.natAbs / q.den : ℕ) := by
  rw [toInt_sdiv_of_divides (h.divides hden), h.num_eq, h.den]
  split
  next => rw [Int.neg_tdiv, Int.ofNat_tdiv]
  next => rw [Int.ofNat_tdiv]

theorem Represents.toInt_srem (h : Represents f q) :
    (f.num.srem f.den).toInt =
      if q < 0 then -((q.num.natAbs % q.den : ℕ) : ℤ) else (q.num.natAbs % q.den : ℕ) := by
  rw [BitVec.toInt_srem, h.num_eq, h.den]
  split
  next => rw [Int.neg_tmod, Int.ofNat_tmod]
  next => rw [Int.ofNat_tmod]

/-- Taking the sign off, where the size fits. -/
theorem exists_run_unsigned {negative : Prop} [Decidable negative] {a : BitVec w} {m : ℕ}
    (ha : a.toInt = if negative then -(m : ℤ) else m) (hfits : Word.Fits w m) :
    ∃ b : BitVec w, b.toInt = m ∧
      ∀ s, (if decide negative then Word.opposite a else pure a).run s = (b, s) := by
  by_cases hnegative : negative
  · have hopposite : -a.toInt = m := by simp [ha, hnegative]
    have hfits' : Word.Fits w (-a.toInt) := hopposite ▸ hfits
    refine ⟨-a, (toInt_neg_of_fits hfits').trans hopposite, fun s => ?_⟩
    simpa [hnegative] using run_opposite hfits' s
  · refine ⟨a, by simpa [hnegative] using ha, fun s => ?_⟩
    simp only [hnegative, decide_false, Bool.false_eq_true, if_false]
    exact Checked.run_pure a s

theorem Represents.fits_quotient (h : Represents f q) (hden : 2 ≤ q.den) :
    Word.Fits w (q.num.natAbs / q.den : ℕ) := by
  have hsize : q.num.natAbs / q.den ≤ q.num.natAbs / 2 := Nat.div_le_div_left hden (by decide)
  refine h.fits.1.of_two_mul_le ?_
  rw [Int.natAbs_natCast]
  omega

theorem Represents.fits_remainder (h : Represents f q) :
    Word.Fits w (q.num.natAbs % q.den : ℕ) :=
  h.fits.2.of_le (Nat.mod_lt _ q.den_pos).le

theorem remainder_pos (hden : 2 ≤ q.den) : 0 < q.num.natAbs % q.den := by
  refine Nat.pos_of_ne_zero fun hzero => ?_
  have hone := Nat.Coprime.eq_one_of_dvd q.reduced.symm (Nat.dvd_of_mod_eq_zero hzero)
  omega

theorem Represents.den_le_pow (h : Represents f q) : q.den ≤ 10 ^ w := by
  have hfits := (fits_iff.1 h.fits.2).2
  have hpow : 2 ^ w ≤ 10 ^ w := Nat.pow_le_pow_left (by decide) w
  zify at hpow ⊢
  omega

/-- Digits are written one after the other. -/
theorem join_digits {written : List (BitVec w)} {digits : List ℕ}
    (hwritten : written.map BitVec.toInt = digits.map Int.ofNat) (hdigits : ∀ x ∈ digits, x < 10) :
    String.join (written.map fun a => toString a.toInt) =
      String.ofList (digits.map Nat.digitChar) := by
  have hmap : written.map (fun a => toString a.toInt) =
      digits.map fun x => toString (Int.ofNat x) := by
    simpa only [List.map_map, Function.comp_def] using congrArg (List.map toString) hwritten
  rw [hmap, ← String.toList_inj, String.toList_join, String.toList_ofList]
  clear hwritten hmap
  induction digits with
  | nil => rfl
  | cons x digits ih =>
      obtain ⟨hx, hdigits⟩ := List.forall_mem_cons.1 hdigits
      have htext : (toString (Int.ofNat x)).toList = [x.digitChar] := by
        show x.repr.toList = _
        rw [Nat.toList_repr, Nat.toDigits_of_lt_base hx]
      rw [List.map_cons, List.flatMap_cons, htext, ih hdigits]
      rfl

/-- A fraction that is no whole number is read by a long division, which is given enough steps, and
without any report. -/
theorem exists_run_readDecimal {g : Fraction w} (hten : (10#w).toInt = 10)
    (hnormalize : ∀ s, f.normalize.run s = (g, s)) (hr : Represents g q) (hq : 2 ≤ q.den)
    (budget : ℕ) :
    ∃ digits last, LongDivision w q.den budget false (q.num.natAbs % q.den) digits last ∧
      ∀ s, (f.readDecimal budget).run s =
        (⟨Decimal.pointed (decide (q < 0)) (q.num.natAbs / q.den) digits, decide (last = 0)⟩,
          s) := by
  have hvalid := hr.den_ne_zero
  have hden := hr.den
  have hone : g.den ≠ 1#w := by
    intro hone
    rw [hone, BitVec.toInt_one (width_of_pos hr.den_pos)] at hden
    omega
  have hpos := remainder_pos hq
  have hless := Nat.mod_lt q.num.natAbs q.den_pos
  obtain ⟨digits, last, hdivision⟩ :=
    LongDivision.exists_of_not_begun w q.den budget (q.num.natAbs % q.den)
  have hnegative : g.num.slt 0#w = decide (q < 0) := by
    rw [BitVec.slt_eq_decide, decide_eq_decide, BitVec.toInt_zero, hr.num, Rat.num_neg]
  obtain ⟨whole, hwhole, hrunWhole⟩ :=
    exists_run_unsigned (hr.toInt_sdiv hq) (hr.fits_quotient hq)
  obtain ⟨rest, hrest, hrunRest⟩ := exists_run_unsigned hr.toInt_srem hr.fits_remainder
  obtain ⟨written, m, hwritten, hm, hrun⟩ := exists_run_expand hten hr.den hrest hless hdivision
  have hne : rest ≠ 0#w := by
    rintro rfl
    rw [BitVec.toInt_zero] at hrest
    omega
  have hlength := (hdivision.length_lt hless hpos hr.den_le_pow).le
  have hjoin := join_digits hwritten (hdivision.digit_lt hless)
  refine ⟨digits, last, hdivision, fun s => ?_⟩
  have hlast : decide (m = 0#w) = decide (last = 0) := by
    rw [decide_eq_decide, ← BitVec.toInt_inj, hm, BitVec.toInt_zero]
    norm_cast
  -- The sign is asked for three times, so the cases are split ahead of them all.
  generalize decide (q < 0) = negative at *
  cases negative <;>
    simp only [readDecimal, Checked.run_bind, Checked.run_apart, hnormalize, hvalid, hone,
      Bool.false_eq_true, if_true, if_false, run_quotient (hr.divides hq),
      run_remainder (hr.divides hq), hnegative] at hrunWhole hrunRest ⊢
  all_goals
    simp only [hrunWhole, hrunRest, hne, if_false, Checked.run_bind, hrun _ _ hlength, hjoin, hlast,
      hwhole]
    rfl

/-- With any budget, the reading of a fraction that is no whole number comes to its end without any
report. It denotes the fraction truncated toward zero, and says rightly whether this is all. -/
theorem reading_truncates {f : Fraction 64} (hden : 2 ≤ f.reduced.den.toInt) (budget : ℕ) :
    (∀ s, (f.readDecimal budget).run s = (f.reading budget, s)) ∧
      ∃ digits, digits.length ≤ budget + 18 ∧
        (f.reading budget).Truncates f.toRat 64 budget digits := by
  have hvalid : f.reduced.den ≠ 0#64 := by
    intro hzero
    simp [hzero] at hden
  obtain ⟨hr, hnormalize⟩ := run_normalize_of_valid (by decide) hvalid
  have hq : 2 ≤ f.toRat.den := by
    rw [hr.den] at hden
    exact_mod_cast hden
  obtain ⟨digits, last, hdivision, hrun⟩ :=
    exists_run_readDecimal (by decide) hnormalize hr hq budget
  have hsize : f.toRat.den ≤ 10 ^ 19 := by
    have hfits := (fits_iff.1 hr.fits.2).2
    omega
  have hlength := hdivision.length_lt (Nat.mod_lt _ f.toRat.den_pos) (remainder_pos hq) hsize
  have hreading : f.reading budget = ((f.readDecimal budget).run {}).1 := rfl
  rw [hreading, hrun]
  exact ⟨hrun, digits, Nat.le_of_lt_succ hlength, hdivision.truncates⟩

theorem reading_truncates_neg_one_three_hundredth :
    2 ≤ (reduced (⟨-1, 300⟩ : Fraction 64)).den.toInt ∧
      ∃ digits, digits.length ≤ 4 + 18 ∧
        (reading (⟨-1, 300⟩ : Fraction 64) 4).Truncates (toRat (⟨-1, 300⟩ : Fraction 64)) 64 4
          digits :=
  ⟨by decide +kernel, (reading_truncates (by decide +kernel) 4).2⟩

end Fraction

end Reckoner
