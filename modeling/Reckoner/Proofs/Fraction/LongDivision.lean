import Mathlib.Tactic.Ring
import Reckoner.Fraction.Reading
import Reckoner.Proofs.Word.Checked

/-!
Long division.

The rounds are written down once on natural numbers, with the reasons to stop: nothing is left, the
digits are spent, or ten times the remainder does not fit a word. Every division comes to its end,
since zeros ahead of the first other digit let the remainder grow and every later digit costs one.
The loop on words makes the same rounds.
-/
namespace Reckoner

/--
Dividing the remainder `r` by `d` in words of width `w`, with `budget` digits to spend, writes the
digits and stops at the last remainder. `begun` says whether a digit other than zero has been
written; zeros before that cost nothing.
-/
inductive LongDivision (w d : Nat) :
    (budget : Nat) → (begun : Bool) → (r : Nat) → (digits : List Nat) → (last : Nat) → Prop
  | finished {budget : Nat} {begun : Bool} : LongDivision w d budget begun 0 [] 0
  | spent {begun : Bool} {r : Nat} : LongDivision w d 0 begun r [] r
  | overflow {budget : Nat} {begun : Bool} {r : Nat} (h : ¬ Word.Fits w (10 * r : Nat)) :
      LongDivision w d budget begun r [] r
  | zero {budget r last : Nat} {digits : List Nat} (hr : 0 < r) (hfits : Word.Fits w (10 * r : Nat))
      (hless : 10 * r < d) (hrest : LongDivision w d (budget + 1) false (10 * r) digits last) :
      LongDivision w d (budget + 1) false r (0 :: digits) last
  | digit {budget r last : Nat} {begun : Bool} {digits : List Nat} (hr : 0 < r)
      (hfits : Word.Fits w (10 * r : Nat)) (hbegun : begun = true ∨ d ≤ 10 * r)
      (hrest : LongDivision w d budget true (10 * r % d) digits last) :
      LongDivision w d (budget + 1) begun r (10 * r / d :: digits) last

namespace LongDivision

variable {w d budget r last : Nat} {begun : Bool} {digits : List Nat}

/-! ## Every division ends -/

theorem exists_of_begun (w d budget r : Nat) :
    ∃ digits last, LongDivision w d budget true r digits last := by
  induction budget generalizing r with
  | zero => exact ⟨[], r, .spent⟩
  | succ budget ih =>
      rcases Nat.eq_zero_or_pos r with rfl | hr
      · exact ⟨[], 0, .finished⟩
      · by_cases hfits : Word.Fits w (10 * r : Nat)
        · obtain ⟨digits, last, hrest⟩ := ih (10 * r % d)
          exact ⟨_, last, .digit hr hfits (.inl rfl) hrest⟩
        · exact ⟨[], r, .overflow hfits⟩

/-- Before the first digit other than zero the remainder grows, and stays below the divisor. -/
theorem exists_of_not_begun (w d budget r : Nat) :
    ∃ digits last, LongDivision w d budget false r digits last := by
  rcases budget with _ | budget
  · exact ⟨[], r, .spent⟩
  · rcases Nat.eq_zero_or_pos r with rfl | hr
    · exact ⟨[], 0, .finished⟩
    · by_cases hfits : Word.Fits w (10 * r : Nat)
      · by_cases hless : 10 * r < d
        · obtain ⟨digits, last, hrest⟩ := exists_of_not_begun w d (budget + 1) (10 * r)
          exact ⟨0 :: digits, last, .zero hr hfits hless hrest⟩
        · obtain ⟨digits, last, hrest⟩ := exists_of_begun w d budget (10 * r % d)
          exact ⟨_, last, .digit hr hfits (.inr (Nat.not_lt.1 hless)) hrest⟩
      · exact ⟨[], r, .overflow hfits⟩
termination_by d - r

/-! ## What is written -/

/-- How many digits count: all of them from the first one on that is not zero. -/
def significant (begun : Bool) (digits : List Nat) : Nat :=
  if begun then digits.length else (digits.dropWhile (· == 0)).length

@[simp] theorem significant_nil : significant begun [] = 0 := by
  simp [significant]

theorem significant_zero_cons (digits : List Nat) :
    significant false (0 :: digits) = significant false digits := by
  simp [significant]

theorem significant_cons {x : Nat} (h : begun = true ∨ x ≠ 0) (digits : List Nat) :
    significant begun (x :: digits) = significant true digits + 1 := by
  cases begun with
  | true => rfl
  | false =>
      have hx : x ≠ 0 := by simpa using h
      simp [significant, hx]

theorem div_lt_ten (hr : r < d) : 10 * r / d < 10 :=
  Nat.div_lt_of_lt_mul (by omega)

theorem digit_ne_zero (hr : r < d) (h : d ≤ 10 * r) : 10 * r / d ≠ 0 :=
  (Nat.div_pos h (by omega)).ne'

theorem last_lt (h : LongDivision w d budget begun r digits last) (hr : r < d) : last < d := by
  induction h with
  | finished => exact hr
  | spent => exact hr
  | overflow _ => exact hr
  | zero _ _ hless _ ih => exact ih hless
  | digit _ _ _ _ ih => exact ih (Nat.mod_lt _ (by omega))

theorem digit_lt (h : LongDivision w d budget begun r digits last) (hr : r < d) :
    ∀ x ∈ digits, x < 10 := by
  induction h with
  | finished => simp
  | spent => simp
  | overflow _ => simp
  | zero _ _ hless _ ih => exact List.forall_mem_cons.2 ⟨by decide, ih hless⟩
  | digit _ _ _ _ ih =>
      exact List.forall_mem_cons.2 ⟨div_lt_ten hr, ih (Nat.mod_lt _ (by omega))⟩

/-- The digits behind the whole number `q` are those of the quotient, and the remainder is what they
leave. -/
theorem value (h : LongDivision w d budget begun r digits last) (hr : r < d) (q : Nat) :
    (q * d + r) * 10 ^ digits.length =
      d * Nat.ofDigitChars 10 (digits.map Nat.digitChar) q + last := by
  induction h generalizing q with
  | finished => simp [Nat.mul_comm]
  | spent => simp [Nat.mul_comm]
  | overflow _ => simp [Nat.mul_comm]
  | @zero _ r _ digits _ _ hless _ ih =>
      rw [List.map_cons, Nat.ofDigitChars_cons_digitChar_of_lt_ten (by decide), ← ih hless,
        List.length_cons]
      ring
  | @digit _ r _ _ digits _ _ _ _ ih =>
      have hnext : (10 * q + 10 * r / d) * d + 10 * r % d = 10 * (q * d + r) := by
        have hsplit := Nat.div_add_mod (10 * r) d
        generalize 10 * r / d = x at hsplit ⊢
        generalize 10 * r % d = y at hsplit ⊢
        rw [Nat.mul_add, ← hsplit]
        ring
      rw [List.map_cons, Nat.ofDigitChars_cons_digitChar_of_lt_ten (div_lt_ten hr),
        ← ih (Nat.mod_lt _ (by omega)), hnext, List.length_cons]
      ring

/-- No more digits are spent than there are. -/
theorem significant_le (h : LongDivision w d budget begun r digits last) (hr : r < d) :
    significant begun digits ≤ budget := by
  induction h with
  | finished => simp
  | spent => simp
  | overflow _ => simp
  | zero _ _ hless _ ih =>
      rw [significant_zero_cons]
      exact ih hless
  | digit _ _ hbegun _ ih =>
      rw [significant_cons (hbegun.imp_right (digit_ne_zero hr))]
      exact Nat.succ_le_succ (ih (Nat.mod_lt _ (by omega)))

/-- The reasons to stop. -/
theorem stopped (h : LongDivision w d budget begun r digits last) (hr : r < d) :
    last = 0 ∨ significant begun digits = budget ∨ ¬ Word.Fits w (10 * last : Nat) := by
  induction h with
  | finished => exact .inl rfl
  | spent => exact .inr (.inl significant_nil)
  | overflow hfits => exact .inr (.inr hfits)
  | zero _ _ hless _ ih =>
      rw [significant_zero_cons]
      exact ih hless
  | digit _ _ hbegun _ ih =>
      rw [significant_cons (hbegun.imp_right (digit_ne_zero hr)), Nat.add_right_cancel_iff]
      exact ih (Nat.mod_lt _ (by omega))

/-- The zeros that cost nothing multiply the remainder, which stays below the divisor. -/
theorem exists_zeros (h : LongDivision w d budget begun r digits last) (hr : r < d) :
    ∃ zeros, digits.length = significant begun digits + zeros ∧ r * 10 ^ zeros < d := by
  induction h with
  | finished => exact ⟨0, by simp, by simpa using hr⟩
  | spent => exact ⟨0, by simp, by simpa using hr⟩
  | overflow _ => exact ⟨0, by simp, by simpa using hr⟩
  | @zero _ r _ _ _ _ hless _ ih =>
      obtain ⟨zeros, hlength, hgrown⟩ := ih hless
      refine ⟨zeros + 1, ?_, ?_⟩
      · rw [significant_zero_cons, List.length_cons, hlength, Nat.add_assoc]
      · calc r * 10 ^ (zeros + 1) = 10 * r * 10 ^ zeros := by ring
          _ < d := hgrown
  | digit _ _ hbegun _ _ =>
      refine ⟨0, ?_, by simpa using hr⟩
      rw [significant_cons (hbegun.imp_right (digit_ne_zero hr))]
      rfl

/-- There are fewer digits in all than the budget and the digits of the divisor. -/
theorem length_lt (h : LongDivision w d budget begun r digits last) (hr : r < d) (hpos : 0 < r)
    {places : Nat} (hplaces : d ≤ 10 ^ places) : digits.length < budget + places := by
  obtain ⟨zeros, hlength, hgrown⟩ := h.exists_zeros hr
  have hless : 10 ^ zeros < 10 ^ places :=
    calc 10 ^ zeros ≤ r * 10 ^ zeros := Nat.le_mul_of_pos_left _ hpos
      _ < d := hgrown
      _ ≤ 10 ^ places := hplaces
  have hzeros : zeros < places := (Nat.pow_lt_pow_iff_right (by decide)).1 hless
  have hspent := h.significant_le hr
  omega

end LongDivision

namespace Fraction

open Word

variable {w : Nat} {d n : BitVec w} {divisor budget r last : Nat} {begun : Bool}
  {digits : List Nat}

/-- The product is asked for apart, so that its overflow is not one of the whole. -/
theorem run_apart_mul (a b : BitVec w) (s : Status) :
    (Checked.apart (Word.mul a b)).run s =
      ((a * b, !decide (Word.Fits w (a.toInt * b.toInt))), s) := by
  rw [Checked.run_apart, run_mul]
  simp

/-- A round that writes a digit does so without leaving the width. -/
theorem exists_round (hten : (10#w).toInt = 10) (hd : d.toInt = divisor) (hn : n.toInt = r)
    (hpos : 0 < r) (hr : r < divisor) (hfits : Word.Fits w (10 * r : Nat)) :
    ∃ digit rest : BitVec w, digit.toInt = (10 * r / divisor : Nat) ∧
      rest.toInt = (10 * r % divisor : Nat) ∧
      ∀ steps budget begun s, (expand d (steps + 1) (budget + 1) begun n).run s =
        let begun' := begun || decide (10 * r / divisor ≠ 0)
        let (written, t) :=
          (expand d steps (if begun' then budget else budget + 1) begun' rest).run s
        ((digit :: written.1, written.2), t) := by
  have hne : n ≠ 0#w := by
    rintro rfl
    simp at hn
    omega
  have hmul : n.toInt * (10#w).toInt = (10 * r : Nat) := by
    rw [hn, hten]
    push_cast
    ring
  have hmulFits : Word.Fits w (n.toInt * (10#w).toInt) := hmul ▸ hfits
  have hnext : (n * 10#w).toInt = (10 * r : Nat) := (toInt_mul_of_fits hmulFits).trans hmul
  have hdivides : Divides (n * 10#w) d := by
    refine divides_of_ne ?_ (.inr (by omega))
    rintro rfl
    simp at hd
    omega
  have hdigit : ((n * 10#w).sdiv d).toInt = (10 * r / divisor : Nat) := by
    rw [toInt_sdiv_of_divides hdivides, hnext, hd]
    rfl
  have hquotient : ((n * 10#w).sdiv d).toInt * d.toInt = (10 * r / divisor * divisor : Nat) := by
    rw [hdigit, hd, Int.natCast_mul]
  have hproductFits : Word.Fits w (((n * 10#w).sdiv d).toInt * d.toInt) := by
    rw [hquotient]
    exact hfits.of_le (Nat.div_mul_le_self _ _)
  have hrest : (n * 10#w).toInt - ((n * 10#w).sdiv d * d).toInt = (10 * r % divisor : Nat) := by
    have hsplit := Nat.div_add_mod' (10 * r) divisor
    rw [hnext, toInt_mul_of_fits hproductFits, hquotient]
    omega
  have hrestFits : Word.Fits w ((n * 10#w).toInt - ((n * 10#w).sdiv d * d).toInt) := by
    rw [hrest]
    exact hfits.of_le (Nat.mod_le _ _)
  refine ⟨(n * 10#w).sdiv d, n * 10#w - (n * 10#w).sdiv d * d, hdigit, ?_, ?_⟩
  · rw [toInt_sub_of_fits hrestFits, hrest]
  · intro steps budget begun s
    have hbegun : decide ((n * 10#w).sdiv d ≠ 0#w) = decide (10 * r / divisor ≠ 0) := by
      rw [decide_eq_decide, ne_eq, ← BitVec.toInt_inj, hdigit, BitVec.toInt_zero]
      norm_cast
    simp only [expand, hne, if_false, Checked.run_bind, run_apart_mul, hmulFits, decide_true,
      Bool.not_true, Bool.false_eq_true, run_quotient hdivides, run_product hproductFits,
      run_difference hrestFits, Checked.run_pure, hbegun]
    rfl

/-- A loop that has stopped gives the remainder, with any number of steps. -/
theorem run_expand_stopped (h : budget = 0 ∨ n = 0#w ∨ ¬ Word.Fits w (n.toInt * (10#w).toInt))
    (steps : Nat) (s : Status) : (expand d steps budget begun n).run s = (([], n), s) := by
  rcases steps with _ | steps
  · rfl
  · rcases budget with _ | budget
    · rfl
    · rcases h with h | h | h
      · cases h
      · simp only [expand, h, if_true, Checked.run_pure]
      · by_cases hzero : n = 0#w
        · simp only [expand, hzero, if_true, Checked.run_pure]
        · simp only [expand, hzero, if_false, Checked.run_bind, run_apart_mul, h, decide_false,
            Bool.not_false, if_true, Checked.run_pure]

/-- The loop on words makes the rounds of the division, with any number of steps that is enough for
the digits. -/
theorem exists_run_expand (hten : (10#w).toInt = 10) (hd : d.toInt = divisor)
    (hn : n.toInt = r) (hr : r < divisor) (h : LongDivision w divisor budget begun r digits last) :
    ∃ (written : List (BitVec w)) (rest : BitVec w),
      written.map BitVec.toInt = digits.map Int.ofNat ∧ rest.toInt = last ∧
      ∀ steps s, digits.length ≤ steps →
        (expand d steps budget begun n).run s = ((written, rest), s) := by
  induction h generalizing n with
  | finished =>
      have hzero : n = 0#w := BitVec.eq_of_toInt_eq (by simpa using hn)
      exact ⟨[], n, rfl, hn, fun steps s _ => run_expand_stopped (.inr (.inl hzero)) steps s⟩
  | spent => exact ⟨[], n, rfl, hn, fun steps s _ => run_expand_stopped (.inl rfl) steps s⟩
  | overflow hfits =>
      have hmul : ¬ Word.Fits w (n.toInt * (10#w).toInt) := by
        rwa [hn, hten, Int.mul_comm]
      exact ⟨[], n, rfl, hn, fun steps s _ => run_expand_stopped (.inr (.inr hmul)) steps s⟩
  | zero hpos hfits hless _ ih =>
      obtain ⟨digit, rest, hdigit, hrest, hround⟩ := exists_round hten hd hn hpos hr hfits
      rw [Nat.mod_eq_of_lt hless] at hrest
      rw [Nat.div_eq_of_lt hless] at hdigit
      obtain ⟨written, m, hwritten, hm, hrun⟩ := ih hrest hless
      refine ⟨digit :: written, m, by simp [hdigit, hwritten], hm, fun steps s hsteps => ?_⟩
      obtain ⟨k, rfl⟩ : ∃ k, steps = k + 1 :=
        Nat.exists_eq_add_one.2 (Nat.lt_of_lt_of_le (Nat.succ_pos _) hsteps)
      rw [hround, Nat.div_eq_of_lt hless]
      simp [hrun k s (by simpa using hsteps)]
  | @digit budget r last begun digits hpos hfits hbegun _ ih =>
      obtain ⟨digit, rest, hdigit, hrest, hround⟩ := exists_round hten hd hn hpos hr hfits
      obtain ⟨written, m, hwritten, hm, hrun⟩ := ih hrest (Nat.mod_lt _ (by omega))
      have hnow : (begun || decide (10 * r / divisor ≠ 0)) = true := by
        rw [Bool.or_eq_true, decide_eq_true_eq]
        exact hbegun.imp_right (LongDivision.digit_ne_zero hr)
      refine ⟨digit :: written, m, by simp [hdigit, hwritten], hm, fun steps s hsteps => ?_⟩
      obtain ⟨k, rfl⟩ : ∃ k, steps = k + 1 :=
        Nat.exists_eq_add_one.2 (Nat.lt_of_lt_of_le (Nat.succ_pos _) hsteps)
      simp only [hround, hnow, if_true, hrun k s (by simpa using hsteps)]

end Fraction

end Reckoner
