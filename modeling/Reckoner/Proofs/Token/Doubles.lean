import Reckoner.Proofs.Token.Draft

/-!
The texts of doubles.

A finite double is written with digits and at most one point, perhaps after a minus sign. So its text
is a numeral whenever the reader takes it for one, and the part after the minus sign is one too.
-/
namespace Reckoner

namespace Decimal

/-- A digit or the point. -/
def IsDigitOrPoint (c : Char) : Prop :=
  c.isDigit = true ∨ c = '.'

theorem isDigit_of_mem_zeros {n : Nat} {c : Char} (h : c ∈ (zeros n).toList) : c.isDigit = true := by
  rw [zeros, String.toList_ofList] at h
  obtain rfl := (List.mem_replicate.1 h).2
  rfl

theorem isDigit_of_mem_repr {n : Nat} {c : Char} (h : c ∈ (toString n).toList) :
    c.isDigit = true := by
  have htext : (toString n).toList = Token.digits n := Nat.toList_repr
  rw [htext] at h
  exact Token.isDigit_of_mem_digits h

/-- The positional form has digits and at most one point, and begins with a digit. -/
theorem Scaled.toList_positional (d : Scaled) : ∃ c rest, d.positional.toList = c :: rest ∧
    c.isDigit = true ∧ ∀ c ∈ rest, IsDigitOrPoint c := by
  have hne : (toString d.digits).toList ≠ [] := by
    have htext : (toString d.digits).toList = Token.digits d.digits := Nat.toList_repr
    rw [htext]
    exact Token.digits_ne_nil _
  have hdigits : ∀ c ∈ (toString d.digits).toList, c.isDigit = true := fun c => isDigit_of_mem_repr
  unfold positional
  simp only
  generalize (toString d.digits).toList = digits at hne hdigits
  obtain ⟨first, others, rfl⟩ := List.exists_cons_of_ne_nil hne
  have hfirst : first.isDigit = true := hdigits first List.mem_cons_self
  have hothers : ∀ c ∈ others, c.isDigit = true := fun c hc => hdigits c (List.mem_cons_of_mem _ hc)
  split
  · exact ⟨'0', [], rfl, rfl, by simp⟩
  · split
    · refine ⟨first, others ++ (zeros d.exponent.toNat).toList, by simp, hfirst, fun c hc => .inl ?_⟩
      rcases List.mem_append.1 hc with hc | hc
      · exact hothers c hc
      · exact isDigit_of_mem_zeros hc
    · split
      next hplaces =>
        obtain ⟨whole, hwhole⟩ : ∃ whole,
            (first :: others).length - (-d.exponent).toNat = whole + 1 :=
          ⟨(first :: others).length - (-d.exponent).toNat - 1, by omega⟩
        rw [hwhole]
        refine ⟨first, others.take whole ++ '.' :: others.drop whole, by simp, hfirst, ?_⟩
        intro c hc
        rcases List.mem_append.1 hc with hc | hc
        · exact .inl (hothers c (List.mem_of_mem_take hc))
        · rcases List.mem_cons.1 hc with rfl | hc
          · exact .inr rfl
          · exact .inl (hothers c (List.mem_of_mem_drop hc))
      next =>
        refine ⟨'0', '.' :: ((zeros ((-d.exponent).toNat - (first :: others).length)).toList ++
          first :: others), by simp, rfl, ?_⟩
        intro c hc
        rcases List.mem_cons.1 hc with rfl | hc
        · exact .inr rfl
        · rcases List.mem_append.1 hc with hc | hc
          · exact .inl (isDigit_of_mem_zeros hc)
          · exact .inl (hdigits c hc)

end Decimal

/-- The kind is this double, bit by bit. -/
def TokenKind.isTheDouble (k : TokenKind) (x : Float) : Bool :=
  match k with
  | double y => y.toBits == x.toBits
  | _ => false

namespace Token

open Decimal (IsDigitOrPoint)

variable {text : List Char} {x : Float}

/-- The text is read as this double, and with a minus sign before it as the opposite one. -/
structure ReadsBack (x : Float) : Prop where
  kind : kindOf (Decimal.text x).toList = .double x
  opposite : (Decimal.text x).toList.head? ≠ some '-' →
    kindOf ('-' :: (Decimal.text x).toList) = .double (-x)

theorem isTheDouble_iff {k : TokenKind} : k.isTheDouble x = true ↔ k = .double x := by
  unfold TokenKind.isTheDouble
  split
  next y =>
    have hbits : y.toBits = x.toBits ↔ y = x := by
      refine ⟨fun h => ?_, fun h => by rw [h]⟩
      rcases y with ⟨⟨y, hy⟩⟩
      rcases x with ⟨⟨x, hx⟩⟩
      obtain rfl : y = x := h
      rfl
    simp [hbits]
  next h =>
    simp only [Bool.false_eq_true, false_iff]
    exact h x

instance (x : Float) : Decidable (ReadsBack x) :=
  decidable_of_iff ((kindOf (Decimal.text x).toList).isTheDouble x = true ∧
      ((Decimal.text x).toList.head? ≠ some '-' →
        (kindOf ('-' :: (Decimal.text x).toList)).isTheDouble (-x) = true))
    ⟨fun h => ⟨isTheDouble_iff.1 h.1, fun hhead => isTheDouble_iff.1 (h.2 hhead)⟩,
      fun h => ⟨isTheDouble_iff.2 h.kind, fun hhead => isTheDouble_iff.2 (h.opposite hhead)⟩⟩

example : ReadsBack 0.1 := by decide +kernel

example : ¬ ReadsBack 2 := by decide +kernel

/-- The text of a double that is a numeral, with or without a minus sign. -/
theorem exists_body (hdouble : (kindOf (Decimal.text x).toList).isDouble = true) :
    ∃ c rest, c.isDigit = true ∧ (∀ c ∈ rest, IsDigitOrPoint c) ∧
      ((Decimal.text x).toList = c :: rest ∨ (Decimal.text x).toList = '-' :: c :: rest) := by
  have hnumeric := isNumeric_of_isDouble hdouble
  have hsigned : ∀ {negative : Bool} {s : String}, (∀ c ∈ (Decimal.signed negative s).toList,
      IsNumeric c) → ∀ c ∈ s.toList, IsNumeric c := by
    intro negative s h c hc
    cases negative with
    | false => exact h c hc
    | true => exact h c (by simp [Decimal.signed, hc])
  unfold Decimal.text at hnumeric ⊢
  split at hnumeric
  · exact absurd (hnumeric 'N' (by decide)) (by unfold IsNumeric; decide)
  · exact absurd (hsigned hnumeric 'i' (by decide)) (by unfold IsNumeric; decide)
  · next negative m q narrow hshape =>
    obtain ⟨c, rest, hbody, hc, hrest⟩ : ∃ c rest,
        (if m = 0 then "0" else (Decimal.shortest m q narrow).positional).toList = c :: rest ∧
          c.isDigit = true ∧ ∀ c ∈ rest, IsDigitOrPoint c := by
      split
      · exact ⟨'0', [], rfl, rfl, by simp⟩
      · exact Decimal.Scaled.toList_positional _
    refine ⟨c, rest, hc, hrest, ?_⟩
    cases negative with
    | false => exact .inl hbody
    | true => exact .inr (by simp [Decimal.signed, hbody])

theorem isPlain_of_isDigitOrPoint {c : Char} (h : IsDigitOrPoint c) : IsPlain c := by
  rcases h with h | rfl
  · exact isPlain_of_isDigit h
  · exact ⟨rfl, rfl⟩

/-- Without its minus sign a numeral of digits and points is a numeral. -/
theorem isNumber_of_minus {c : Char} {rest : List Char} (hc : c.isDigit = true)
    (hrest : ∀ c ∈ rest, IsDigitOrPoint c) (h : (kindOf ('-' :: c :: rest)).isDouble = true) :
    (kindOf (c :: rest)).isNumber = true := by
  obtain ⟨x, hx⟩ := readDouble?_of_isDouble h
  obtain ⟨m, hm, -⟩ := Option.map_eq_some_iff.1 (readDouble?_eq_some hx).1
  have hnumeric : ∀ d ∈ rest, IsNumeric d := fun d hd => (hrest d hd).imp_right .inl
  exact isNumber_of_readDouble? (readDouble?_unsigned hm hnumeric (.inl hc))

end Token

end Reckoner
