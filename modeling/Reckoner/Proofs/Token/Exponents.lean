import Reckoner.Proofs.Token.Coefficients
import Reckoner.Proofs.Token.Gaps

/-!
A number with an exponent directly before a name.

The exponent is read with the run that it stands in. A sign ends that run, and only a run that is a
whole number is put together with what stands before the sign. So a name glued to an exponent is cut
off from it if the exponent has no sign; behind a sign it parts the digits from their mantissa.
-/
namespace Reckoner

namespace Token

variable {mantissa sign digits name run : List Char}

/-- What characters stand for, and their text. -/
def spelling (text : List Char) : TokenKind × String :=
  (kindOf text, String.ofList text)

/-! ## The numeral -/

/-- A letter and digits, perhaps with a sign between them, are read as an exponent. -/
theorem exists_readExponent? (hsign : sign = [] ∨ sign = ['+'] ∨ sign = ['-']) (hne : digits ≠ [])
    (hdigits : ∀ c ∈ digits, c.isDigit = true) :
    ∃ n, Decimal.readExponent? ('e' :: (sign ++ digits)) = some n := by
  have hall : digits.all Char.isDigit = true := List.all_eq_true.2 hdigits
  have hunsigned : Decimal.splitSign digits = (false, digits) :=
    splitSign_unsigned fun c hc => ne_sign (.inl (hdigits c (List.mem_of_mem_head? hc)))
  rcases hsign with rfl | rfl | rfl
  · simp [Decimal.readExponent?, Decimal.readInt?, hunsigned, hall, hne]
  · simp [Decimal.readExponent?, Decimal.readInt?, Decimal.splitSign, hall, hne]
  · simp [Decimal.readExponent?, Decimal.readInt?, Decimal.splitSign, hall, hne]

/-- A mantissa and an exponent are a double. -/
theorem isDouble_exponential (hmantissa : IsMantissa mantissa)
    (hsign : sign = [] ∨ sign = ['+'] ∨ sign = ['-']) (hne : digits ≠ [])
    (hdigits : ∀ c ∈ digits, c.isDigit = true) :
    (kindOf (mantissa ++ 'e' :: (sign ++ digits))).isDouble = true := by
  have hexponent : ∀ c ∈ ('e' :: (sign ++ digits)).head?, c.isDigit = false ∧ c ≠ '.' := by simp
  have hnumeric : ∀ c ∈ 'e' :: (sign ++ digits), IsNumeric c := by
    intro c hc
    rcases List.mem_cons.1 hc with rfl | hc
    · simp [IsNumeric]
    · rcases List.mem_append.1 hc with hc | hc
      · rcases hsign with rfl | rfl | rfl <;> simp_all [IsNumeric]
      · exact .inl (hdigits c hc)
  obtain ⟨n, hn⟩ := exists_readExponent? hsign hne hdigits
  obtain ⟨f, hf⟩ := readScaled?_append hmantissa hexponent
  have hmagnitude := hmantissa.readMagnitude?_append ('e' :: (sign ++ digits))
  rw [hf, hn, Option.map_some] at hmagnitude
  obtain ⟨first, rest, rfl⟩ := List.exists_cons_of_ne_nil hmantissa.ne_nil
  have hfirst := hmantissa.digit_or_point first List.mem_cons_self
  have hmem : 'e' ∈ first :: rest ++ 'e' :: (sign ++ digits) := by simp
  obtain ⟨hint, -⟩ := readInt?_eq_none hmem rfl (by simpa using hfirst)
  refine isDouble_of_readDouble? (readDouble?_unsigned hmagnitude (fun d hd => ?_) hfirst) hint
  rcases List.mem_append.1 hd with hd | hd
  · exact (hmantissa.digit_or_point d (.tail _ hd)).imp_right .inl
  · exact hnumeric d hd

/-! ## The run without a sign -/

/-- Digits with a name behind them are no exponent. -/
theorem readExponent?_append_word (hdigits : ∀ c ∈ digits, c.isDigit = true) (hname : IsWord name) :
    Decimal.readExponent? ('e' :: (digits ++ name)) = none := by
  obtain ⟨c, rest, rfl, hc, -⟩ := hname.exists_cons
  have hall : (digits ++ c :: rest).all Char.isDigit = false := by
    rw [List.all_eq_false]
    exact ⟨c, by simp, by simp [isDigit_of_isAlpha hc]⟩
  have hhead : ∀ d ∈ (digits ++ c :: rest).head?, d ≠ '+' ∧ d ≠ '-' := by
    cases digits with
    | nil =>
        rintro d ⟨⟩
        constructor <;> rintro rfl <;> cases hc
    | cons first digits =>
        rintro d ⟨⟩
        exact ne_sign (.inl (hdigits first List.mem_cons_self))
  simp [Decimal.readExponent?, Decimal.readInt?, splitSign_unsigned hhead, hall]

/-- The run is cut behind the digits of the exponent. -/
theorem splitNumeral?_exponential (hmantissa : IsMantissa mantissa) (hne : digits ≠ [])
    (hdigits : ∀ c ∈ digits, c.isDigit = true) (hname : IsWord name) :
    splitNumeral? (mantissa ++ 'e' :: digits ++ name) = some (mantissa ++ 'e' :: digits, name) := by
  obtain ⟨c, rest, rfl, hc, -⟩ := hname.exists_cons
  have hdot : (c == '.') = false := by
    rw [beq_eq_false_iff_ne]
    rintro rfl
    cases hc
  obtain ⟨point, hbegin⟩ := scanNumeral_mantissa hmantissa ('e' :: (digits ++ c :: rest))
  have hletter : scanNumeral mantissa true point false ('e' :: (digits ++ c :: rest)) =
      scanNumeral (mantissa ++ ['e']) false point true (digits ++ c :: rest) := by
    simp [scanNumeral]
  have hend : scanNumeral (mantissa ++ ['e']) false point true (digits ++ c :: rest) =
      ⟨mantissa ++ 'e' :: digits, c :: rest, true, true⟩ := by
    rw [scanNumeral_digits _ _ _ _ hdigits]
    simp [scanNumeral, isDigit_of_isAlpha hc, hdot, hne]
  have hscan : scanNumeral [] false false false (mantissa ++ 'e' :: digits ++ c :: rest) =
      ⟨mantissa ++ 'e' :: digits, c :: rest, true, true⟩ := by
    rw [List.append_assoc, List.cons_append, hbegin, hletter, hend]
  unfold splitNumeral?
  rw [hscan]
  rfl

theorem plain_exponential (hmantissa : IsMantissa mantissa)
    (hdigits : ∀ c ∈ digits, c.isDigit = true) (hname : IsWord name) :
    ∀ c ∈ mantissa ++ 'e' :: digits ++ name, IsPlain c := by
  intro c hc
  simp only [List.append_assoc, List.cons_append, List.mem_append, List.mem_cons] at hc
  rcases hc with hc | rfl | hc | hc
  · exact hmantissa.plain c hc
  · exact ⟨rfl, rfl⟩
  · exact isPlain_of_isDigit (hdigits c hc)
  · exact hname.plain c hc

/-- A name that is a numeral with something behind it is entered as two tokens. -/
theorem ofRun_split {run numeral rest : List Char} (hident : (kindOf run).isIdent = true)
    (hsplit : splitNumeral? run = some (numeral, rest)) (position : Nat) :
    ofRun run position = [classify numeral position,
      classify rest (position + (String.ofList numeral).utf8ByteSize)] := by
  rw [ofRun, if_pos hident, hsplit]

theorem isIdent_exponential (hmantissa : IsMantissa mantissa)
    (hdigits : ∀ c ∈ digits, c.isDigit = true) (hname : IsWord name) :
    (kindOf (mantissa ++ 'e' :: digits ++ name)).isIdent = true := by
  refine isIdent_of_plain (plain_exponential hmantissa hdigits hname) ?_
  rw [List.append_assoc, List.cons_append]
  exact not_isNumber_append hmantissa (by simp) (readExponent?_append_word hdigits hname)

/-- The tokens of a number glued to a name, unless the name is mistaken for an exponent. -/
theorem ofRun_coefficient {numeral : List Char} (hnumeral : IsMantissa numeral)
    (hname : IsWord name) (hnot : ¬ LooksExponential name) (position : Nat) :
    (kindOf (numeral ++ name)).isIdent = true ∧
      ofRun (numeral ++ name) position = [classify numeral position,
        classify name (position + (String.ofList numeral).utf8ByteSize)] := by
  have hident : (kindOf (numeral ++ name)).isIdent = true := by
    rw [kindOf_coefficient hnumeral hname]
    rfl
  have hsplit := splitNumeral?_coefficient hnumeral hname
  rw [if_neg hnot] at hsplit
  exact ⟨hident, ofRun_split hident hsplit position⟩

/-! ## The tokens of the text -/

theorem IsWord.opensNegation (h : IsWord name) : (kindOf name).opensNegation = false := by
  rw [h.kind]
  rfl

/-- A name that ends a text adds its tokens to those of the text before it. -/
theorem drafted_append_run {before : List Char} {draft : Draft} {position : Nat}
    (hbefore : Moves before (.after [] 0) (.after draft position)) (hne : run ≠ [])
    (hplain : ∀ c ∈ run, IsPlain c) (hident : (kindOf run).isIdent = true) :
    drafted (String.ofList (before ++ run)) = gapless draft ++ ofRun run position := by
  obtain ⟨final, hrun⟩ := moves_plain hplain (.after draft position)
  have hmoves := hbefore.append hrun
  rw [← String.toList_ofList (l := before ++ run)] at hmoves
  rw [drafted_eq_of_moves hmoves, Cursor.closed_of_ne_nil (by simpa [Cursor.after] using hne)]
  simp only [Cursor.after, List.nil_append]
  rw [enter_of_isIdent hident, gapless_append]

/-- The tokens of a text that is two names with a symbol between them. -/
theorem drafted_symbol {c : Char} {second : List Char} (hne : run ≠ [])
    (hplain : ∀ c ∈ run, IsPlain c) (hident : (kindOf run).isIdent = true) (hc : isSymbol c = true)
    (hne' : second ≠ []) (hplain' : ∀ c ∈ second, IsPlain c)
    (hident' : (kindOf second).isIdent = true) :
    ∃ p q, drafted (String.ofList (run ++ [c] ++ second)) =
      ofRun run 0 ++ [classify [c] p] ++ ofRun second q := by
  obtain ⟨p, hfirst⟩ := moves_plain hplain (.after [] 0)
  have hdrafted := drafted_append_run (hfirst.append (moves_symbol hc _)) hne' hplain' hident'
  rw [gapless_cons, Cursor.closed_of_ne_nil (by simpa [Cursor.after] using hne)] at hdrafted
  simp only [Cursor.after, List.nil_append] at hdrafted
  rw [enter_of_isIdent hident, gapless_append] at hdrafted
  exact ⟨_, _, hdrafted⟩

/-- Without a sign the exponent stays with its mantissa. -/
theorem scan_unsigned (hmantissa : IsMantissa mantissa) (hne : digits ≠ [])
    (hdigits : ∀ c ∈ digits, c.isDigit = true) (hname : IsWord name) :
    (scan (String.ofList (mantissa ++ 'e' :: digits ++ name))).map content =
      [spelling (mantissa ++ 'e' :: digits), spelling name] := by
  have hident := isIdent_exponential hmantissa hdigits hname
  have hplain := plain_exponential hmantissa hdigits hname
  have hstart : Moves [] (.after [] 0) (.after [] 0) := fun rest => rfl
  have hdrafted := drafted_append_run hstart (by simp) hplain hident
  rw [List.nil_append,
    ofRun_split hident (splitNumeral?_exponential hmantissa hne hdigits hname)] at hdrafted
  have hdouble : (kindOf (mantissa ++ 'e' :: ([] ++ digits))).isDouble = true :=
    isDouble_exponential hmantissa (.inl rfl) hne hdigits
  have hnumber := not_opensNegation_of_isNumber (isNumber_of_isDouble hdouble)
  have hscan := Settles.scan_eq
    (.operand hnumber (.operand hname.opensNegation .nil)) hdrafted (Nat.le_refl 2)
  rw [hscan]
  rfl

/-- A sign ends the run of the mantissa, and the digits behind it are cut off from the name without
the mantissa. -/
theorem scan_signed {c : Char} (hmantissa : IsMantissa mantissa) (hc : isSymbol c = true)
    (hne : digits ≠ []) (hdigits : ∀ c ∈ digits, c.isDigit = true) (hname : IsWord name)
    (hnot : ¬ LooksExponential name) :
    (scan (String.ofList (mantissa ++ ['e'] ++ [c] ++ (digits ++ name)))).map content =
      [mantissa, ['e'], [c], digits, name].map spelling := by
  have hletter : IsWord ['e'] := by decide
  have hexponent : IsMantissa digits := ⟨digits, [], hdigits, by simp, .inl ⟨rfl, hne⟩⟩
  have hbefore := ofRun_coefficient hmantissa hletter (by decide)
  have hbehind := ofRun_coefficient hexponent hname hnot
  obtain ⟨p, q, hdrafted⟩ := drafted_symbol (by simp) (plain_coefficient hmantissa hletter)
    (hbefore 0).1 hc (by simp [hne]) (plain_coefficient hexponent hname) (hbehind 0).1
  rw [(hbefore 0).2, (hbehind q).2] at hdrafted
  have hmantissaKind := not_opensNegation_of_isNumber hmantissa.isNumber
  have hdigitsKind := not_opensNegation_of_isNumber hexponent.isNumber
  -- The sign is behind a name, so it has a left operand and stays what it is.
  have hscan := Settles.scan_eq
    (.operand hmantissaKind <| .operand hletter.opensNegation <|
      .keep (fun _ => rfl) (isNegate_kindOf [c]) <|
      .operand hdigitsKind <| .operand hname.opensNegation .nil) hdrafted (by simp)
  rw [hscan]
  rfl

/-- A number with an exponent, glued to a name, is cut off from the name if the exponent has no
sign. With a sign the letter is a name between the mantissa and the sign, and the digits of the
exponent are a number of their own. -/
theorem content_scan_exponential (hmantissa : IsMantissa mantissa)
    (hsign : sign = [] ∨ sign = ['+'] ∨ sign = ['-']) (hne : digits ≠ [])
    (hdigits : ∀ c ∈ digits, c.isDigit = true) (hname : IsWord name)
    (hnot : ¬ LooksExponential name) :
    (kindOf (mantissa ++ 'e' :: (sign ++ digits))).isDouble = true ∧
      kindOf name = .ident (String.ofList name) ∧
      (scan (String.ofList (mantissa ++ 'e' :: (sign ++ digits) ++ name))).map content =
        (if sign = [] then [mantissa ++ 'e' :: digits, name]
          else [mantissa, ['e'], sign, digits, name]).map spelling := by
  refine ⟨isDouble_exponential hmantissa hsign hne hdigits, hname.kind, ?_⟩
  have hsigned : ∀ c, isSymbol c = true →
      (scan (String.ofList (mantissa ++ 'e' :: ([c] ++ digits) ++ name))).map content =
        [mantissa, ['e'], [c], digits, name].map spelling := by
    intro c hc
    rw [← scan_signed hmantissa hc hne hdigits hname hnot]
    simp only [List.append_assoc, List.cons_append, List.nil_append]
  rcases hsign with rfl | rfl | rfl
  · exact scan_unsigned hmantissa hne hdigits hname
  · exact hsigned '+' rfl
  · exact hsigned '-' rfl

/-- An exponent without a sign, and one with a sign. -/
theorem content_scan_two_thousand :
    IsMantissa ['2'] ∧ IsWord ['x'] ∧ ¬ LooksExponential ['x'] ∧
      (scan "2e3x").map content = [spelling "2e3".toList, spelling ['x']] ∧
      (scan "2e-3x").map content =
        [spelling ['2'], spelling ['e'], spelling ['-'], spelling ['3'], spelling ['x']] := by
  have hmantissa : IsMantissa ['2'] :=
    ⟨['2'], [], by simp [Char.isDigit], by simp, .inl ⟨rfl, by simp⟩⟩
  have hname : IsWord ['x'] := by decide
  have hnot : ¬ LooksExponential ['x'] := by decide
  have hscan := fun sign hsign => (@content_scan_exponential ['2'] sign ['3'] ['x'] hmantissa hsign
    (by simp) (by simp [Char.isDigit]) hname hnot).2.2
  exact ⟨hmantissa, hname, hnot, hscan [] (.inl rfl), hscan ['-'] (.inr (.inr rfl))⟩

/-- `2e-3x` is five tokens, so a name is not always cut off from the exponent before it. -/
theorem not_cut_signed :
    (scan "2e-3x").map Token.text = ["2", "e", "-", "3", "x"] ∧
      ¬ ∀ whole sign digits name : List Char, whole ≠ [] → (∀ c ∈ whole, c.isDigit = true) →
        (sign = [] ∨ sign = ['+'] ∨ sign = ['-']) → digits ≠ [] →
        (∀ c ∈ digits, c.isDigit = true) → IsWord name →
        (∀ c ∈ name.head?, c ≠ 'e' ∧ c ≠ 'E') →
        (scan (String.ofList (whole ++ 'e' :: (sign ++ digits) ++ name))).map Token.text =
          [String.ofList (whole ++ 'e' :: (sign ++ digits)), String.ofList name] := by
  have hfive : (scan "2e-3x").map Token.text = ["2", "e", "-", "3", "x"] := by decide +kernel
  refine ⟨hfive, fun h => ?_⟩
  have htwo := h ['2'] ['-'] ['3'] ['x'] (by simp) (by simp [Char.isDigit]) (.inr (.inr rfl))
    (by simp) (by simp [Char.isDigit]) (by decide) (by simp)
  rw [show String.ofList (['2'] ++ 'e' :: (['-'] ++ ['3']) ++ ['x']) = "2e-3x" from rfl,
    hfive] at htwo
  exact absurd (congrArg List.length htwo) (by simp)

end Token

end Reckoner
