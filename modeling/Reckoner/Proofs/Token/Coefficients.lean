import Reckoner.Proofs.Token.Draft

/-!
A number directly before a name.

A run that a numeral and a name make up is cut between the two, so that a product with an unwritten
sign can be read. A name that begins with the letter `e` and goes on after it is not told from an
exponent without digits, and with such a name the whole run is one name.
-/
namespace Reckoner

namespace Token

/-- Letters of the alphabet, at least one. -/
structure IsWord (name : List Char) : Prop where
  ne_nil : name ≠ []
  letters : ∀ c ∈ name, c.isAlpha = true

instance (name : List Char) : Decidable (IsWord name) :=
  decidable_of_iff (name ≠ [] ∧ name.all Char.isAlpha = true)
    ⟨fun h => ⟨h.1, List.all_eq_true.1 h.2⟩, fun h => ⟨h.ne_nil, List.all_eq_true.2 h.letters⟩⟩

/-- The name begins with the letter of an exponent and goes on after it. -/
def LooksExponential (name : List Char) : Prop :=
  name.head? = some 'e' ∧ name ≠ ['e']

instance (name : List Char) : Decidable (LooksExponential name) :=
  inferInstanceAs (Decidable (_ ∧ _))

variable {numeral name text : List Char}

/-! ## Letters -/

theorem isDigit_of_isAlpha {c : Char} (h : c.isAlpha = true) : c.isDigit = false := by
  unfold Char.isAlpha Char.isUpper Char.isLower at h
  grind [Char.isDigit]

theorem isPlain_of_isAlpha {c : Char} (h : c.isAlpha = true) : IsPlain c := by
  constructor
  · refine Bool.eq_false_iff.2 fun hblank => ?_
    simp only [isBlank, Bool.or_eq_true, beq_iff_eq] at hblank
    rcases hblank with ((rfl | rfl) | rfl) | rfl <;> cases h
  · refine Bool.eq_false_iff.2 fun hsymbol => ?_
    simp only [isSymbol, Bool.or_eq_true, beq_iff_eq] at hsymbol
    rcases hsymbol with (((((((rfl | rfl) | rfl) | rfl) | rfl) | rfl) | rfl) | rfl) | rfl <;> cases h

theorem IsWord.exists_cons (h : IsWord name) : ∃ c rest, name = c :: rest ∧ c.isAlpha = true ∧
    ∀ d ∈ rest, d.isAlpha = true := by
  obtain ⟨c, rest, rfl⟩ := List.exists_cons_of_ne_nil h.ne_nil
  exact ⟨c, rest, rfl, List.forall_mem_cons.1 h.letters⟩

theorem IsWord.plain (h : IsWord name) : ∀ c ∈ name, IsPlain c :=
  fun c hc => isPlain_of_isAlpha (h.letters c hc)

/-! ## What the parts stand for -/

/-- A word is a name. -/
theorem IsWord.kind (h : IsWord name) : kindOf name = .ident (String.ofList name) := by
  obtain ⟨c, rest, rfl, hc, -⟩ := h.exists_cons
  have hdigit := isDigit_of_isAlpha hc
  have hsign : c ≠ '+' ∧ c ≠ '-' ∧ c ≠ '.' := by
    refine ⟨?_, ?_, ?_⟩ <;> rintro rfl <;> cases hc
  have hsplit : Decimal.splitSign (c :: rest) = (false, c :: rest) :=
    splitSign_unsigned (by simpa using ⟨hsign.1, hsign.2.1⟩)
  have hint : Decimal.readInt? (c :: rest) = none := by
    simp [Decimal.readInt?, hsplit, hdigit]
  have hdouble : readDouble? (c :: rest) = none := by
    simp [readDouble?, hdigit, hsign.1, hsign.2.1, hsign.2.2]
  exact kindOf_of_isIdent (isIdent_of_plain h.plain (not_isNumber_of_readers hint hdouble))

/-- A mantissa is a number. -/
theorem IsMantissa.isNumber (h : IsMantissa numeral) : (kindOf numeral).isNumber = true := by
  obtain ⟨m, hm⟩ := readMagnitude?_of_mantissa h (.inl rfl : IsExponent [])
  rw [List.append_nil] at hm
  obtain ⟨c, rest, rfl⟩ := List.exists_cons_of_ne_nil h.ne_nil
  have hc := h.digit_or_point c List.mem_cons_self
  have hnumeric : ∀ d ∈ rest, IsNumeric d :=
    fun d hd => (h.digit_or_point d (List.mem_cons_of_mem _ hd)).imp_right .inl
  exact isNumber_of_readDouble? (readDouble?_unsigned hm hnumeric hc)

theorem readExponent?_word (h : IsWord name) : Decimal.readExponent? name = none := by
  obtain ⟨c, rest, rfl, -, hrest⟩ := h.exists_cons
  rw [Decimal.readExponent?]
  split
  · cases rest with
    | nil => rfl
    | cons d rest =>
        have hd := hrest d List.mem_cons_self
        have hsign : d ≠ '+' ∧ d ≠ '-' := by
          constructor <;> rintro rfl <;> cases hd
        have hsplit : Decimal.splitSign (d :: rest) = (false, d :: rest) :=
          splitSign_unsigned (by simpa using hsign)
        simp [Decimal.readInt?, hsplit, isDigit_of_isAlpha hd]
  · rfl

/-- A mantissa is no number together with something that is no exponent. -/
theorem not_isNumber_append (hnumeral : IsMantissa numeral)
    (htail : ∀ c ∈ text.head?, c.isDigit = false ∧ c ≠ '.')
    (hexponent : Decimal.readExponent? text = none) :
    (kindOf (numeral ++ text)).isNumber = false := by
  have hint : Decimal.readInt? (numeral ++ text) = none := by
    obtain ⟨c, rest, rfl⟩ : ∃ c rest, text = c :: rest := by
      refine List.exists_cons_of_ne_nil ?_
      rintro rfl
      cases hexponent
    have hall : (numeral ++ c :: rest).all Char.isDigit = false := by
      rw [List.all_eq_false]
      exact ⟨c, by simp, by simp [(htail c rfl).1]⟩
    simp only [Decimal.readInt?, hnumeral.splitSign, hall, Bool.and_false, Bool.false_eq_true,
      if_false]
  obtain ⟨f, hf⟩ := readScaled?_append hnumeral htail
  have hmagnitude : Decimal.readMagnitude? (numeral ++ text) = none := by
    rw [hnumeral.readMagnitude?_append, hf, hexponent, Option.map_none]
  refine not_isNumber_of_readers hint ?_
  simp [readDouble?, Decimal.readFloat?, hnumeral.splitSign, hmagnitude]

/-- A mantissa and a word are no number together. -/
theorem not_isNumber_coefficient (hnumeral : IsMantissa numeral) (hname : IsWord name) :
    (kindOf (numeral ++ name)).isNumber = false := by
  obtain ⟨c, rest, hcons, hc, -⟩ := hname.exists_cons
  refine not_isNumber_append hnumeral ?_ (readExponent?_word hname)
  rw [hcons]
  rintro d ⟨⟩
  exact ⟨isDigit_of_isAlpha hc, by rintro rfl; cases hc⟩

theorem plain_coefficient (hnumeral : IsMantissa numeral) (hname : IsWord name) :
    ∀ c ∈ numeral ++ name, IsPlain c := by
  intro c hc
  rcases List.mem_append.1 hc with hc | hc
  · exact hnumeral.plain c hc
  · exact hname.plain c hc

theorem kindOf_coefficient (hnumeral : IsMantissa numeral) (hname : IsWord name) :
    kindOf (numeral ++ name) = .ident (String.ofList (numeral ++ name)) :=
  kindOf_of_isIdent (isIdent_of_plain (plain_coefficient hnumeral hname)
    (not_isNumber_coefficient hnumeral hname))

/-! ## Where the run is cut -/

/-- A mantissa is read to its end, whatever follows it. -/
theorem scanNumeral_mantissa (h : IsMantissa numeral) (rest : List Char) :
    ∃ point, scanNumeral [] false false false (numeral ++ rest) =
      scanNumeral numeral true point false rest := by
  obtain ⟨whole, places, hwhole, hplaces, ⟨rfl, hne⟩ | ⟨rfl, hne⟩⟩ := h
  · refine ⟨false, ?_⟩
    rw [scanNumeral_digits _ _ _ _ hwhole]
    simp [hne]
  · refine ⟨true, ?_⟩
    have hpoint : ∀ before digit tail, scanNumeral before digit false false ('.' :: tail) =
        scanNumeral (before ++ ['.']) digit true false tail := by
      intro before digit tail
      simp [scanNumeral]
    have hdigit : (false || decide (whole ≠ []) || decide (places ≠ [])) = true := by
      simpa using hne
    rw [List.append_assoc, List.cons_append, scanNumeral_digits _ _ _ _ hwhole, hpoint,
      scanNumeral_digits _ _ _ _ hplaces, hdigit]
    simp

/-- A run of a mantissa and a word is cut between them, unless the word is mistaken for an
exponent. -/
theorem splitNumeral?_coefficient (hnumeral : IsMantissa numeral) (hname : IsWord name) :
    splitNumeral? (numeral ++ name) =
      if LooksExponential name then none else some (numeral, name) := by
  obtain ⟨c, rest, rfl, hc, hrest⟩ := hname.exists_cons
  obtain ⟨point, hscan⟩ := scanNumeral_mantissa hnumeral (c :: rest)
  have hdigit := isDigit_of_isAlpha hc
  have hdot : (c == '.') = false := by
    rw [beq_eq_false_iff_ne]
    rintro rfl
    cases hc
  unfold splitNumeral?
  simp only [hscan]
  by_cases hletter : c = 'e'
  · subst hletter
    cases rest with
    | nil => simp [LooksExponential, scanNumeral]
    | cons d rest =>
        have hd := isDigit_of_isAlpha (hrest d List.mem_cons_self)
        simp [LooksExponential, scanNumeral, hd]
  · simp [LooksExponential, scanNumeral, hdigit, hdot, hletter]

/-! ## The tokens of the run -/

/-- A text that is one run is entered as one piece. -/
theorem scan_run (hne : text ≠ []) (hplain : ∀ c ∈ text, IsPlain c) :
    scan (String.ofList text) = (settleSigns (enter [] (.text text 0)).reverse).filterMap id := by
  obtain ⟨position, hmoves⟩ := moves_plain hplain (.after [] 0)
  rw [← String.toList_ofList (l := text)] at hmoves
  rw [scan_eq_of_moves hmoves, Cursor.closed_of_ne_nil (by simpa [Cursor.after] using hne)]
  simp [Cursor.after]

/-- A number glued to a name is cut off from it and the two are all the tokens there are, unless the
name begins with `e` and goes on; then the run is one name, number and all. -/
theorem scan_coefficient (hnumeral : IsMantissa numeral) (hname : IsWord name) :
    (kindOf numeral).isNumber = true ∧ kindOf name = .ident (String.ofList name) ∧
      (¬ LooksExponential name → scan (String.ofList (numeral ++ name)) =
        [classify numeral 0, classify name (String.ofList numeral).utf8ByteSize]) ∧
      (LooksExponential name →
        scan (String.ofList (numeral ++ name)) = [classify (numeral ++ name) 0] ∧
          kindOf (numeral ++ name) = .ident (String.ofList (numeral ++ name))) := by
  have hkind := kindOf_coefficient hnumeral hname
  have hnumber := hnumeral.isNumber
  have hident := hname.kind
  have hrun := scan_run (by simp [hname.ne_nil]) (plain_coefficient hnumeral hname)
  have hsplit := splitNumeral?_coefficient hnumeral hname
  refine ⟨hnumber, hident, fun hnot => ?_, fun hlooks => ⟨?_, hkind⟩⟩
  · have henter : (enter [] (.text (numeral ++ name) 0)).reverse =
        [some (classify numeral 0)] ++
          [some (classify name (String.ofList numeral).utf8ByteSize)] := by
      rw [if_neg hnot] at hsplit
      simp [enter, classify, hkind, hsplit, TokenKind.isInt, TokenKind.isIdent]
    have hopens : (kindOf name).opensNegation = false := by
      rw [hident]
      rfl
    have hclosed := closed_append_singleton [some (classify numeral 0)]
      (t := classify name (String.ofList numeral).utf8ByteSize) hopens
    have hfirst := not_opensNegation_of_isNumber hnumber
    have hsign := not_sign_of_not_opensNegation (k := (classify numeral 0).kind) hfirst
    rw [hrun, henter, hclosed.filterMap_settleSigns, List.singleton_append,
      settle_cons (by simp [hsign.1]) hsign.2, settle_singleton hopens]
  · have henter : enter [] (.text (numeral ++ name) 0) = [some (classify (numeral ++ name) 0)] := by
      rw [if_pos hlooks] at hsplit
      simp [enter, classify, hkind, hsplit, TokenKind.isInt, TokenKind.isIdent]
    rw [hrun, henter]
    rfl

/-- A number with a point before the name of a function. -/
theorem scan_coefficient_cos :
    IsMantissa "2.5".toList ∧ IsWord "cos".toList ∧ ¬ LooksExponential "cos".toList ∧
      scan "2.5cos" = [classify "2.5".toList 0, classify "cos".toList 3] := by
  have hnumeral : IsMantissa "2.5".toList :=
    ⟨['2'], ['5'], by simp [Char.isDigit], by simp [Char.isDigit], .inr ⟨rfl, .inl (by simp)⟩⟩
  have hname : IsWord "cos".toList := by decide
  have hnot : ¬ LooksExponential "cos".toList := by decide
  exact ⟨hnumeral, hname, hnot, (scan_coefficient hnumeral hname).2.2.1 hnot⟩

/-- `2exp` is one name, so not every word is cut off from the number before it. -/
theorem not_cut_exp :
    (scan "2exp").map Token.text = ["2exp"] ∧
      ¬ ∀ numeral name : List Char, IsMantissa numeral → IsWord name →
        (scan (String.ofList (numeral ++ name))).map Token.text =
          [String.ofList numeral, String.ofList name] := by
  have hone : (scan "2exp").map Token.text = ["2exp"] := by decide +kernel
  refine ⟨hone, fun h => ?_⟩
  have hnumeral : IsMantissa ['2'] :=
    ⟨['2'], [], by simp [Char.isDigit], by simp, .inl ⟨rfl, by simp⟩⟩
  have htwo := h ['2'] "exp".toList hnumeral (by decide)
  rw [show String.ofList (['2'] ++ "exp".toList) = "2exp" from rfl, hone] at htwo
  exact absurd (congrArg List.length htwo) (by simp)

end Token

end Reckoner
