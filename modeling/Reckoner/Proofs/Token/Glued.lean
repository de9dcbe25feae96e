import Reckoner.Proofs.Token.Cursor
import Reckoner.Proofs.Token.Numerals

/-!
Numerals with a name glued to them.

A run that begins with a numeral is cut in two, and neither part would be cut again. A run that ends
like a numeral whose exponent is still to come is always cut, so its last letter stands alone.
-/
namespace Reckoner

namespace Token

variable {text numeral name : List Char}

/-! ## Cutting a run -/

/-- How far a numeral is read: what is read would be read by itself with the same result, and no
digit follows. -/
theorem scanNumeral_spec (before : List Char) (digit point exponent : Bool) (text : List Char) :
    ∃ used, (scanNumeral before digit point exponent text).numeral = before ++ used ∧
      text = used ++ (scanNumeral before digit point exponent text).rest ∧
      (scanNumeral before digit point exponent used).rest = [] ∧
      (scanNumeral before digit point exponent used).hasDigit =
        (scanNumeral before digit point exponent text).hasDigit ∧
      (scanNumeral before digit point exponent used).hasExponent =
        (scanNumeral before digit point exponent text).hasExponent ∧
      ∀ c rest, (scanNumeral before digit point exponent text).rest = c :: rest →
        c.isDigit = false := by
  induction text generalizing before digit point exponent with
  | nil => exact ⟨[], by simp [scanNumeral]⟩
  | cons c rest ih =>
      by_cases hdigit : c.isDigit = true
      · obtain ⟨used, hspec⟩ := ih (before ++ [c]) true point exponent
        refine ⟨c :: used, ?_⟩
        simp only [scanNumeral, hdigit, if_true]
        simpa using hspec
      · by_cases hletter : (c == 'e' && digit && !exponent) = true
        · obtain ⟨used, hspec⟩ := ih (before ++ [c]) false point true
          refine ⟨c :: used, ?_⟩
          simp only [scanNumeral, hdigit, hletter, if_true]
          simpa using hspec
        · by_cases hpoint : (c == '.' && !point && !exponent) = true
          · obtain ⟨used, hspec⟩ := ih (before ++ [c]) digit true exponent
            refine ⟨c :: used, ?_⟩
            simp only [scanNumeral, hdigit, hletter, hpoint, if_true]
            simpa using hspec
          · refine ⟨[], ?_⟩
            simp [scanNumeral, hdigit, hletter, hpoint]

/-- After the letter of the exponent only digits are read. -/
theorem hasDigit_scanNumeral (before : List Char) (digit point : Bool) {text : List Char}
    (htext : text ≠ []) (hrest : (scanNumeral before digit point true text).rest = []) :
    (scanNumeral before digit point true text).hasDigit = true := by
  induction text generalizing before digit with
  | nil => exact absurd rfl htext
  | cons c rest ih =>
      by_cases hdigit : c.isDigit = true
      · simp only [scanNumeral, hdigit, if_true] at hrest ⊢
        cases rest with
        | nil => rfl
        | cons c' rest => exact ih (before ++ [c]) true (by simp) hrest
      · simp [scanNumeral, hdigit] at hrest

/-- Where the exponent lacks a digit, its letter is the last character. -/
theorem exists_of_not_hasDigit (before : List Char) (digit point : Bool) (text : List Char)
    (hrest : (scanNumeral before digit point false text).rest = [])
    (hexponent : (scanNumeral before digit point false text).hasExponent = true)
    (hdigit : (scanNumeral before digit point false text).hasDigit = false) :
    ∃ init, text = init ++ ['e'] ∧ (scanNumeral before digit point false init).rest = [] ∧
      (scanNumeral before digit point false init).hasDigit = true ∧
      (scanNumeral before digit point false init).hasExponent = false := by
  induction text generalizing before digit point with
  | nil => cases hexponent
  | cons c rest ih =>
      by_cases hc : c.isDigit = true
      · simp only [scanNumeral, hc, if_true] at hrest hexponent hdigit
        obtain ⟨init, rfl, hinit⟩ := ih _ _ _ hrest hexponent hdigit
        refine ⟨c :: init, rfl, ?_⟩
        simpa only [scanNumeral, hc, if_true] using hinit
      · by_cases hletter : (c == 'e' && digit && !false) = true
        · have hnil : rest = [] := by
            simp only [scanNumeral, hc, hletter, if_true] at hrest hdigit
            cases rest with
            | nil => rfl
            | cons c' rest =>
                have htrue := hasDigit_scanNumeral (before ++ [c]) false point (by simp) hrest
                exact absurd (htrue.symm.trans hdigit) (by decide)
          subst hnil
          simp only [Bool.and_eq_true, beq_iff_eq] at hletter
          obtain ⟨⟨rfl, rfl⟩, -⟩ := hletter
          exact ⟨[], rfl, rfl, rfl, rfl⟩
        · by_cases hpoint : (c == '.' && !point && !false) = true
          · simp only [scanNumeral, hc, hletter, hpoint, if_true] at hrest hexponent hdigit
            obtain ⟨init, rfl, hinit⟩ := ih _ _ _ hrest hexponent hdigit
            refine ⟨c :: init, rfl, ?_⟩
            simpa only [scanNumeral, hc, hletter, hpoint, Bool.false_eq_true, if_false, if_true]
              using hinit
          · simp only [scanNumeral, hc, hletter, hpoint, Bool.false_eq_true, if_false,
              reduceCtorEq] at hrest

theorem splitNumeral?_eq_none (hrest : (scanNumeral [] false false false text).rest = [])
    (h : (scanNumeral [] false false false text).hasDigit = true ∨
      (scanNumeral [] false false false text).hasExponent = false) : splitNumeral? text = none := by
  unfold splitNumeral?
  rcases h with h | h <;> simp [hrest, h]

/-- What is not read as a numeral from its first character on is not cut. -/
theorem splitNumeral?_of_head {c : Char} {rest : List Char} (hdigit : c.isDigit = false)
    (hpoint : c ≠ '.') : splitNumeral? (c :: rest) = none := by
  have hpoint : (c == '.') = false := by simpa using hpoint
  simp [splitNumeral?, scanNumeral, hdigit, hpoint]

/-- The two parts of a run that is cut; neither is cut again, unless the second begins with a
point. -/
theorem splitNumeral?_spec (h : splitNumeral? text = some (numeral, name)) :
    text = numeral ++ name ∧ numeral ≠ [] ∧ name ≠ [] ∧ splitNumeral? numeral = none ∧
      (splitNumeral? name = none ∨ name.head? = some '.') := by
  have hne : ∀ used, (scanNumeral [] false false false used).hasDigit = true → used ≠ [] := by
    rintro used hused rfl
    cases hused
  unfold splitNumeral? at h
  simp only at h
  split at h
  next hrest =>
    split at h
    next hopen =>
      simp only [Bool.and_eq_true, Bool.not_eq_true'] at hopen
      obtain ⟨init, rfl, hinit, hdigit, hexponent⟩ :=
        exists_of_not_hasDigit [] false false text hrest hopen.1 hopen.2
      obtain ⟨used, hnumeral, htext, -⟩ :=
        scanNumeral_spec [] false false false (init ++ ['e'])
      rw [hrest, List.append_nil] at htext
      rw [hnumeral, ← htext] at h
      simp only [List.nil_append, List.dropLast_concat, Option.some.injEq, Prod.mk.injEq] at h
      obtain ⟨rfl, rfl⟩ := h
      exact ⟨rfl, hne init hdigit, by simp, splitNumeral?_eq_none hinit (.inr hexponent),
        .inl rfl⟩
    next => cases h
  next hrest =>
    split at h
    next hdigit =>
      obtain ⟨used, hnumeral, htext, hused, hdigit', -, hstop⟩ :=
        scanNumeral_spec [] false false false text
      cases h
      rw [hnumeral, List.nil_append]
      refine ⟨htext, hne used (hdigit'.trans hdigit), hrest,
        splitNumeral?_eq_none hused (.inl (hdigit'.trans hdigit)), ?_⟩
      cases hname : (scanNumeral [] false false false text).rest with
      | nil => exact absurd hname hrest
      | cons c rest =>
          by_cases hpoint : c = '.'
          · exact .inr (by rw [hpoint]; rfl)
          · exact .inl (splitNumeral?_of_head (hstop c rest hname) hpoint)
    next => cases h

/-! ## Numerals whose exponent is still to come -/

/-- Digits with at most one point among or around them. -/
def IsMantissa (text : List Char) : Prop :=
  ∃ whole places : List Char, (∀ c ∈ whole, c.isDigit = true) ∧ (∀ c ∈ places, c.isDigit = true) ∧
    (text = whole ∧ whole ≠ [] ∨
      text = whole ++ '.' :: places ∧ (whole ≠ [] ∨ places ≠ []))

theorem IsMantissa.digit_or_point (h : IsMantissa text) :
    ∀ c ∈ text, c.isDigit = true ∨ c = '.' := by
  obtain ⟨whole, places, hwhole, hplaces, ⟨rfl, -⟩ | ⟨rfl, -⟩⟩ := h
  · exact fun c hc => .inl (hwhole c hc)
  · intro c hc
    rcases List.mem_append.1 hc with hc | hc
    · exact .inl (hwhole c hc)
    · rcases List.mem_cons.1 hc with rfl | hc
      · exact .inr rfl
      · exact .inl (hplaces c hc)

theorem IsMantissa.ne_nil (h : IsMantissa text) : text ≠ [] := by
  obtain ⟨whole, places, -, -, ⟨rfl, h⟩ | ⟨rfl, -⟩⟩ := h
  · exact h
  · simp

theorem IsMantissa.plain (h : IsMantissa text) : ∀ c ∈ text, IsPlain c := by
  intro c hc
  rcases h.digit_or_point c hc with hdigit | rfl
  · exact isPlain_of_isDigit hdigit
  · exact ⟨rfl, rfl⟩

theorem takeWhile_append_of_digits {digits : List Char} (h : ∀ c ∈ digits, c.isDigit = true)
    (rest : List Char) (hrest : ∀ c ∈ rest.head?, c.isDigit = false) :
    (digits ++ rest).takeWhile Char.isDigit = digits ∧
      (digits ++ rest).dropWhile Char.isDigit = rest := by
  rw [List.takeWhile_append_of_pos h, List.dropWhile_append_of_pos h]
  cases rest with
  | nil => simp
  | cons c rest =>
      have hc : c.isDigit = false := hrest c rfl
      simp [hc]

/-- Behind the first character of a whole numeral there are digits only. -/
theorem isDigit_of_readInt? {c : Char} {rest : List Char} {n : Int}
    (h : Decimal.readInt? (c :: rest) = some n) : ∀ d ∈ rest, d.isDigit = true := by
  have hsplit : ∀ d ∈ rest, d ∈ (Decimal.splitSign (c :: rest)).2 := by
    intro d hd
    unfold Decimal.splitSign
    split
    next heq => exact (List.cons.inj heq).2 ▸ hd
    next heq => exact (List.cons.inj heq).2 ▸ hd
    next => exact List.mem_cons_of_mem c hd
  unfold Decimal.readInt? at h
  simp only at h
  split at h
  next hdigits =>
    simp only [Bool.and_eq_true, List.all_eq_true] at hdigits
    exact fun d hd => hdigits.2 d (hsplit d hd)
  next => cases h

/-- An unsigned numeral is a mantissa with nothing or an exponent after it. -/
theorem exists_mantissa_of_readScaled? {m : Decimal.Magnitude}
    (h : Decimal.readScaled? text = some m) : ∃ mantissa tail, text = mantissa ++ tail ∧
      IsMantissa mantissa ∧ ∃ e, Decimal.readExponent? tail = some e := by
  have hsplit : ∀ cs : List Char, cs.takeWhile Char.isDigit ++ cs.dropWhile Char.isDigit = cs :=
    fun cs => List.takeWhile_append_dropWhile
  have hdigits : ∀ cs : List Char, ∀ c ∈ cs.takeWhile Char.isDigit, c.isDigit = true :=
    fun cs c hc => List.all_eq_true.1 List.all_takeWhile c hc
  unfold Decimal.readScaled? at h
  simp only at h
  have htext := hsplit text
  generalize hwhole : text.takeWhile Char.isDigit = whole at h htext
  have hw : ∀ c ∈ whole, c.isDigit = true := hwhole ▸ hdigits text
  split at h
  next rest hafter =>
    rw [hafter] at htext
    split at h
    · cases h
    · next hne =>
        obtain ⟨e, he, -⟩ := Option.map_eq_some_iff.1 h
        refine ⟨whole ++ '.' :: rest.takeWhile Char.isDigit, rest.dropWhile Char.isDigit, ?_,
          ⟨whole, _, hw, hdigits rest, .inr ⟨rfl, ?_⟩⟩, e, he⟩
        · rw [List.append_assoc, List.cons_append, hsplit, htext]
        · by_cases hnil : whole = []
          · exact .inr fun hplaces => hne ⟨hnil, hplaces⟩
          · exact .inl hnil
  next rest hafter =>
    split at h
    · cases h
    · next hne =>
        obtain ⟨e, he, -⟩ := Option.map_eq_some_iff.1 h
        exact ⟨whole, _, htext.symm, ⟨whole, [], hw, by simp, .inl ⟨rfl, fun hnil => hne ⟨hnil, rfl⟩⟩⟩,
          e, he⟩

/-- A sign stands in an unsigned numeral only behind the letter of the exponent. -/
theorem exists_mantissa_of_sign {m : Decimal.Magnitude} {before after : List Char} {c : Char}
    (hc : c = '+' ∨ c = '-') (h : Decimal.readScaled? (before ++ c :: after) = some m) :
    ∃ mantissa letter, before = mantissa ++ [letter] ∧ IsMantissa mantissa ∧
      (letter = 'e' ∨ letter = 'E') := by
  have hdigit : c.isDigit = false := by rcases hc with rfl | rfl <;> rfl
  obtain ⟨mantissa, tail, htext, hmantissa, e, he⟩ := exists_mantissa_of_readScaled? h
  have hmem : c ∉ mantissa := by
    intro hmem
    rcases hmantissa.digit_or_point c hmem with hd | rfl
    · rw [hdigit] at hd
      cases hd
    · rcases hc with hc | hc <;> cases hc
  obtain ⟨letter, rest, rfl, hletter, hint⟩ : ∃ letter rest, tail = letter :: rest ∧
      (letter = 'e' ∨ letter = 'E') ∧ Decimal.readInt? rest = some e := by
    cases tail with
    | nil => exact absurd (by rw [← List.append_nil mantissa, ← htext]; simp) hmem
    | cons letter rest =>
        rw [Decimal.readExponent?] at he
        split at he
        next hletter => exact ⟨letter, rest, rfl, hletter, he⟩
        next => cases he
  have hne : c ≠ letter := by
    rintro rfl
    rcases hc with rfl | rfl <;> rcases hletter with hl | hl <;> cases hl
  rcases List.append_eq_append_iff.1 htext with ⟨middle, hmiddle, hrest⟩ | ⟨middle, rfl, hrest⟩
  · cases middle with
    | nil =>
        rw [List.nil_append] at hrest
        exact absurd (List.cons.inj hrest).1 hne
    | cons c' middle =>
        obtain ⟨rfl, -⟩ := List.cons.inj hrest
        exact absurd (hmiddle ▸ by simp) hmem
  · cases middle with
    | nil => exact absurd (List.cons.inj hrest).1.symm hne
    | cons c' middle =>
        obtain ⟨rfl, rfl⟩ := List.cons.inj hrest
        cases middle with
        | nil => exact ⟨mantissa, letter, rfl, hmantissa, hletter⟩
        | cons c' middle =>
            have htrue := isDigit_of_readInt? hint c (by simp)
            rw [hdigit] at htrue
            cases htrue

/-- What begins with a digit or the point is none of the words that stand for numbers. -/
theorem readMagnitude?_eq_readScaled? {c : Char} {rest : List Char}
    (h : c.isDigit = true ∨ c = '.') :
    Decimal.readMagnitude? (c :: rest) = Decimal.readScaled? (c :: rest) := by
  have hlower : c.toLower ≠ 'i' ∧ c.toLower ≠ 'n' := by
    rcases h with h | rfl
    · have hsame : c.toLower = c := by
        unfold Char.toLower
        grind [Char.isDigit]
      rw [hsame]
      constructor <;> rintro rfl <;> cases h
    · decide
  unfold Decimal.readMagnitude?
  simp [hlower.1, hlower.2]

/-- With a sign in it a decimal numeral is none of the words that stand for numbers. -/
theorem readScaled?_of_sign {m : Decimal.Magnitude} {before after : List Char} {c : Char}
    (hc : c = '+' ∨ c = '-') (h : Decimal.readMagnitude? (before ++ c :: after) = some m) :
    Decimal.readScaled? (before ++ c :: after) = some m := by
  have hword : ∀ word : List Char, c ∉ word → (before ++ c :: after).map Char.toLower ≠ word := by
    rintro word hword rfl
    have hlower : c.toLower = c := by rcases hc with rfl | rfl <;> rfl
    exact hword (List.mem_map.2 ⟨c, by simp, hlower⟩)
  unfold Decimal.readMagnitude? at h
  simpa only [hword "inf".toList (by rcases hc with rfl | rfl <;> decide),
    hword "infinity".toList (by rcases hc with rfl | rfl <;> decide),
    hword "nan".toList (by rcases hc with rfl | rfl <;> decide), or_self, if_false] using h

theorem scanNumeral_digits (before : List Char) (digit point exponent : Bool) {digits : List Char}
    (h : ∀ c ∈ digits, c.isDigit = true) (rest : List Char) :
    scanNumeral before digit point exponent (digits ++ rest) =
      scanNumeral (before ++ digits) (digit || digits ≠ []) point exponent rest := by
  induction digits generalizing before digit with
  | nil => simp
  | cons c digits ih =>
      have hc : c.isDigit = true := h c List.mem_cons_self
      rw [List.cons_append, scanNumeral, if_pos hc, ih _ _ fun c hc => h c (List.mem_cons_of_mem _ hc)]
      simp

/-- A run that a mantissa and the letter of an exponent make up is cut. -/
theorem splitNumeral?_mantissa (h : IsMantissa text) {letter : Char}
    (hletter : letter = 'e' ∨ letter = 'E') : splitNumeral? (text ++ [letter]) ≠ none := by
  have hlast : ∀ before point, ∃ s : NumeralScan,
      scanNumeral before true point false [letter] = s ∧
        (s.rest = [] ∧ s.hasExponent = true ∧ s.hasDigit = false ∨
          s.rest ≠ [] ∧ s.hasDigit = true) := by
    intro before point
    rcases hletter with rfl | rfl
    · exact ⟨_, rfl, .inl ⟨rfl, rfl, rfl⟩⟩
    · exact ⟨_, rfl, .inr ⟨by simp [scanNumeral], rfl⟩⟩
  obtain ⟨s, hs, hcases⟩ : ∃ s, scanNumeral [] false false false (text ++ [letter]) = s ∧
      (s.rest = [] ∧ s.hasExponent = true ∧ s.hasDigit = false ∨
        s.rest ≠ [] ∧ s.hasDigit = true) := by
    obtain ⟨whole, places, hwhole, hplaces, ⟨rfl, hne⟩ | ⟨rfl, hne⟩⟩ := h
    · rw [scanNumeral_digits _ _ _ _ hwhole]
      simpa [hne] using hlast text false
    · rw [List.append_assoc, scanNumeral_digits _ _ _ _ hwhole, List.cons_append, scanNumeral]
      simp only [show '.'.isDigit = false from rfl, Bool.false_eq_true, if_false]
      rw [if_neg (by simp), if_pos (by rfl), scanNumeral_digits _ _ _ _ hplaces]
      have hdigit : (false || decide (whole ≠ []) || decide (places ≠ [])) = true := by
        simpa using hne
      rw [hdigit]
      exact hlast _ _
  unfold splitNumeral?
  simp only [hs]
  rcases hcases with ⟨hrest, hexponent, hdigit⟩ | ⟨hrest, hdigit⟩
  · simp [hrest, hexponent, hdigit]
  · simp [hrest, hdigit]

/-- Behind a mantissa the exponent is read. -/
theorem readScaled?_append (h : IsMantissa text) {tail : List Char}
    (htail : ∀ c ∈ tail.head?, c.isDigit = false ∧ c ≠ '.') :
    ∃ f, Decimal.readScaled? (text ++ tail) = (Decimal.readExponent? tail).map f := by
  obtain ⟨whole, places, hwhole, hplaces, ⟨rfl, hne⟩ | ⟨rfl, hne⟩⟩ := h
  · obtain ⟨htake, hdrop⟩ := takeWhile_append_of_digits hwhole tail fun c hc => (htail c hc).1
    unfold Decimal.readScaled?
    simp only [htake, hdrop]
    split
    next rest => exact absurd rfl (htail '.' rfl).2
    next => exact ⟨_, by rw [if_neg fun hnil => hne hnil.1]⟩
  · rw [List.append_assoc, List.cons_append]
    obtain ⟨htake, hdrop⟩ := takeWhile_append_of_digits hwhole ('.' :: (places ++ tail)) (by simp)
    obtain ⟨htake', hdrop'⟩ := takeWhile_append_of_digits hplaces tail fun c hc => (htail c hc).1
    have hsome : ¬ (whole = [] ∧ places = []) := fun hnil => hne.elim (· hnil.1) (· hnil.2)
    unfold Decimal.readScaled?
    simp only [htake, hdrop, htake', hdrop']
    exact ⟨_, by rw [if_neg hsome]⟩

/-- A numeral lacks no digits of its exponent. -/
theorem readScaled?_mantissa (h : IsMantissa text) {letter : Char}
    (hletter : letter = 'e' ∨ letter = 'E') : Decimal.readScaled? (text ++ [letter]) = none := by
  have htail : ∀ c ∈ [letter].head?, c.isDigit = false ∧ c ≠ '.' := by
    rcases hletter with rfl | rfl <;> simp
  obtain ⟨f, hf⟩ := readScaled?_append h htail
  rw [hf]
  rcases hletter with rfl | rfl <;> rfl

theorem IsMantissa.splitSign (h : IsMantissa text) (rest : List Char) :
    Decimal.splitSign (text ++ rest) = (false, text ++ rest) := by
  obtain ⟨c, tail, rfl⟩ := List.exists_cons_of_ne_nil h.ne_nil
  exact splitSign_unsigned (by simpa using ne_sign (h.digit_or_point c List.mem_cons_self))

theorem IsMantissa.readMagnitude?_append (h : IsMantissa text) (rest : List Char) :
    Decimal.readMagnitude? (text ++ rest) = Decimal.readScaled? (text ++ rest) := by
  obtain ⟨c, tail, rfl⟩ := List.exists_cons_of_ne_nil h.ne_nil
  exact readMagnitude?_eq_readScaled? (h.digit_or_point c List.mem_cons_self)

/-- A mantissa and the letter of an exponent are no number. -/
theorem isNumber_mantissa (h : IsMantissa text) {letter : Char}
    (hletter : letter = 'e' ∨ letter = 'E') : (kindOf (text ++ [letter])).isNumber = false := by
  have hint : Decimal.readInt? (text ++ [letter]) = none := by
    have hall : (text ++ [letter]).all Char.isDigit = false := by
      rcases hletter with rfl | rfl <;> simp
    simp only [Decimal.readInt?, h.splitSign, hall, Bool.and_false, Bool.false_eq_true, if_false]
  have hmagnitude : Decimal.readMagnitude? (text ++ [letter]) = none := by
    rw [h.readMagnitude?_append, readScaled?_mantissa h hletter]
  refine not_isNumber_of_readers hint ?_
  simp [readDouble?, Decimal.readFloat?, h.splitSign, hmagnitude]

/-- What stands between two signs of a numeral is no number, and a run of it would be cut. -/
theorem cut_of_two_signs {c d : Char} (hc : c = '+' ∨ c = '-') (hd : d = '+' ∨ d = '-')
    {middle after : List Char} (h : (kindOf (c :: middle ++ d :: after)).isDouble = true) :
    (kindOf middle).isNumber = false ∧ splitNumeral? middle ≠ none := by
  obtain ⟨x, hx⟩ := readDouble?_of_isDouble h
  have hfloat := (readDouble?_eq_some hx).1
  have hsplit : ∃ negative, Decimal.splitSign (c :: middle ++ d :: after) =
      (negative, middle ++ d :: after) := by
    rcases hc with rfl | rfl <;> exact ⟨_, rfl⟩
  obtain ⟨negative, hsplit⟩ := hsplit
  obtain ⟨m, hm⟩ : ∃ m, Decimal.readMagnitude? (middle ++ d :: after) = some m := by
    simp only [Decimal.readFloat?, hsplit] at hfloat
    obtain ⟨m, hm, -⟩ := Option.map_eq_some_iff.1 hfloat
    exact ⟨m, hm⟩
  obtain ⟨mantissa, letter, rfl, hmantissa, hletter⟩ :=
    exists_mantissa_of_sign hd (readScaled?_of_sign hd hm)
  exact ⟨isNumber_mantissa hmantissa hletter, splitNumeral?_mantissa hmantissa hletter⟩

/-! ## Numerals that a point ends -/

/-- After the letter of the exponent only digits are read. -/
theorem isDigit_of_scanNumeral (before : List Char) (digit point : Bool) {text : List Char}
    (hrest : (scanNumeral before digit point true text).rest = []) :
    ∀ c ∈ text, c.isDigit = true := by
  induction text generalizing before digit with
  | nil => simp
  | cons c rest ih =>
      by_cases hdigit : c.isDigit = true
      · simp only [scanNumeral, hdigit, if_true] at hrest
        exact List.forall_mem_cons.2 ⟨hdigit, ih _ _ hrest⟩
      · simp [scanNumeral, hdigit] at hrest

/-- The exponent of a numeral: nothing, or the letter and digits. -/
def IsExponent (text : List Char) : Prop :=
  text = [] ∨ ∃ digits, text = 'e' :: digits ∧ digits ≠ [] ∧ ∀ c ∈ digits, c.isDigit = true

/-- Behind the digits of a mantissa there is an exponent. -/
theorem isExponent_of_scanNumeral {before : List Char} {digit point : Bool}
    (hhead : ∀ c ∈ text.head?, c.isDigit = false ∧ (point = false → c ≠ '.'))
    (hrest : (scanNumeral before digit point false text).rest = [])
    (hdigit : (scanNumeral before digit point false text).hasDigit = true) :
    digit = true ∧ IsExponent text := by
  cases text with
  | nil => exact ⟨hdigit, .inl rfl⟩
  | cons c rest =>
      obtain ⟨hc, hpoint⟩ := hhead c rfl
      have hpoint : (c == '.' && !point && !false) = false := by
        cases point <;> simp_all
      by_cases hletter : (c == 'e' && digit && !false) = true
      · simp only [scanNumeral, hc, hletter, Bool.false_eq_true, if_false, if_true] at hrest hdigit
        simp only [Bool.and_eq_true, beq_iff_eq] at hletter
        obtain ⟨⟨rfl, rfl⟩, -⟩ := hletter
        refine ⟨rfl, .inr ⟨rest, rfl, ?_, isDigit_of_scanNumeral _ _ _ hrest⟩⟩
        rintro rfl
        cases hdigit
      · simp only [scanNumeral, hc, hletter, hpoint, Bool.false_eq_true, if_false] at hrest
        cases hrest

/-- The digits that a text begins with. -/
theorem exists_digits (text : List Char) : ∃ digits rest, text = digits ++ rest ∧
    (∀ c ∈ digits, c.isDigit = true) ∧ ∀ c ∈ rest.head?, c.isDigit = false := by
  refine ⟨text.takeWhile Char.isDigit, text.dropWhile Char.isDigit,
    List.takeWhile_append_dropWhile.symm, fun c hc => List.all_eq_true.1 List.all_takeWhile c hc, ?_⟩
  intro c hc
  have hhead := List.head?_dropWhile_not Char.isDigit text
  rwa [Option.mem_def.1 hc] at hhead

/-- What is read as a numeral to its end is a mantissa with an exponent. -/
theorem exists_mantissa_of_scanNumeral (hrest : (scanNumeral [] false false false text).rest = [])
    (hdigit : (scanNumeral [] false false false text).hasDigit = true) :
    ∃ mantissa tail, text = mantissa ++ tail ∧ IsMantissa mantissa ∧ IsExponent tail := by
  obtain ⟨whole, after, rfl, hwhole, hafter⟩ := exists_digits text
  rw [scanNumeral_digits _ _ _ _ hwhole] at hrest hdigit
  by_cases hpoint : ∃ rest, after = '.' :: rest
  · obtain ⟨rest, rfl⟩ := hpoint
    obtain ⟨places, tail, rfl, hplaces, htail⟩ := exists_digits rest
    have hscan : ∀ before digit, scanNumeral before digit false false ('.' :: (places ++ tail)) =
        scanNumeral (before ++ ['.'] ++ places) (digit || places ≠ []) true false tail := by
      intro before digit
      rw [← scanNumeral_digits _ _ _ _ hplaces]
      simp [scanNumeral]
    rw [hscan] at hrest hdigit
    have hhead : ∀ c ∈ tail.head?, c.isDigit = false ∧ (true = false → c ≠ '.') :=
      fun c hc => ⟨htail c hc, fun h => by cases h⟩
    obtain ⟨hsome, hexponent⟩ := isExponent_of_scanNumeral hhead hrest hdigit
    refine ⟨whole ++ '.' :: places, tail, by simp, ⟨whole, places, hwhole, hplaces, .inr ⟨rfl, ?_⟩⟩,
      hexponent⟩
    simpa using hsome
  · have hhead : ∀ c ∈ after.head?, c.isDigit = false ∧ (false = false → c ≠ '.') := by
      refine fun c hc => ⟨hafter c hc, fun _ hdot => hpoint ?_⟩
      obtain ⟨rest, rfl⟩ := List.head?_eq_some_iff.1 (Option.mem_def.1 hc)
      exact ⟨rest, by rw [hdot]⟩
    obtain ⟨hsome, hexponent⟩ := isExponent_of_scanNumeral hhead hrest hdigit
    exact ⟨whole, after, rfl, ⟨whole, [], hwhole, by simp, .inl ⟨rfl, by simpa using hsome⟩⟩,
      hexponent⟩

/-- A numeral that is no whole one, with or without a minus sign in front. -/
def IsFractional (text : List Char) : Prop :=
  (kindOf text).isDouble = true ∧ (kindOf ('-' :: text)).isDouble = true

theorem readInt?_eq_none {c : Char} (hc : c ∈ text) (hdigit : c.isDigit = false)
    (hhead : ∀ c ∈ text.head?, c.isDigit = true ∨ c = '.') :
    Decimal.readInt? text = none ∧ Decimal.readInt? ('-' :: text) = none := by
  have hsplit := splitSign_unsigned fun c hc => ne_sign (hhead c hc)
  have hall : text.all Char.isDigit = false := by
    rw [List.all_eq_false]
    exact ⟨c, hc, by simp [hdigit]⟩
  constructor
  · simp [Decimal.readInt?, hsplit, hall]
  · simp [Decimal.readInt?, Decimal.splitSign, hall]

theorem IsExponent.isNumeric {tail : List Char} (h : IsExponent tail) : ∀ c ∈ tail, IsNumeric c := by
  obtain rfl | ⟨digits, rfl, -, hdigits⟩ := h
  · simp
  · exact List.forall_mem_cons.2 ⟨by simp [IsNumeric], fun c hc => .inl (hdigits c hc)⟩

/-- A mantissa with an exponent is a decimal numeral. -/
theorem readMagnitude?_of_mantissa (h : IsMantissa text) {tail : List Char} (htail : IsExponent tail) :
    ∃ m, Decimal.readMagnitude? (text ++ tail) = some m := by
  have hexponent : ∃ e, Decimal.readExponent? tail = some e := by
    obtain rfl | ⟨digits, rfl, hne, hdigits⟩ := htail
    · exact ⟨0, rfl⟩
    · have hsplit := splitSign_unsigned fun c hc =>
        ne_sign (.inl (hdigits c (List.mem_of_mem_head? hc)))
      have hall : digits.all Char.isDigit = true := List.all_eq_true.2 hdigits
      exact ⟨_, by simp [Decimal.readExponent?, Decimal.readInt?, hsplit, hall, hne]; rfl⟩
  have hhead : ∀ c ∈ tail.head?, c.isDigit = false ∧ c ≠ '.' := by
    obtain rfl | ⟨digits, rfl, -, -⟩ := htail
    · simp
    · simp
  obtain ⟨e, he⟩ := hexponent
  obtain ⟨f, hf⟩ := readScaled?_append h hhead
  exact ⟨f e, by rw [h.readMagnitude?_append, hf, he, Option.map_some]⟩

/-- A mantissa with an exponent is a numeral, and no whole one if it has more than digits. -/
theorem isFractional_of_mantissa (h : IsMantissa text) {tail : List Char} (htail : IsExponent tail)
    {c : Char} (hc : c ∈ text ++ tail) (hdigit : c.isDigit = false) :
    IsFractional (text ++ tail) := by
  obtain ⟨first, rest, rfl⟩ := List.exists_cons_of_ne_nil h.ne_nil
  have hfirst := h.digit_or_point first List.mem_cons_self
  obtain ⟨m, hm⟩ := readMagnitude?_of_mantissa h htail
  have hnumeric : ∀ d ∈ first :: rest ++ tail, IsNumeric d := by
    intro d hd
    rcases List.mem_append.1 hd with hd | hd
    · exact (h.digit_or_point d hd).imp_right .inl
    · exact htail.isNumeric d hd
  obtain ⟨hint, hminusInt⟩ := readInt?_eq_none hc hdigit (by simpa using hfirst)
  exact ⟨isDouble_of_readDouble?
      (readDouble?_unsigned hm (fun d hd => hnumeric d (.tail _ hd)) hfirst) hint,
    isDouble_of_readDouble? (readDouble?_minus hm hnumeric) hminusInt⟩

/-- Where a numeral is cut off before a point it has a point or an exponent itself. -/
theorem isFractional_of_splitNumeral? (h : splitNumeral? text = some (numeral, name))
    (hpoint : name.head? = some '.') : IsFractional numeral := by
  obtain ⟨used, hnumeral, htext, hused, hsome, -⟩ := scanNumeral_spec [] false false false text
  unfold splitNumeral? at h
  simp only at h
  split at h
  · split at h
    · cases h
      cases hpoint
    · cases h
  · split at h
    next hdigit =>
      cases h
      rw [hnumeral, List.nil_append]
      obtain ⟨mantissa, tail, rfl, hmantissa, htail⟩ :=
        exists_mantissa_of_scanNumeral hused (hsome.trans hdigit)
      by_cases hdigits : ∃ c ∈ mantissa ++ tail, c.isDigit = false
      · obtain ⟨c, hc, hnot⟩ := hdigits
        exact isFractional_of_mantissa hmantissa htail hc hnot
      · -- After digits alone the point would have been read.
        have hall : ∀ c ∈ mantissa ++ tail, c.isDigit = true := fun c hc =>
          Bool.eq_false_imp_eq_true.1 fun hnot => absurd ⟨c, hc, hnot⟩ hdigits
        obtain ⟨rest, hrest⟩ := List.head?_eq_some_iff.1 hpoint
        obtain ⟨more, hmore, -⟩ :=
          scanNumeral_spec (mantissa ++ tail ++ ['.']) true true false rest
        have hscan : scanNumeral [] false false false text =
            scanNumeral (mantissa ++ tail ++ ['.']) true true false rest := by
          rw [hrest] at htext
          rw [htext, scanNumeral_digits _ _ _ _ hall]
          simp [scanNumeral, hmantissa.ne_nil]
        rw [hscan, hmore] at hnumeral
        simp at hnumeral
    next => cases h

end Token

end Reckoner
