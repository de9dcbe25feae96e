import Mathlib.Algebra.Group.Nat.Defs
import Reckoner.Proofs.Token.Spelling

/-!
Numerals among the tokens.

The digits of a whole number are read back as that number, with a minus sign before them too. And a
whole number does not become the end of a numeral with an exponent if among the tokens right before
it there is a gap or a character that no numeral has.
-/
namespace Reckoner

namespace Token

variable {text : List Char} {draft : Draft}

/-! ## Digits -/

/-- The digits of a number. -/
abbrev digits (k : Nat) : List Char :=
  Nat.toDigits 10 k

theorem digits_ne_nil (k : Nat) : digits k ≠ [] :=
  Nat.toDigits_ne_nil

theorem isDigit_of_mem_digits {k : Nat} {c : Char} (h : c ∈ digits k) : c.isDigit = true :=
  Nat.isDigit_of_mem_toDigits (by decide) (by decide) h

/-- A text that begins with no sign has none. -/
theorem splitSign_unsigned (h : ∀ c ∈ text.head?, c ≠ '+' ∧ c ≠ '-') :
    Decimal.splitSign text = (false, text) := by
  unfold Decimal.splitSign
  split
  next => exact absurd rfl (h '-' rfl).2
  next => exact absurd rfl (h '+' rfl).1
  next => rfl

/-- An unsigned whole numeral has digits only. -/
theorem isDigit_of_readInt?_unsigned (hhead : ∀ c ∈ text.head?, c ≠ '+' ∧ c ≠ '-') {n : Int}
    (h : Decimal.readInt? text = some n) : text ≠ [] ∧ ∀ c ∈ text, c.isDigit = true := by
  unfold Decimal.readInt? at h
  simp only [splitSign_unsigned hhead] at h
  split at h
  next hall => simpa only [decide_eq_true_eq, Bool.and_eq_true, List.all_eq_true] using hall
  next => cases h

theorem ne_sign {c : Char} (h : c.isDigit = true ∨ c = '.') : c ≠ '+' ∧ c ≠ '-' := by
  constructor <;> rintro rfl <;> exact absurd h (by decide)

theorem splitSign_digits (k : Nat) : Decimal.splitSign (digits k) = (false, digits k) :=
  splitSign_unsigned fun _ hc => ne_sign (.inl (isDigit_of_mem_digits (List.mem_of_mem_head? hc)))

theorem readInt?_digits (k : Nat) : Decimal.readInt? (digits k) = some (k : Int) := by
  have hall : (digits k).all Char.isDigit = true :=
    List.all_eq_true.2 fun c hc => isDigit_of_mem_digits hc
  simp [Decimal.readInt?, splitSign_digits, hall, Decimal.ofDigits, Nat.ofDigitChars_ten_toDigits]

theorem readInt?_minus_digits (k : Nat) : Decimal.readInt? ('-' :: digits k) = some (-(k : Int)) := by
  have hall : (digits k).all Char.isDigit = true :=
    List.all_eq_true.2 fun c hc => isDigit_of_mem_digits hc
  simp [Decimal.readInt?, Decimal.splitSign, hall, Decimal.ofDigits, Nat.ofDigitChars_ten_toDigits]

theorem kindOf_of_readInt? {n : BitVec 64} (h : Decimal.readInt? text = some n.toInt) :
    kindOf text = .int n := by
  have hword : Decimal.readWord? 64 text = some n := by
    simp [Decimal.readWord?, h]
  have hcases := kindOf_cases text
  generalize hk : kindOf text = k at hcases
  rcases hcases with hsymbol | hplain
  · cases hsymbol with
    | binary o => cases o <;> cases h
    | _ => cases h
  · cases hplain with
    | int hword' =>
        rw [hword] at hword'
        cases hword'
        rfl
    | double hnone _ =>
        rw [hword] at hnone
        cases hnone
    | ident hnone _ =>
        rw [hword] at hnone
        cases hnone

/-- The digits of the least number's opposite are a double by themselves. -/
theorem isDouble_digits_least : (kindOf (digits (2 ^ 63))).isDouble = true := by
  decide +kernel

/-! ## Numerals with a signed exponent -/

/-- A character that numerals have. -/
def IsNumeric (c : Char) : Prop :=
  c.isDigit = true ∨ c = '.' ∨ c = '+' ∨ c = '-' ∨ c = 'e' ∨ c = 'E'

theorem isNumber_of_isDouble {k : TokenKind} (h : k.isDouble = true) : k.isNumber = true := by
  cases k <;> first | rfl | cases h

theorem not_isIdent_of_isNumber {k : TokenKind} (h : k.isNumber = true) : k.isIdent = false := by
  cases k <;> first | rfl | cases h

theorem readInt?_of_isInt (h : (kindOf text).isInt = true) :
    ∃ n, Decimal.readInt? text = some n := by
  have hcases := kindOf_cases text
  generalize kindOf text = k at h hcases
  rcases hcases with hsymbol | hplain
  · cases hsymbol with
    | binary o => cases o <;> cases h
    | _ => cases h
  · cases hplain with
    | int hword =>
        unfold Decimal.readWord? at hword
        split at hword
        next => cases hword
        next n hn => exact ⟨n, hn⟩
    | _ => cases h

theorem readDouble?_of_isDouble (h : (kindOf text).isDouble = true) :
    ∃ x, readDouble? text = some x := by
  have hcases := kindOf_cases text
  generalize kindOf text = k at h hcases
  rcases hcases with hsymbol | hplain
  · cases hsymbol with
    | binary o => cases o <;> cases h
    | _ => cases h
  · cases hplain with
    | double _ hdouble => exact ⟨_, hdouble⟩
    | _ => cases h

/-- A number is read as a whole numeral or as a decimal one. -/
theorem exists_of_isNumber (h : (kindOf text).isNumber = true) :
    (∃ n, Decimal.readInt? text = some n) ∨ ∃ x, readDouble? text = some x := by
  cases hk : kindOf text with
  | int n => exact .inl (readInt?_of_isInt (by rw [hk]; rfl))
  | double x => exact .inr (readDouble?_of_isDouble (by rw [hk]; rfl))
  | _ =>
      rw [hk] at h
      cases h

theorem not_isNumber_of_readers (hint : Decimal.readInt? text = none)
    (hdouble : readDouble? text = none) : (kindOf text).isNumber = false := by
  refine Bool.eq_false_iff.2 fun hnumber => ?_
  rcases exists_of_isNumber hnumber with ⟨n, hn⟩ | ⟨x, hx⟩
  · rw [hint] at hn
    cases hn
  · rw [hdouble] at hx
    cases hx

theorem readDouble?_eq_some {x : Float} (h : readDouble? text = some x) :
    Decimal.readFloat? text = some x ∧ ∀ c ∈ text, IsNumeric c := by
  unfold readDouble? at h
  simp only at h
  split at h
  next hall =>
    refine ⟨h, fun c hc => ?_⟩
    simp only [Bool.and_eq_true, List.all_eq_true, Bool.or_eq_true, beq_iff_eq] at hall
    unfold IsNumeric
    simpa only [or_assoc] using hall.2 c hc
  next => cases h

theorem isNumeric_of_isDouble (h : (kindOf text).isDouble = true) : ∀ c ∈ text, IsNumeric c := by
  obtain ⟨x, hx⟩ := readDouble?_of_isDouble h
  exact (readDouble?_eq_some hx).2

/-- Behind a sign there is no second one in a numeral. -/
theorem readMagnitude?_sign {c : Char} (hc : c = '+' ∨ c = '-') (text : List Char) :
    Decimal.readMagnitude? (c :: text) = none := by
  have hlower : c.toLower = c := by rcases hc with rfl | rfl <;> rfl
  have hscaled : Decimal.readScaled? (c :: text) = none := by
    rcases hc with rfl | rfl <;> rfl
  unfold Decimal.readMagnitude?
  simp only [List.map_cons, hlower, hscaled]
  rcases hc with rfl | rfl <;> simp

/-- What is read as a decimal numeral is a number. -/
theorem isNumber_of_readDouble? {x : Float} (h : readDouble? text = some x) :
    (kindOf text).isNumber = true := by
  have hcases := kindOf_cases text
  generalize kindOf text = k at hcases
  rcases hcases with hsymbol | hplain
  · have hnone : ∀ {text k}, SymbolKind text k → readDouble? text = none := by
      intro text k hsymbol
      cases hsymbol with
      | binary o => cases o <;> decide +kernel
      | _ => decide +kernel
    rw [hnone hsymbol] at h
    cases h
  · cases hplain with
    | ident _ hnone =>
        rw [h] at hnone
        cases hnone
    | _ => rfl

/-- A decimal numeral that is no whole one is a double. -/
theorem isDouble_of_readDouble? {x : Float} (h : readDouble? text = some x)
    (hint : Decimal.readInt? text = none) : (kindOf text).isDouble = true := by
  have hnumber := isNumber_of_readDouble? h
  have hcases := kindOf_cases text
  generalize kindOf text = k at hcases hnumber
  rcases hcases with hsymbol | hplain
  · cases hsymbol with
    | binary o => cases o <;> cases hnumber
    | _ => cases hnumber
  · cases hplain with
    | int hword => simp [Decimal.readWord?, hint] at hword
    | double _ _ => rfl
    | ident _ _ => cases hnumber

theorem all_numeric (h : ∀ c ∈ text, IsNumeric c) :
    text.all (fun c => (c.isDigit || c == '.' || c == '+' || c == '-') || c == 'e' || c == 'E') =
      true := by
  rw [List.all_eq_true]
  intro c hc
  have hnumeric := h c hc
  unfold IsNumeric at hnumeric
  simpa only [Bool.or_eq_true, beq_iff_eq, or_assoc] using hnumeric

/-- A decimal numeral without sign. -/
theorem readDouble?_unsigned {m : Decimal.Magnitude} {c : Char} {rest : List Char}
    (hm : Decimal.readMagnitude? (c :: rest) = some m) (hnumeric : ∀ d ∈ rest, IsNumeric d)
    (hc : c.isDigit = true ∨ c = '.') : readDouble? (c :: rest) = some m.toFloat := by
  have hsplit : Decimal.splitSign (c :: rest) = (false, c :: rest) :=
    splitSign_unsigned (by simpa using ne_sign hc)
  have hfloat : Decimal.readFloat? (c :: rest) = some m.toFloat := by
    simp [Decimal.readFloat?, hsplit, hm]
  have hall := all_numeric (List.forall_mem_cons.2 ⟨(hc.imp_right .inl : IsNumeric c), hnumeric⟩)
  unfold readDouble?
  simp only [hfloat, hall]
  rcases hc with hc | hc <;> simp [hc]

/-- A decimal numeral with a minus sign in front. -/
theorem readDouble?_minus {m : Decimal.Magnitude} (hm : Decimal.readMagnitude? text = some m)
    (hnumeric : ∀ c ∈ text, IsNumeric c) : readDouble? ('-' :: text) = some (-m.toFloat) := by
  have hfloat : Decimal.readFloat? ('-' :: text) = some (-m.toFloat) := by
    simp [Decimal.readFloat?, Decimal.splitSign, hm]
  have hsign : IsNumeric '-' := by simp [IsNumeric]
  have hall := all_numeric (List.forall_mem_cons.2 ⟨hsign, hnumeric⟩)
  unfold readDouble?
  simp only [hfloat, hall]
  simp

theorem isDouble_of_two_signs {c d : Char} (hc : c = '+' ∨ c = '-') (hd : d = '+' ∨ d = '-')
    (text : List Char) : (kindOf (c :: d :: text)).isDouble = false := by
  refine Bool.eq_false_iff.2 fun hdouble => ?_
  obtain ⟨x, hx⟩ := readDouble?_of_isDouble hdouble
  have hfloat : Decimal.readFloat? (c :: d :: text) = none := by
    have hsplit : ∃ negative, Decimal.splitSign (c :: d :: text) = (negative, d :: text) := by
      rcases hc with rfl | rfl <;> exact ⟨_, rfl⟩
    obtain ⟨negative, hsplit⟩ := hsplit
    simp only [Decimal.readFloat?, hsplit, readMagnitude?_sign hd, Option.map_none]
  rw [(readDouble?_eq_some hx).1] at hfloat
  cases hfloat

/-- Among the last `n` tokens of the draft there is a gap or a character that no numeral has, or
there are not so many. -/
def Bars (n : Nat) (draft : Draft) : Prop :=
  draft.length < n ∨
    ∃ x ∈ draft.take n, x = none ∨ ∃ t, x = some t ∧ ∃ c ∈ t.text.toList, ¬ IsNumeric c

theorem Bars.mono {n m : Nat} (h : Bars n draft) (hnm : n ≤ m) : Bars m draft := by
  rcases h with h | ⟨x, hx, hbar⟩
  · exact .inl (Nat.lt_of_lt_of_le h hnm)
  · exact .inr ⟨x, (List.take_subset_take_left draft hnm) hx, hbar⟩

theorem Bars.cons {n : Nat} (h : Bars n draft) (x : Option Token) : Bars (n + 1) (x :: draft) := by
  rcases h with h | ⟨y, hy, hbar⟩
  · exact .inl (Nat.succ_lt_succ h)
  · exact .inr ⟨y, List.mem_cons_of_mem _ hy, hbar⟩

theorem mapM_id_eq_some {α : Type} {xs : List (Option α)} {ys : List α}
    (h : xs.mapM id = some ys) : xs = ys.map some := by
  induction xs generalizing ys with
  | nil =>
      cases h
      rfl
  | cons x xs ih =>
      rw [List.mapM_cons] at h
      obtain ⟨y, hy, h⟩ := Option.bind_eq_some_iff.1 h
      obtain ⟨ys', hys', h⟩ := Option.bind_eq_some_iff.1 h
      cases h
      rw [List.map_cons, ← ih hys', ← hy]
      rfl

/-- No numeral is put together over a bar. -/
theorem fuse?_eq_none {n : Nat} (h : Bars n draft) (text : List Char) :
    fuse? draft n text = none := by
  unfold fuse?
  split
  next first others htokens =>
    have htake : (draft.take n).reverse = (first :: others).map some := mapM_id_eq_some htokens
    split
    next hcount =>
      have hlength : (draft.take n).length = n := by
        rw [← List.length_reverse, htake, List.length_map, List.length_cons, hcount]
      rcases h with hshort | ⟨x, hx, hbar⟩
      · rw [List.length_take] at hlength
        omega
      · rw [← List.mem_reverse, htake] at hx
        obtain ⟨t, ht, rfl⟩ := List.mem_map.1 hx
        obtain ⟨c, hc, hnumeric⟩ : ∃ c ∈ t.text.toList, ¬ IsNumeric c := by
          rcases hbar with hbar | ⟨u, hu, hbar⟩
          · cases hbar
          · cases hu
            exact hbar
        have hwhole : c ∈ ((first :: others).flatMap fun t => t.text.toList) ++ text :=
          List.mem_append_left _ (List.mem_flatMap.2 ⟨t, ht, hc⟩)
        have hdouble : (classify (((first :: others).flatMap fun t => t.text.toList) ++ text)
            first.position).kind.isDouble = false :=
          Bool.eq_false_iff.2 fun hd => hnumeric (isNumeric_of_isDouble hd c hwhole)
        simp only [hdouble, Bool.false_eq_true, if_false]
    next => rfl
  next => rfl

/-- Where a numeral may begin: before it stand signs only, up to something that no numeral has. -/
inductive Ready : Draft → Prop
  | bars {draft : Draft} (h : Bars 1 draft) : Ready draft
  | sign {draft : Draft} {t : Token} {c : Char} (ht : t.text.toList = [c]) (hc : c = '+' ∨ c = '-')
      (h : Ready draft) : Ready (some t :: draft)

theorem ready_nil : Ready [] :=
  .bars (.inl (by decide))

theorem bars_of_mem {t : Token} {c : Char} (hc : c ∈ t.text.toList) (h : ¬ IsNumeric c)
    (draft : Draft) : Bars 1 (some t :: draft) :=
  .inr ⟨some t, List.mem_cons_self, .inr ⟨t, rfl, c, hc, h⟩⟩

theorem bars_gap (draft : Draft) : Bars 1 (none :: draft) :=
  .inr ⟨none, List.mem_cons_self, .inl rfl⟩

/-- A symbol in a numeral is a sign. -/
theorem sign_of_isNumeric {c : Char} (hc : isSymbol c = true) (h : IsNumeric c) :
    c = '+' ∨ c = '-' := by
  simp only [isSymbol, Bool.or_eq_true, beq_iff_eq] at hc
  rcases hc with (((((((rfl | rfl) | rfl) | rfl) | rfl) | rfl) | rfl) | rfl) | rfl <;>
    simp_all [IsNumeric]

/-- Where a numeral may begin, it may begin behind a symbol too. -/
theorem Ready.symbol (h : Ready draft) {c : Char} (hc : isSymbol c = true) (position : Nat) :
    Ready (some (classify [c] position) :: draft) := by
  by_cases hsign : IsNumeric c
  · exact .sign (toList_text_classify _ _) (sign_of_isNumeric hc hsign) h
  · exact .bars (bars_of_mem (by simp) hsign draft)

/-- After an opening parenthesis or a comma a numeral may begin. -/
theorem bars_symbol {c : Char} (hc : isSymbol c = true) (hplus : c ≠ '+') (hminus : c ≠ '-')
    (position : Nat) (draft : Draft) : Bars 1 (some (classify [c] position) :: draft) :=
  bars_of_mem (by simp) (fun h => (sign_of_isNumeric hc h).elim hplus hminus) draft

theorem enter_number (hnumber : (kindOf text).isNumber = true) (position : Nat)
    (hthree : fuse? draft 3 text = none) (htwo : fuse? draft 2 text = none) :
    enter draft (.text text position) = some (classify text position) :: draft := by
  have hident := not_isIdent_of_isNumber hnumber
  simp only [enter, classify, hident, hthree, htwo, Bool.false_eq_true, if_false, ite_self]

/-- Among the last tokens there is a bar, or all of them are signs. -/
theorem Ready.barred_or_signs (h : Ready draft) (n : Nat) :
    Bars n draft ∨ ∃ tokens : List Token, draft.take n = tokens.map some ∧ tokens.length = n ∧
      ∀ t ∈ tokens, ∃ c, t.text.toList = [c] ∧ (c = '+' ∨ c = '-') := by
  induction n generalizing draft with
  | zero => exact .inr ⟨[], rfl, rfl, by simp⟩
  | succ n ih =>
      cases h with
      | bars h => exact .inl (h.mono (by omega))
      | sign ht hc h =>
          rcases ih h with hbars | ⟨tokens, htake, hcount, hsigns⟩
          · exact .inl (hbars.cons _)
          · refine .inr ⟨_ :: tokens, by rw [List.take_succ_cons, htake, List.map_cons],
              by rw [List.length_cons, hcount], ?_⟩
            exact List.forall_mem_cons.2 ⟨⟨_, ht, hc⟩, hsigns⟩

/-- Nothing that stands before becomes part of the numeral. -/
theorem Ready.fuse?_eq_none (h : Ready draft) {n : Nat} (hn : 2 ≤ n) (text : List Char) :
    fuse? draft n text = none := by
  rcases h.barred_or_signs n with hbars | ⟨tokens, htake, hcount, hsigns⟩
  · exact Token.fuse?_eq_none hbars text
  · have hreverse : (draft.take n).reverse = tokens.reverse.map some := by
      rw [htake, List.map_reverse]
    have hmem : ∀ t ∈ tokens.reverse, ∃ c, t.text.toList = [c] ∧ (c = '+' ∨ c = '-') :=
      fun t ht => hsigns t (List.mem_reverse.1 ht)
    have hlength : 2 ≤ tokens.reverse.length := by rw [List.length_reverse, hcount]; exact hn
    obtain ⟨first, second, others, hlist⟩ : ∃ first second others,
        tokens.reverse = first :: second :: others := by
      match tokens.reverse, hlength with
      | first :: second :: others, _ => exact ⟨first, second, others, rfl⟩
    rw [hlist] at hreverse hmem
    obtain ⟨c, hfirst, hc⟩ := hmem first (by simp)
    obtain ⟨d, hsecond, hd⟩ := hmem second (by simp)
    unfold fuse?
    split
    next first' others' htokens =>
      have hsome := hreverse.symm.trans (mapM_id_eq_some htokens)
      have hsame := (List.map_inj_right fun _ _ => Option.some.inj).1 hsome
      obtain ⟨rfl, rfl⟩ := List.cons.inj hsame
      have hdouble := isDouble_of_two_signs hc hd
        (others.flatMap (fun t => t.text.toList) ++ text)
      simp [hfirst, hsecond, classify, hdouble]
    next => rfl

theorem Ready.enter_number (h : Ready draft) (hnumber : (kindOf text).isNumber = true)
    (position : Nat) :
    enter draft (.text text position) = some (classify text position) :: draft :=
  Token.enter_number hnumber position (h.fuse?_eq_none (by decide) text)
    (h.fuse?_eq_none (by decide) text)

end Token

end Reckoner
