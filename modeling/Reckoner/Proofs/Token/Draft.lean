import Mathlib.Data.List.Basic
import Reckoner.Proofs.Token.Glued

/-!
What stands in a draft.

`Laid` lists the ways in which tokens get into a draft: symbols, runs, runs cut in two, and numerals
put together over a signed exponent. A run only ever follows a gap or a symbol. From this it follows
that the names in a text are read back as they are, and that no numeral begins with a sign before
the minus signs are settled.
-/
namespace Reckoner

namespace Token

/-- The text is read as the name that it spells. -/
structure IsName (text : List Char) : Prop where
  ne_nil : text ≠ []
  plain : ∀ c ∈ text, IsPlain c
  ident : (kindOf text).isIdent = true
  whole : splitNumeral? text = none

instance (text : List Char) : Decidable (IsName text) :=
  decidable_of_iff (text ≠ [] ∧ text.all (fun c => decide (IsPlain c)) = true ∧
      (kindOf text).isIdent = true ∧ splitNumeral? text = none)
    ⟨fun h => ⟨h.1, by simpa using h.2.1, h.2.2.1, h.2.2.2⟩,
      fun h => ⟨h.ne_nil, by simpa using h.plain, h.ident, h.whole⟩⟩

theorem IsName.kind {name : String} (h : IsName name.toList) :
    kindOf name.toList = .ident name := by
  rw [kindOf_of_isIdent h.ident, String.ofList_toList]

/-- A name is entered as one token. -/
theorem IsName.enter {text : List Char} (h : IsName text) (draft : Draft) (position : Nat) :
    enter draft (.text text position) = some (classify text position) :: draft := by
  rw [enter_of_isIdent h.ident, ofRun, if_pos h.ident, h.whole]
  rfl

/-- A draft by what got into it, the latest first; the flag says whether a run may come next. -/
inductive Laid : Bool → Draft → Prop
  | nil : Laid true []
  | gap {b : Bool} {draft : Draft} (h : Laid b draft) : Laid true (none :: draft)
  | symbol {b : Bool} {draft : Draft} {c : Char} (position : Nat) (hc : isSymbol c = true)
      (h : Laid b draft) : Laid true (some (classify [c] position) :: draft)
  | run {draft : Draft} {text : List Char} (position : Nat) (hne : text ≠ [])
      (hplain : ∀ c ∈ text, IsPlain c)
      (hwhole : (kindOf text).isIdent = true → splitNumeral? text = none) (h : Laid true draft) :
      Laid false (some (classify text position) :: draft)
  | cut {draft : Draft} {numeral name : List Char} (first second : Nat) (hname : name ≠ [])
      (hnumeral : numeral ≠ []) (hplain : ∀ c ∈ numeral ++ name, IsPlain c)
      (hnumeralWhole : splitNumeral? numeral = none)
      (hnameWhole : splitNumeral? name = none ∨ name.head? = some '.')
      (hpoint : name.head? = some '.' → IsFractional numeral) (h : Laid true draft) :
      Laid false (some (classify name second) :: some (classify numeral first) :: draft)
  | fused {b : Bool} {draft : Draft} {text : List Char} (position : Nat)
      (hdouble : (kindOf text).isDouble = true) (hhead : ∀ c ∈ text.head?, isSymbol c = false)
      (h : Laid b draft) : Laid false (some (classify text position) :: draft)

variable {b : Bool} {draft : Draft} {text : List Char} {t u : Token}

theorem Laid.tail {x : Option Token} (h : Laid b (x :: draft)) : ∃ b', Laid b' draft := by
  cases h with
  | gap h => exact ⟨_, h⟩
  | symbol _ _ h => exact ⟨_, h⟩
  | run _ _ _ _ h => exact ⟨_, h⟩
  | cut first _ _ hnumeral hplain hwhole _ _ h =>
      exact ⟨false, .run first hnumeral (fun c hc => hplain c (List.mem_append_left _ hc))
        (fun _ => hwhole) h⟩
  | fused _ _ _ h => exact ⟨_, h⟩

theorem Laid.drop (h : Laid b draft) (n : Nat) : ∃ b', Laid b' (draft.drop n) := by
  induction n generalizing b draft with
  | zero => exact ⟨b, h⟩
  | succ n ih =>
      cases draft with
      | nil => exact ⟨b, h⟩
      | cons x draft =>
          obtain ⟨b', h'⟩ := h.tail
          exact ih h'

theorem Laid.text_ne_nil (h : Laid b (some t :: draft)) : t.text.toList ≠ [] := by
  cases h with
  | symbol _ _ _ => simp
  | run _ hne _ _ _ => simpa using hne
  | cut _ _ hname _ _ _ _ _ _ => simpa using hname
  | fused _ hdouble _ _ =>
      rw [toList_text_classify]
      rintro rfl
      cases hdouble

/-- A token whose text begins with a symbol is that symbol. -/
theorem Laid.symbol_of_head (h : Laid b (some t :: draft)) {c : Char}
    (hhead : t.text.toList.head? = some c) (hc : isSymbol c = true) : t.text.toList = [c] := by
  have hplainHead : ∀ {text : List Char}, (∀ c ∈ text, IsPlain c) → text.head? = some c → False := by
    intro text hplain hhead
    have hsymbol := (hplain c (List.mem_of_head? hhead)).2
    rw [hc] at hsymbol
    cases hsymbol
  cases h with
  | symbol _ _ _ =>
      rw [toList_text_classify] at hhead ⊢
      obtain rfl := Option.some.inj hhead
      rfl
  | run _ _ hplain _ _ =>
      rw [toList_text_classify] at hhead
      exact (hplainHead hplain hhead).elim
  | cut _ _ _ _ hplain _ _ _ _ =>
      rw [toList_text_classify] at hhead
      exact (hplainHead (fun c hc => hplain c (List.mem_append_right _ hc)) hhead).elim
  | fused _ _ hfirst _ =>
      rw [toList_text_classify] at hhead
      rw [hfirst c hhead] at hc
      cases hc

/-- Where a run may come next, the last token is a symbol. -/
theorem Laid.symbol_of_true (h : Laid true (some t :: draft)) :
    ∃ c, isSymbol c = true ∧ t.text.toList = [c] := by
  cases h with
  | symbol position hc _ => exact ⟨_, hc, toList_text_classify _ _⟩

/-- What a run spells is a number or a name. -/
theorem isIdent_of_plain (hplain : ∀ c ∈ text, IsPlain c)
    (hnumber : (kindOf text).isNumber = false) : (kindOf text).isIdent = true := by
  have hsymbol : ∀ c, isSymbol c = true → text ≠ [c] := by
    rintro c hc rfl
    have hfalse := (hplain c List.mem_cons_self).2
    rw [hc] at hfalse
    cases hfalse
  have hcases := kindOf_cases text
  generalize kindOf text = k at hcases hnumber
  rcases hcases with hkind | hkind
  · cases hkind with
    | lparen => exact absurd rfl (hsymbol '(' rfl)
    | rparen => exact absurd rfl (hsymbol ')' rfl)
    | comma => exact absurd rfl (hsymbol ',' rfl)
    | binary o => cases o <;> exact absurd rfl (hsymbol _ (by decide))
  · cases hkind with
    | ident _ _ => rfl
    | _ => cases hnumber

/-- A sign does not stand right before a token and a further sign that a numeral goes on from. -/
theorem Laid.not_isDouble_of_signs (h : Laid b (some u :: some t :: draft)) {c d : Char}
    (ht : t.text.toList = [c]) (hsymbol : isSymbol c = true) (hc : c = '+' ∨ c = '-')
    (hd : d = '+' ∨ d = '-') (after : List Char) :
    (kindOf (c :: u.text.toList ++ d :: after)).isDouble = false := by
  refine Bool.eq_false_iff.2 fun hdouble => ?_
  obtain ⟨hnumber, hcut⟩ := cut_of_two_signs hc hd hdouble
  cases h with
  | symbol position hc' _ =>
      rw [toList_text_classify] at hcut
      obtain ⟨-, hdigit, hpoint⟩ := isSymbol_spec hc'
      exact hcut (splitNumeral?_of_head hdigit hpoint)
  | run _ _ hplain hwhole _ =>
      rw [toList_text_classify] at hcut hnumber
      exact hcut (hwhole (isIdent_of_plain hplain hnumber))
  | cut _ _ _ hnumeral hplain _ _ _ _ =>
      rw [toList_text_classify] at ht
      have hfalse := (hplain c (by simp [ht])).2
      rw [hsymbol] at hfalse
      cases hfalse
  | fused _ hdouble' _ _ =>
      rw [toList_text_classify] at hnumber
      exact absurd ((isNumber_of_isDouble hdouble').symm.trans hnumber) (by decide)

/-! ## Entering pieces -/

/-- What is put together is a double, and is made of the last tokens of the draft. -/
theorem fuse?_eq_some {n : Nat} (h : fuse? draft n text = some t) :
    ∃ (first : Token) (others : List Token),
      draft = ((first :: others).map some).reverse ++ draft.drop n ∧ others.length + 1 = n ∧
      t = classify ((first :: others).flatMap (fun t => t.text.toList) ++ text) first.position ∧
      t.kind.isDouble = true := by
  unfold fuse? at h
  split at h
  next first others htokens =>
    split at h
    next hcount =>
      simp only at h
      split at h
      next hdouble =>
        cases h
        refine ⟨first, others, ?_, hcount, rfl, hdouble⟩
        rw [← mapM_id_eq_some htokens, List.reverse_reverse, List.take_append_drop]
      next => cases h
    next => cases h
  next => cases h

/-- A numeral that is put together does not begin with a symbol. -/
theorem Laid.head_of_fuse (h : Laid true draft) {n : Nat} (hn : n = 2 ∨ n = 3)
    (hfuse : fuse? draft n text = some t) : ∀ c ∈ t.text.toList.head?, isSymbol c = false := by
  obtain ⟨first, others, hdraft, hcount, rfl, hdouble⟩ := fuse?_eq_some hfuse
  rw [toList_text_classify]
  intro c hc
  refine Bool.eq_false_iff.2 fun hsymbol => ?_
  have hnumeric := isNumeric_of_isDouble hdouble
  have hsign : c = '+' ∨ c = '-' := sign_of_isNumeric hsymbol (hnumeric c (List.mem_of_mem_head? hc))
  generalize draft.drop n = rest at hdraft
  have hhead : ∀ {first : Token} {b : Bool} {draft : Draft} {more : List Char},
      Laid b (some first :: draft) → (first.text.toList ++ more).head? = some c →
      first.text.toList = [c] := by
    intro first b draft more h hc
    rw [List.head?_append_of_ne_nil _ h.text_ne_nil] at hc
    exact h.symbol_of_head hc hsymbol
  rcases hn with rfl | rfl
  · obtain ⟨second, rfl⟩ := List.length_eq_one_iff.1 (Nat.succ.inj hcount)
    obtain rfl : draft = some second :: some first :: rest := hdraft
    obtain ⟨d, hd, hsecond⟩ := h.symbol_of_true
    obtain ⟨_, htail⟩ := h.tail
    simp only [List.flatMap_cons, List.flatMap_nil, List.append_nil, List.append_assoc] at *
    have hfirst := hhead htail hc
    have hdsign := sign_of_isNumeric hd (hnumeric d (by simp [hsecond]))
    rw [hfirst, hsecond] at hdouble
    exact absurd (hdouble.symm.trans (isDouble_of_two_signs hsign hdsign text)) (by decide)
  · obtain ⟨second, third, rfl⟩ := List.length_eq_two.1 (Nat.succ.inj hcount)
    obtain rfl : draft = some third :: some second :: some first :: rest := hdraft
    obtain ⟨d, hd, hthird⟩ := h.symbol_of_true
    obtain ⟨_, htail⟩ := h.tail
    obtain ⟨_, htail'⟩ := htail.tail
    simp only [List.flatMap_cons, List.flatMap_nil, List.append_nil, List.append_assoc] at *
    have hfirst := hhead htail' hc
    have hdsign := sign_of_isNumeric hd (hnumeric d (by simp [hthird]))
    have hnot := htail.not_isDouble_of_signs hfirst hsymbol hsign hdsign text
    rw [hfirst, hthird] at hdouble
    exact absurd (hdouble.symm.trans hnot) (by decide)

theorem Laid.fuse (h : Laid true draft) {n : Nat} (hn : n = 2 ∨ n = 3)
    (hfuse : fuse? draft n text = some t) : Laid false (some t :: draft.drop n) := by
  obtain ⟨b, hrest⟩ := h.drop n
  have hhead := h.head_of_fuse hn hfuse
  obtain ⟨first, others, -, -, rfl, hdouble⟩ := fuse?_eq_some hfuse
  rw [toList_text_classify] at hhead
  exact .fused first.position hdouble hhead hrest

theorem Laid.enter_run (h : Laid true draft) (hne : text ≠ []) (hplain : ∀ c ∈ text, IsPlain c)
    (position : Nat) : Laid false (enter draft (.text text position)) := by
  rcases enter_cases draft text position with ⟨n, t, hn, -, hfuse, henter⟩ | henter
  · rw [henter]
    exact h.fuse hn hfuse
  · rw [henter]
    rcases ofRun_cases text position with ⟨numeral, name, hsplit, hrun⟩ | ⟨hwhole, hrun⟩
    · obtain ⟨rfl, hnumeral, hname, hnumeralWhole, hnameWhole⟩ := splitNumeral?_spec hsplit
      rw [hrun]
      exact .cut _ _ hname hnumeral hplain hnumeralWhole hnameWhole
        (isFractional_of_splitNumeral? hsplit) h
    · rw [hrun]
      exact .run position hne hplain hwhole h

/-- Ending the run of a cursor keeps the draft laid. -/
theorem Laid.closed {k : Cursor} (h : Laid true k.draft) (hplain : ∀ c ∈ k.run, IsPlain c) :
    ∃ b, Laid b k.closed := by
  by_cases hrun : k.run = []
  · refine ⟨true, ?_⟩
    simpa [Cursor.closed, Piece.ofRun, hrun] using h
  · rw [k.closed_of_ne_nil hrun]
    exact ⟨false, h.enter_run hrun hplain k.start⟩

theorem Laid.parted {k : Cursor} (h : Laid true k.draft) (hplain : ∀ c ∈ k.run, IsPlain c) :
    Laid true k.parted := by
  obtain ⟨b, hclosed⟩ := h.closed hplain
  unfold Cursor.parted
  split
  · exact h
  · exact hclosed.gap

/-- A draft is laid however far a text is read. -/
theorem Laid.finish {k : Cursor} (h : Laid true k.draft) (hplain : ∀ c ∈ k.run, IsPlain c)
    (text : List Char) : ∃ b, Laid b (k.finish text) := by
  have hfinal : ∃ l : Cursor,
      (Laid true l.draft ∧ ∀ c ∈ l.run, IsPlain c) ∧ k.finish text = l.closed := by
    refine Cursor.finish_invariant (I := fun _ k => Laid true k.draft ∧ ∀ c ∈ k.run, IsPlain c)
      ?_ ?_ ?_ [] ⟨h, hplain⟩ text
    · rintro _ k c - ⟨h, hplain⟩
      exact ⟨h.parted hplain, by simp [Cursor.after]⟩
    · rintro _ k c hsymbol ⟨h, hplain⟩
      obtain ⟨b, hclosed⟩ := h.closed hplain
      exact ⟨.symbol k.position hsymbol hclosed, by simp [Cursor.after]⟩
    · rintro _ k c hc ⟨h, hplain⟩
      exact ⟨h, List.forall_mem_append.2 ⟨hplain, by simpa using hc⟩⟩
  obtain ⟨l, ⟨hlaid, hrun⟩, hfinish⟩ := hfinal
  rw [hfinish]
  exact hlaid.closed hrun

theorem exists_laid (text : String) :
    ∃ b, Laid b ((pieces [] 0 0 text.toList).foldl enter []) :=
  Laid.finish (k := .after [] 0) .nil (by simp [Cursor.after]) text.toList

/-! ## Names and numbers -/

theorem Laid.exists_of_mem (h : Laid b draft) (ht : some t ∈ draft) :
    ∃ b' rest, (some t :: rest) <:+ draft ∧ Laid b' (some t :: rest) := by
  induction draft generalizing b with
  | nil => cases ht
  | cons x draft ih =>
      rcases List.mem_cons.1 ht with rfl | ht
      · exact ⟨b, draft, List.suffix_refl _, h⟩
      · obtain ⟨b', h'⟩ := h.tail
        obtain ⟨b'', rest, hsuffix, hrest⟩ := ih h' ht
        exact ⟨b'', rest, hsuffix.trans (List.suffix_cons _ _), hrest⟩

/-- A name of a draft is read back as it is, unless it begins with a point and was cut off from a
numeral, which is no whole one. -/
theorem Laid.isName (h : Laid b draft) (ht : some t ∈ draft) (hident : t.kind.isIdent = true) :
    IsName t.text.toList ∨ t.text.toList.head? = some '.' ∧
      ∃ u, some u ∈ draft ∧ u.kind = kindOf u.text.toList ∧ IsFractional u.text.toList := by
  obtain ⟨b', rest, hsuffix, h'⟩ := h.exists_of_mem ht
  cases h' with
  | symbol position hc _ => exact absurd (hident.symm.trans (kindOf_symbol hc).2.2) (by decide)
  | run position hne hplain hwhole _ =>
      rw [toList_text_classify]
      exact .inl ⟨hne, hplain, hident, hwhole hident⟩
  | @cut _ numeral name first second hname _ hplain _ hnameWhole hpoint _ =>
      rw [toList_text_classify]
      rcases hnameWhole with hwhole | hhead
      · exact .inl ⟨hname, fun c hc => hplain c (List.mem_append_right _ hc), hident, hwhole⟩
      · refine .inr ⟨hhead, classify numeral first, hsuffix.subset (by simp), ?_, ?_⟩
        · simp [classify]
        · rw [toList_text_classify]
          exact hpoint hhead
  | fused position hdouble _ _ =>
      exact absurd hident (by simp [not_isIdent_of_isNumber (isNumber_of_isDouble hdouble), classify])

/-- A number of a draft is read from its text, which does not begin with a sign. -/
theorem Laid.number (h : Laid b draft) (ht : some t ∈ draft) (hnumber : t.isNumber = true) :
    (kindOf t.text.toList).isNumber = true ∧ ∀ c ∈ t.text.toList.head?, c ≠ '+' ∧ c ≠ '-' := by
  obtain ⟨b', rest, -, h'⟩ := h.exists_of_mem ht
  have hkind : t.kind = kindOf t.text.toList := by
    cases h' <;> simp [classify]
  refine ⟨hkind ▸ hnumber, fun c hc => ?_⟩
  have hsymbol : isSymbol c = false := by
    refine Bool.eq_false_iff.2 fun hsymbol => ?_
    have htext := h'.symbol_of_head hc hsymbol
    rw [isNumber, hkind, htext, (kindOf_symbol hsymbol).2.1] at hnumber
    cases hnumber
  constructor <;> rintro rfl <;> cases hsymbol

/-- The whole numerals are decimal numerals. -/
theorem readMagnitude?_of_isNumber (h : (kindOf text).isNumber = true)
    (hhead : ∀ c ∈ text.head?, c ≠ '+' ∧ c ≠ '-') :
    (∃ m, Decimal.readMagnitude? text = some m) ∧ ∀ c ∈ text, IsNumeric c := by
  have hsplit := splitSign_unsigned hhead
  rcases exists_of_isNumber h with ⟨n, hn⟩ | ⟨x, hx⟩
  · have hdigits := isDigit_of_readInt?_unsigned hhead hn
    refine ⟨?_, fun c hc => .inl (hdigits.2 c hc)⟩
    obtain ⟨htake, hdrop⟩ := takeWhile_append_of_digits hdigits.2 [] (by simp)
    rw [List.append_nil] at htake hdrop
    have hscaled : ∃ m, Decimal.readScaled? text = some m := by
      unfold Decimal.readScaled?
      simp [htake, hdrop, hdigits.1, Decimal.readExponent?]
    obtain ⟨m, hm⟩ := hscaled
    unfold Decimal.readMagnitude?
    simp only [hm]
    split
    · exact ⟨_, rfl⟩
    · split <;> exact ⟨_, rfl⟩
  · obtain ⟨hfloat, hnumeric⟩ := readDouble?_eq_some hx
    simp only [Decimal.readFloat?, hsplit] at hfloat
    obtain ⟨m, hm, -⟩ := Option.map_eq_some_iff.1 hfloat
    exact ⟨⟨m, hm⟩, hnumeric⟩

/-- A number with a minus sign in front is a number. -/
theorem isNumber_minus (h : (kindOf text).isNumber = true)
    (hhead : ∀ c ∈ text.head?, c ≠ '+' ∧ c ≠ '-') : (kindOf ('-' :: text)).isNumber = true := by
  obtain ⟨⟨m, hm⟩, hnumeric⟩ := readMagnitude?_of_isNumber h hhead
  exact isNumber_of_readDouble? (readDouble?_minus hm hnumeric)

/-- A name of a text is read back as it is, unless it begins with a point and there is a double. -/
theorem isName_or_double {text : String} (h : t ∈ scan text) (hident : t.kind.isIdent = true) :
    IsName t.text.toList ∨
      t.text.toList.head? = some '.' ∧ ∃ u ∈ scan text, u.kind.isDouble = true := by
  obtain ⟨b, hlaid⟩ := exists_laid text
  obtain ⟨x, hx, rfl⟩ := List.mem_filterMap.1 h
  rcases mem_settleSigns hx with ⟨u, hu, rfl | ⟨-, rfl⟩⟩ | ⟨u, position, hu, hnumber, rfl⟩
  · refine (hlaid.isName (List.mem_reverse.1 hu) hident).imp_right ?_
    rintro ⟨hhead, u, hu, hkind, hdouble, hminus⟩
    have hnumber : u.isNumber = true := isNumber_of_isDouble (hkind ▸ hdouble)
    refine ⟨hhead, ?_⟩
    rcases mem_settleSigns_of_number hnumber (List.mem_reverse.2 hu) with hmem | ⟨position, hmem⟩
    · exact ⟨u, List.mem_filterMap.2 ⟨_, hmem, rfl⟩, hkind ▸ hdouble⟩
    · exact ⟨withMinus u position, List.mem_filterMap.2 ⟨_, hmem, rfl⟩, hminus⟩
  · cases hident
  · obtain ⟨hkind, hhead⟩ := hlaid.number (List.mem_reverse.1 hu) hnumber
    have hminus : (withMinus u position).kind.isNumber = true := isNumber_minus hkind hhead
    exact absurd (hident.symm.trans (not_isIdent_of_isNumber hminus)) (by decide)

theorem isName_of_mem_scan {text : String} (h : t ∈ scan text) (hident : t.kind.isIdent = true)
    (hpoint : t.text.toList.head? ≠ some '.') : IsName t.text.toList :=
  (isName_or_double h hident).resolve_right fun hdouble => hpoint hdouble.1

end Token

end Reckoner
