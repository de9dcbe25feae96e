import Reckoner.Proofs.Standard.Registry
import Reckoner.Proofs.Token.Signs

/-!
How the tokens of a text are spelled.

Every token of a text stands for what its own characters stand for, but for the minus signs that
turned out to have no left operand. Positions, gaps and fused numerals play no part in this: every
step of cutting a text into tokens classifies the characters that it puts together.
-/
namespace Reckoner

namespace Token

/-- The token stands for its text, or it is a minus sign that has become a negation. -/
def Spelled (t : Token) : Prop :=
  t.kind = kindOf t.text.toList ∨ t.kind = .negate ∧ t.text = "-"

theorem spelled_classify (text : List Char) (position : Nat) :
    Spelled (classify text position) := by
  left
  simp [classify]

@[simp] theorem toList_text_classify (text : List Char) (position : Nat) :
    (classify text position).text.toList = text := by
  simp [classify]

/-! ## What characters stand for -/

/-- What no symbol spells is a number or a name. -/
inductive PlainKind (text : List Char) : TokenKind → Prop
  | int {n : BitVec 64} (h : Decimal.readWord? 64 text = some n) : PlainKind text (.int n)
  | double {x : Float} (hword : Decimal.readWord? 64 text = none) (h : readDouble? text = some x) :
      PlainKind text (.double x)
  | ident (hword : Decimal.readWord? 64 text = none) (hdouble : readDouble? text = none) :
      PlainKind text (.ident (String.ofList text))

/-- The symbols with what they stand for. -/
inductive SymbolKind : List Char → TokenKind → Prop
  | lparen : SymbolKind ['('] .lparen
  | rparen : SymbolKind [')'] .rparen
  | comma : SymbolKind [','] .comma
  | binary (o : BinaryOperator) : SymbolKind o.symbol.toList o.kind

/-- A text is a symbol, or else a number or a name. -/
theorem kindOf_cases (text : List Char) :
    SymbolKind text (kindOf text) ∨ PlainKind text (kindOf text) := by
  unfold kindOf
  split
  · exact .inl .lparen
  · exact .inl .rparen
  · exact .inl (.binary .add)
  · exact .inl (.binary .subtract)
  · exact .inl (.binary .multiply)
  · exact .inl (.binary .divide)
  · exact .inl (.binary .power)
  · exact .inl .comma
  · exact .inl (.binary .assign)
  · right
    cases hword : Decimal.readWord? 64 text with
    | some n => exact .int hword
    | none =>
        cases hdouble : readDouble? text with
        | some x => exact .double hword hdouble
        | none => exact .ident hword hdouble

theorem kindOf_eq_operator {text : List Char} {o : BinaryOperator} (h : kindOf text = o.kind) :
    text = o.symbol.toList := by
  have hcases := kindOf_cases text
  generalize kindOf text = k at hcases h
  rcases hcases with hsymbol | hplain
  · cases hsymbol with
    | binary o' => cases o <;> cases o' <;> first | rfl | cases h
    | _ => cases o <;> cases h
  · cases hplain <;> cases o <;> cases h

theorem kindOf_eq_ident {text : List Char} {x : String} (h : kindOf text = .ident x) :
    x = String.ofList text := by
  have hcases := kindOf_cases text
  generalize kindOf text = k at hcases h
  rcases hcases with hsymbol | hplain
  · cases hsymbol with
    | binary o => cases o <;> cases h
    | _ => cases h
  · cases hplain <;> cases h
    rfl

theorem kindOf_of_isIdent {text : List Char} (h : (kindOf text).isIdent = true) :
    kindOf text = .ident (String.ofList text) := by
  cases hk : kindOf text with
  | ident x => rw [kindOf_eq_ident hk]
  | _ =>
      rw [hk] at h
      cases h

theorem kindOf_ne_tree (text : List Char) (e : Expr) : kindOf text ≠ .tree e := by
  intro h
  have hcases := kindOf_cases text
  generalize kindOf text = k at hcases h
  rcases hcases with hsymbol | hplain
  · cases hsymbol with
    | binary o => cases o <;> cases h
    | _ => cases h
  · cases hplain <;> cases h

/-- An operator is spelled by its symbol. -/
theorem Spelled.text_eq_symbol {t : Token} (h : Spelled t) {o : BinaryOperator}
    (hkind : t.kind = o.kind) : t.text = o.symbol := by
  rcases h with h | ⟨h, -⟩
  · exact String.toList_inj.1 (kindOf_eq_operator (h.symm.trans hkind))
  · rw [hkind] at h
    cases o <;> cases h

/-- A name is spelled by itself. -/
theorem Spelled.text_eq_ident {t : Token} (h : Spelled t) {x : String} (hkind : t.kind = .ident x) :
    t.text = x := by
  rcases h with h | ⟨h, -⟩
  · rw [kindOf_eq_ident (h.symm.trans hkind), String.ofList_toList]
  · rw [hkind] at h
    cases h

/-- No text stands for a part of the input that has been read. -/
theorem Spelled.kind_ne_tree {t : Token} (h : Spelled t) (e : Expr) : t.kind ≠ .tree e := by
  intro hkind
  rcases h with h | ⟨h, -⟩
  · exact kindOf_ne_tree _ e (h.symm.trans hkind)
  · rw [hkind] at h
    cases h

/-! ## The draft -/

/-- All tokens of a draft have the property. -/
def DraftAll (P : Token → Prop) (draft : Draft) : Prop :=
  ∀ t : Token, some t ∈ draft → P t

theorem fuse?_eq_classify {draft : Draft} {n : Nat} {text : List Char} {t : Token}
    (h : fuse? draft n text = some t) : ∃ chars position, t = classify chars position := by
  unfold fuse? at h
  split at h
  · split at h
    · simp only at h
      split at h
      · cases h
        exact ⟨_, _, rfl⟩
      · cases h
    · cases h
  · cases h

/-- The tokens of a run by itself: two if it is a numeral with a name glued to it, else one. -/
def ofRun (run : List Char) (position : Nat) : List Token :=
  if (kindOf run).isIdent then
    match splitNumeral? run with
    | some (numeral, name) =>
      [classify numeral position, classify name (position + (String.ofList numeral).utf8ByteSize)]
    | none => [classify run position]
  else
    [classify run position]

theorem ofRun_cases (run : List Char) (position : Nat) :
    (∃ numeral name, splitNumeral? run = some (numeral, name) ∧ ofRun run position =
      [classify numeral position,
        classify name (position + (String.ofList numeral).utf8ByteSize)]) ∨
    (((kindOf run).isIdent = true → splitNumeral? run = none) ∧
      ofRun run position = [classify run position]) := by
  unfold ofRun
  by_cases hident : (kindOf run).isIdent = true
  · rw [if_pos hident]
    cases hsplit : splitNumeral? run with
    | some parts => exact .inl ⟨parts.1, parts.2, rfl, rfl⟩
    | none => exact .inr ⟨fun _ => rfl, rfl⟩
  · rw [if_neg hident]
    exact .inr ⟨fun h => absurd h hident, rfl⟩

theorem not_isIdent_of_isInt {k : TokenKind} (h : k.isInt = true) : k.isIdent = false := by
  cases k <;> simp_all [TokenKind.isInt, TokenKind.isIdent]

/-- A run that is entered ends a numeral that has been begun, or stands by itself. -/
theorem enter_cases (draft : Draft) (run : List Char) (position : Nat) :
    (∃ n t, (n = 2 ∨ n = 3) ∧ (kindOf run).isInt = true ∧ fuse? draft n run = some t ∧
      enter draft (.text run position) = some t :: draft.drop n) ∨
    enter draft (.text run position) = ((ofRun run position).map some).reverse ++ draft := by
  by_cases hint : (kindOf run).isInt = true
  · simp only [enter, ofRun, classify, hint, not_isIdent_of_isInt hint, if_true]
    cases hthree : fuse? draft 3 run with
    | some t => exact .inl ⟨3, t, .inr rfl, trivial, hthree, rfl⟩
    | none =>
        cases htwo : fuse? draft 2 run with
        | some t => exact .inl ⟨2, t, .inl rfl, trivial, htwo, rfl⟩
        | none => exact .inr rfl
  · right
    simp only [enter, ofRun, classify, hint]
    by_cases hident : (kindOf run).isIdent = true
    · cases hsplit : splitNumeral? run <;> simp [hident]
    · simp [hident]

/-- A name is no end of a numeral. -/
theorem enter_of_isIdent {run : List Char} (h : (kindOf run).isIdent = true) (draft : Draft)
    (position : Nat) :
    enter draft (.text run position) = ((ofRun run position).map some).reverse ++ draft := by
  rcases enter_cases draft run position with ⟨-, -, -, hint, -⟩ | henter
  · exact absurd (h.symm.trans (not_isIdent_of_isInt hint)) (by decide)
  · exact henter

/-- A piece adds tokens that are classified from characters. -/
theorem DraftAll.enter {P : Token → Prop} (hP : ∀ chars position, P (classify chars position))
    {draft : Draft} (h : DraftAll P draft) (piece : Piece) : DraftAll P (enter draft piece) := by
  cases piece with
  | gap =>
      intro t ht
      exact h t (by simpa [Token.enter] using ht)
  | text run position =>
      rcases enter_cases draft run position with ⟨n, whole, -, -, hfuse, henter⟩ | henter
      · intro t ht
        rw [henter] at ht
        rcases List.mem_cons.1 ht with ht | ht
        · obtain rfl := Option.some.inj ht
          obtain ⟨chars, first, rfl⟩ := fuse?_eq_classify hfuse
          exact hP chars first
        · exact h t (List.mem_of_mem_drop ht)
      · have hrun : ∀ t ∈ ofRun run position, P t := by
          rcases ofRun_cases run position with ⟨numeral, name, -, hrun⟩ | ⟨-, hrun⟩
          · simp [hrun, hP]
          · simp [hrun, hP]
        intro t ht
        rw [henter] at ht
        rcases List.mem_append.1 ht with ht | ht
        · exact hrun t (by simpa using ht)
        · exact h t ht

theorem DraftAll.foldl_enter {P : Token → Prop} (hP : ∀ chars position, P (classify chars position))
    {draft : Draft} (h : DraftAll P draft) (pieces : List Piece) :
    DraftAll P (pieces.foldl Token.enter draft) := by
  induction pieces generalizing draft with
  | nil => exact h
  | cons piece pieces ih => exact ih (h.enter hP piece)

/-! ## Minus signs -/

theorem spelled_negate {t : Token} (h : Spelled t) (hminus : t.kind.isMinus = true) :
    Spelled { t with kind := .negate } := by
  right
  have hkind : t.kind = BinaryOperator.subtract.kind := by
    cases hk : t.kind <;> simp_all [TokenKind.isMinus, BinaryOperator.kind]
  exact ⟨rfl, h.text_eq_symbol hkind⟩

/-- Every token of a text is spelled as what it stands for. -/
theorem spelled_of_mem_scan {text : String} {t : Token} (h : t ∈ scan text) : Spelled t := by
  have hdraft : DraftAll Spelled ((pieces [] 0 0 text.toList).foldl enter []) :=
    DraftAll.foldl_enter spelled_classify (by simp [DraftAll]) _
  obtain ⟨x, hx, rfl⟩ := List.mem_filterMap.1 h
  rcases mem_settleSigns hx with ⟨u, hu, rfl | ⟨hminus, rfl⟩⟩ | ⟨u, position, -, -, rfl⟩
  · exact hdraft t (List.mem_reverse.1 hu)
  · exact spelled_negate (hdraft u (List.mem_reverse.1 hu)) hminus
  · exact spelled_classify _ _

end Token

end Reckoner
