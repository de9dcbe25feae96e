import Reckoner.Proofs.Token.Gaps

/-!
Where minus signs stand.

A minus sign between operands follows an operand, and one that has no left operand is first or
follows a token that leaves room for an operand. So does a number with a minus sign in front, since
that sign was one without a left operand. And no negation is left before a number whose sign it
could have become.

Only a minus sign that is the one token of a text is no negation although it has no left operand.
-/
namespace Reckoner

/-- An operand may end here. -/
inductive TokenKind.EndsOperand : TokenKind → Prop
  | int (n : BitVec 64) : EndsOperand (.int n)
  | double (x : Float) : EndsOperand (.double x)
  | ident (name : String) : EndsOperand (.ident name)
  | rparen : EndsOperand .rparen

/-- An operand may come next. -/
inductive TokenKind.AwaitsOperand : TokenKind → Prop
  | lparen : AwaitsOperand .lparen
  | plus : AwaitsOperand .plus
  | minus : AwaitsOperand .minus
  | negate : AwaitsOperand .negate
  | asterisk : AwaitsOperand .asterisk
  | slash : AwaitsOperand .slash
  | circumflex : AwaitsOperand .circumflex
  | comma : AwaitsOperand .comma
  | equals : AwaitsOperand .equals

namespace Token

variable {free : Bool} {t u : Token} {before after tokens out rest : List Token}
  {previous : Option Token}

/-- The text begins with a minus sign. -/
def HasMinus (t : Token) : Prop :=
  t.text.toList.head? = some '-'

/-- How a token may follow the one before it, or come first. -/
structure Succeeds (previous : Option Token) (t : Token) : Prop where
  minus : t.kind = .minus → ∃ u ∈ previous, u.kind.EndsOperand
  negation : t.kind = .negate ∨ t.isNumber = true ∧ HasMinus t →
    ∀ u ∈ previous, u.kind.AwaitsOperand
  number : t.isNumber = true → ¬ HasMinus t → ∀ u ∈ previous, u.kind ≠ .negate

/-- Every token of the list may follow the one before it. -/
inductive InOrder : Option Token → List Token → Prop
  | nil {previous : Option Token} : InOrder previous []
  | cons {previous : Option Token} {t : Token} {rest : List Token} (h : Succeeds previous t)
      (hrest : InOrder (some t) rest) : InOrder previous (t :: rest)

theorem InOrder.succeeds (h : InOrder previous (before ++ t :: after)) :
    Succeeds (before.getLast?.or previous) t := by
  induction before generalizing previous with
  | nil =>
      cases h with
      | cons h _ => exact h
  | cons u before ih =>
      cases h with
      | cons _ hrest =>
          have hsucceeds := ih hrest
          cases before with
          | nil => exact hsucceeds
          | cons v before => simpa [List.getLast?_cons] using hsucceeds

/-- The flag tells whether a minus sign has no left operand behind the token. -/
inductive Room : Bool → Option Token → Prop
  | free {previous : Option Token} (h : ∀ u ∈ previous, u.kind.AwaitsOperand) : Room true previous
  | taken {u : Token} (h : u.kind.EndsOperand) : Room false (some u)

theorem room_of_drafted (h : Drafted t) : Room t.kind.opensNegation (some t) := by
  cases hk : t.kind with
  | int n => exact .taken (hk ▸ .int n)
  | double x => exact .taken (hk ▸ .double x)
  | ident name => exact .taken (hk ▸ .ident name)
  | rparen => exact .taken (hk ▸ .rparen)
  | tree e => exact absurd (h.kind.symm.trans hk) (kindOf_ne_tree _ e)
  | lparen => exact .free (by simpa [hk] using .lparen)
  | plus => exact .free (by simpa [hk] using .plus)
  | minus => exact .free (by simpa [hk] using .minus)
  | negate => exact .free (by simpa [hk] using .negate)
  | asterisk => exact .free (by simpa [hk] using .asterisk)
  | slash => exact .free (by simpa [hk] using .slash)
  | circumflex => exact .free (by simpa [hk] using .circumflex)
  | comma => exact .free (by simpa [hk] using .comma)
  | equals => exact .free (by simpa [hk] using .equals)

theorem endsOperand_of_isNumber (h : t.isNumber = true) : t.kind.EndsOperand := by
  unfold isNumber at h
  cases hk : t.kind with
  | int n => exact .int n
  | double x => exact .double x
  | _ =>
      rw [hk] at h
      cases h

theorem Drafted.not_hasMinus (h : Drafted t) (hnumber : t.isNumber = true) : ¬ HasMinus t :=
  fun hminus => (h.unsigned hnumber '-' hminus).2 rfl

theorem hasMinus_withMinus (u : Token) (position : Nat) : HasMinus (withMinus u position) := by
  simp [HasMinus, withMinus]

theorem isNumber_withMinus (h : Drafted u) (hnumber : u.isNumber = true) (position : Nat) :
    (withMinus u position).isNumber = true := by
  have hkind : (kindOf u.text.toList).isNumber = true := h.kind ▸ hnumber
  exact isNumber_minus hkind (h.unsigned hnumber)

/-- Settled tokens are in order if no number follows a negation right away. -/
theorem Settles.inOrder (h : Settles free tokens out) (hdrafted : ∀ t ∈ tokens, Drafted t)
    (hroom : Room free previous)
    (hhead : ∀ u ∈ previous, u.kind = .negate → ∀ t ∈ tokens.head?, t.isNumber = false) :
    InOrder previous out := by
  induction h generalizing previous with
  | nil => exact .nil
  | @keep free t rest out hminus hnot _ ih =>
      obtain ⟨ht, hrest⟩ := List.forall_mem_cons.1 hdrafted
      have hnegate : t.kind ≠ .negate := by
        intro hnegate
        rw [hnegate] at hnot
        cases hnot
      refine .cons ⟨fun hkind => ?_, fun hnegation => ?_, fun hnumber _ u hu hk => ?_⟩
        (ih hrest (room_of_drafted ht) fun u hu hk => ?_)
      · obtain rfl := hminus hkind
        cases hroom with
        | taken h => exact ⟨_, rfl, h⟩
      · rcases hnegation with hnegation | ⟨hnumber, hsign⟩
        · exact absurd hnegation hnegate
        · exact absurd hsign (ht.not_hasMinus hnumber)
      · have hnot := hhead u hu hk t rfl
        rw [hnumber] at hnot
        cases hnot
      · obtain rfl := Option.mem_some.1 hu
        exact absurd hk hnegate
  | @fold position u rest out hu _ ih =>
      obtain ⟨-, hdrafted⟩ := List.forall_mem_cons.1 hdrafted
      obtain ⟨hudrafted, hrest⟩ := List.forall_mem_cons.1 hdrafted
      have hnumber := isNumber_withMinus hudrafted hu position
      have hends := endsOperand_of_isNumber hnumber
      refine .cons ⟨fun hkind => ?_, fun _ => ?_, fun _ hnot => ?_⟩
        (ih hrest (.taken hends) fun v hv hk => ?_)
      · rw [hkind] at hends
        cases hends
      · cases hroom with
        | free h => exact h
      · exact absurd (hasMinus_withMinus u position) hnot
      · obtain rfl := Option.mem_some.1 hv
        rw [hk] at hends
        cases hends
  | @negate position rest out hnext _ ih =>
      obtain ⟨-, hrest⟩ := List.forall_mem_cons.1 hdrafted
      refine .cons ⟨fun hkind => ?_, fun _ => ?_, fun hnumber => ?_⟩
        (ih hrest (.free ?_) fun _ _ _ => hnext)
      · cases hkind
      · cases hroom with
        | free h => exact h
      · cases hnumber
      · rintro v ⟨⟩
        exact .negate

/-- Every minus sign of a text stands where it belongs, if there is more than one token before the
signs become parts of numbers. A minus sign follows a number, a name or a closing parenthesis. A
negation and a number with a minus sign are first or follow a token that leaves room for an operand.
And the number right behind a negation has a minus sign itself. -/
theorem succeeds_of_scan {text : String} (hcount : 2 ≤ (drafted text).length)
    (hscan : scan text = before ++ t :: after) : Succeeds before.getLast? t := by
  have hsettles := settles_settle true (drafted text) fun t ht => drafted_of_mem ht
  have horder : InOrder none (scan text) := by
    rw [scan_eq, settleTokens, if_neg (by omega)]
    exact hsettles.inOrder (fun t ht => drafted_of_mem ht) (.free (by simp)) (by simp)
  rw [hscan] at horder
  simpa using horder.succeeds

/-- A minus sign behind a negated number. -/
theorem succeeds_in_product :
    2 ≤ (drafted "2*- 3 -x").length ∧
      scan "2*- 3 -x" = [classify "2".toList 0, classify "*".toList 1, classify "-3".toList 2] ++
        classify "-".toList 6 :: [classify "x".toList 7] ∧
      Succeeds (some (classify "-3".toList 2)) (classify "-".toList 6) := by
  have hcount : 2 ≤ (drafted "2*- 3 -x").length := by decide +kernel
  have hscan : scan "2*- 3 -x" = [classify "2".toList 0, classify "*".toList 1,
      classify "-3".toList 2] ++ classify "-".toList 6 :: [classify "x".toList 7] := rfl
  exact ⟨hcount, hscan, succeeds_of_scan hcount hscan⟩

end Token

end Reckoner
