import Reckoner.Proofs.Parser.Grammar
import Reckoner.Proofs.Token.Draft

/-!
Texts that spell expressions.

`Spells` says that a text, wherever an operand may stand, is cut into the tokens of an expression of
the grammar. There is one lemma for every way in which an expression is written: numbers and names,
parentheses, calls, negations, and operators between blanks.
-/
namespace Reckoner

/-- The value of a numeral. -/
def TokenKind.number? : TokenKind → Option Value
  | int n => some (.int n)
  | double x => some (.double x)
  | _ => none

namespace Grammar

open Token

variable {v : Vocabulary} {p q : Nat} {numeral : Prop} {text : List Char} {tree : NamedTree}
  {draft : Draft} {k : Cursor} {tokens : List (Option Token)}

/-- What is known of the cursor and the tokens after a text that was read from a draft on. -/
structure Spelt (v : Vocabulary) (p : Nat) (numeral : Prop) (tree : NamedTree) (draft : Draft)
    (k : Cursor) (tokens : List (Option Token)) : Prop where
  closed : k.closed = tokens.reverse ++ draft
  bars : Bars 1 k.parted
  ends : Closed tokens
  number : ∀ t, tokens.head? = some (some t) → t.isNumber = true → numeral
  derives : Derives v p (settle true tokens) tree

/-- Wherever a numeral may begin, the text is cut into the tokens of an expression with operators
from precedence `p` up. It begins with a number only if `numeral` says so. -/
def Spells (v : Vocabulary) (p : Nat) (numeral : Prop) (text : List Char) (tree : NamedTree) :
    Prop :=
  ∀ draft, Ready draft → ∀ position, ∃ k tokens,
    Moves text (.after draft position) k ∧ Spelt v p numeral tree draft k tokens

theorem Spells.mono (h : Spells v q numeral text tree) (hpq : p ≤ q) :
    Spells v p numeral text tree := by
  intro draft hdraft position
  obtain ⟨k, tokens, hmoves, hspelt⟩ := h draft hdraft position
  exact ⟨k, tokens, hmoves, { hspelt with derives := hspelt.derives.mono hpq }⟩

theorem Spells.imp {numeral' : Prop} (h : Spells v p numeral text tree)
    (himp : numeral → numeral') : Spells v p numeral' text tree := by
  intro draft hdraft position
  obtain ⟨k, tokens, hmoves, hspelt⟩ := h draft hdraft position
  exact ⟨k, tokens, hmoves, { hspelt with number := fun t ht hn => himp (hspelt.number t ht hn) }⟩

/-! ## Numbers and names -/

/-- A run that is entered as one token. -/
theorem moves_token (hne : text ≠ []) (hplain : ∀ c ∈ text, IsPlain c)
    (henter : ∀ position, enter draft (.text text position) =
      some (classify text position) :: draft) (position : Nat) :
    ∃ k, Moves text (.after draft position) k ∧
      k.closed = some (classify text position) :: draft ∧ Bars 1 k.parted := by
  obtain ⟨last, hmoves⟩ := moves_plain hplain (.after draft position)
  have hrun : (Cursor.after draft position).run ++ text ≠ [] := by simp [Cursor.after, hne]
  refine ⟨_, hmoves, ?_, ?_⟩
  · rw [Cursor.closed_of_ne_nil hrun]
    exact henter position
  · rw [Cursor.parted, if_neg hrun]
    exact bars_gap _

theorem isNumber_of_number? {k : TokenKind} {x : Value} (h : k.number? = some x) :
    k.isNumber = true := by
  cases k <;> first | rfl | cases h

/-- A numeral is an expression. -/
theorem derives_number {t : Token} {x : Value} (h : t.kind.number? = some x) :
    Derives v tightest [t] fun _ => .literal x := by
  cases hk : t.kind with
  | int n =>
      obtain rfl : Value.int n = x := by simpa [hk, TokenKind.number?] using h
      exact .int hk
  | double y =>
      obtain rfl : Value.double y = x := by simpa [hk, TokenKind.number?] using h
      exact .double hk
  | _ => simp [hk, TokenKind.number?] at h

theorem spells_numeral {x : Value} (hne : text ≠ []) (hplain : ∀ c ∈ text, IsPlain c)
    (h : (kindOf text).number? = some x) : Spells v tightest True text fun _ => .literal x := by
  intro draft hdraft position
  have hnumber := isNumber_of_number? h
  obtain ⟨k, hmoves, hclosed, hbars⟩ :=
    moves_token hne hplain (hdraft.enter_number hnumber) position
  have hopens : (classify text position).kind.opensNegation = false :=
    not_opensNegation_of_isNumber hnumber
  refine ⟨k, [some (classify text position)], hmoves, hclosed, hbars, ⟨[], _, rfl, hopens⟩,
    fun _ _ _ => trivial, ?_⟩
  rw [settle_singleton hopens]
  exact derives_number h

/-- A minus sign right before a numeral becomes part of it. -/
theorem spells_minus_numeral {x : Value} (hne : text ≠ []) (hplain : ∀ c ∈ text, IsPlain c)
    (hnumber : (kindOf text).isNumber = true) (h : (kindOf ('-' :: text)).number? = some x) :
    Spells v tightest False ('-' :: text) fun _ => .literal x := by
  intro draft hdraft position
  have hminus := moves_symbol (c := '-') rfl (.after draft position)
  obtain ⟨k, hmoves, hclosed, hbars⟩ := moves_token hne hplain
    ((hdraft.symbol (c := '-') rfl position).enter_number hnumber) (position + '-'.utf8Size)
  have hopens : (classify text (position + '-'.utf8Size)).kind.opensNegation = false :=
    not_opensNegation_of_isNumber hnumber
  refine ⟨k, [some (classify ['-'] position), some (classify text (position + '-'.utf8Size))],
    hminus.append hmoves, hclosed, hbars, ⟨[_], _, rfl, hopens⟩, ?_, ?_⟩
  · intro t ht hnumeral
    obtain rfl : classify ['-'] position = t := by simpa using ht
    cases hnumeral
  · rw [settle_minus_number (by rfl) (by exact hnumber)]
    exact derives_number (by simpa [withMinus, classify] using h)

theorem spells_digits {m : Nat} {n : BitVec 64} (hn : n.toInt = m) :
    Spells v tightest True (digits m) fun _ => .literal (.int n) := by
  have hkind : kindOf (digits m) = .int n := kindOf_of_readInt? (by rw [readInt?_digits, hn])
  exact spells_numeral (digits_ne_nil m) (fun c hc => isPlain_of_isDigit (isDigit_of_mem_digits hc))
    (by rw [hkind]; rfl)

/-- A minus sign and digits are the numeral of a number that is not positive. -/
theorem spells_minus_digits {m : Nat} {n : BitVec 64} (hn : n.toInt = -m)
    (hnumber : (kindOf (digits m)).isNumber = true) :
    Spells v tightest False ('-' :: digits m) fun _ => .literal (.int n) := by
  have hkind : kindOf ('-' :: digits m) = .int n :=
    kindOf_of_readInt? (by rw [readInt?_minus_digits, hn])
  exact spells_minus_numeral (digits_ne_nil m)
    (fun c hc => isPlain_of_isDigit (isDigit_of_mem_digits hc)) hnumber (by rw [hkind]; rfl)

theorem spells_name {name : String} (h : IsName name.toList) :
    Spells v tightest False name.toList (nameTree v name) := by
  intro draft hdraft position
  obtain ⟨k, hmoves, hclosed, hbars⟩ := moves_token h.ne_nil h.plain (h.enter draft) position
  have hkind : (classify name.toList position).kind = .ident name := h.kind
  have hopens : (classify name.toList position).kind.opensNegation = false := by
    rw [hkind]
    rfl
  refine ⟨k, [some (classify name.toList position)], hmoves, hclosed, hbars, ⟨[], _, rfl, hopens⟩,
    ?_, ?_⟩
  · intro t ht hnumber
    obtain rfl : classify name.toList position = t := by simpa using ht
    rw [isNumber, hkind] at hnumber
    cases hnumber
  · rw [settle_singleton hopens]
    exact .name hkind

/-! ## Parentheses and calls -/

/-- A text between parentheses, whatever stands before them. -/
theorem Spells.between (h : Spells v 1 numeral text tree) (start : Cursor) :
    ∃ k tokens closing, Moves ('(' :: text ++ [')']) start k ∧
      k.closed = some (classify [')'] closing) :: (tokens.reverse ++
        some (classify ['('] start.position) :: start.closed) ∧
      Bars 1 k.parted ∧ Closed tokens ∧ Derives v 1 (settle true tokens) tree := by
  have hopen := moves_symbol (c := '(') rfl start
  have hbars : Bars 1 (some (classify ['('] start.position) :: start.closed) :=
    bars_symbol rfl (by decide) (by decide) start.position start.closed
  obtain ⟨k, tokens, hmoves, hspelt⟩ := h _ (.bars hbars) (start.position + '('.utf8Size)
  refine ⟨_, tokens, k.position, hopen.append (hmoves.append (moves_symbol (c := ')') rfl k)), ?_,
    bars_symbol rfl (by decide) (by decide) k.position k.closed, hspelt.ends, hspelt.derives⟩
  rw [Cursor.closed_after, hspelt.closed]

/-- What stands between parentheses is settled by itself. -/
theorem settle_between (h : Closed tokens) (free : Bool) (opening closing : Nat) :
    settle free (some (classify ['('] opening) :: tokens ++ [some (classify [')'] closing)]) =
      classify ['('] opening :: settle true tokens ++ [classify [')'] closing] := by
  rw [List.cons_append, settle_cons (fun hminus => by cases hminus) rfl, List.cons_append]
  change _ :: settle true (tokens ++ [some (classify [')'] closing)]) = _
  rw [h.settle_append, settle_singleton rfl]

theorem Spells.parentheses (h : Spells v 1 numeral text tree) :
    Spells v tightest False ('(' :: text ++ [')']) tree := by
  intro draft _ position
  obtain ⟨k, tokens, closing, hmoves, hclosed, hbars, hends, hderives⟩ :=
    h.between (.after draft position)
  refine ⟨k, some (classify ['('] position) :: tokens ++ [some (classify [')'] closing)], hmoves, ?_,
    hbars, closed_append_singleton _ rfl, ?_, ?_⟩
  · rw [hclosed, Cursor.closed_after]
    simp [Cursor.after]
  · intro t ht hnumber
    obtain rfl : classify ['('] position = t := by simpa using ht
    cases hnumber
  · rw [settle_between hends]
    exact .parentheses rfl rfl hderives

theorem Spells.call {name : String} {id : FunctionId} {f : NamedFunction}
    (h : Spells v 1 numeral text tree) (hname : IsName name.toList)
    (hfind : v.functions.findRegular? name = some id) (hget : v.functions.get? id = some f)
    (hcount : f.arity.accepts 1 = true) :
    Spells v tightest False (name.toList ++ ('(' :: text ++ [')']))
      fun numbering => callTree id [tree numbering] := by
  intro draft _ position
  have hkind : (classify name.toList position).kind = .ident name := hname.kind
  obtain ⟨start, hmoves, hstart, -⟩ :=
    moves_token hname.ne_nil hname.plain (hname.enter draft) position
  obtain ⟨k, tokens, closing, hmoves', hclosed, hbars, hends, hderives⟩ := h.between start
  refine ⟨k, some (classify name.toList position) :: (some (classify ['('] start.position) ::
    tokens ++ [some (classify [')'] closing)]), hmoves.append hmoves', ?_, hbars,
    (closed_append_singleton _ rfl).cons _, ?_, ?_⟩
  · rw [hclosed, hstart]
    simp
  · intro t ht hnumber
    obtain rfl : classify name.toList position = t := by simpa using ht
    rw [isNumber, hkind] at hnumber
    cases hnumber
  · have hopens : (classify name.toList position).kind.opensNegation = false := by
      rw [hkind]
      rfl
    obtain ⟨hminus, hnegate⟩ := not_sign_of_not_opensNegation hopens
    have hfind' : v.functions.findRegular? (classify name.toList position).text = some id := by
      rw [classify, String.ofList_toList]
      exact hfind
    have hopening : (classify ['('] start.position).kind = .lparen := rfl
    have hclosing : (classify [')'] closing).kind = .rparen := rfl
    let args : List (List Token × NamedTree) := [(settle true tokens, tree)]
    have hcount' : f.arity.accepts args.length = true := hcount
    have hinner : Separated (args.map Prod.fst) (settle true tokens) := .one _
    have hargs : ∀ arg ∈ args, Derives v 1 arg.1 arg.2 := by simpa [args] using hderives
    rw [settle_cons (by simp [hminus]) hnegate, settle_between hends]
    exact .call hkind hopening hclosing hfind' hget hcount' hinner hargs

theorem spells_call_nil {name : String} {id : FunctionId} {f : NamedFunction}
    (hname : IsName name.toList) (hfind : v.functions.findRegular? name = some id)
    (hget : v.functions.get? id = some f) (hcount : f.arity.accepts 0 = true) :
    Spells v tightest False (name.toList ++ ['(', ')']) fun _ => .call id [] := by
  intro draft _ position
  have hkind : (classify name.toList position).kind = .ident name := hname.kind
  have hopens : (classify name.toList position).kind.opensNegation = false := by
    rw [hkind]
    rfl
  obtain ⟨start, hmoves, hstart, -⟩ :=
    moves_token hname.ne_nil hname.plain (hname.enter draft) position
  have hopening := moves_symbol (c := '(') rfl start
  have hclosing := moves_symbol (c := ')') rfl
    (.after (some (classify ['('] start.position) :: start.closed) (start.position + '('.utf8Size))
  refine ⟨_, [some (classify name.toList position), some (classify ['('] start.position),
    some (classify [')'] (start.position + '('.utf8Size))], hmoves.append (hopening.append hclosing),
    ?_, bars_symbol rfl (by decide) (by decide) _ _, closed_append_singleton [_, _] rfl, ?_, ?_⟩
  · rw [Cursor.closed_after, Cursor.closed_after, hstart]
    rfl
  · intro t ht hnumber
    obtain rfl : classify name.toList position = t := by simpa using ht
    rw [isNumber, hkind] at hnumber
    cases hnumber
  · obtain ⟨hminus, hnegate⟩ := not_sign_of_not_opensNegation hopens
    have hfind' : v.functions.findRegular? (classify name.toList position).text = some id := by
      rw [classify, String.ofList_toList]
      exact hfind
    have hcount' : f.arity.accepts ([] : List (List Token × NamedTree)).length = true := hcount
    rw [settle_cons (by simp [hminus]) hnegate, settle_cons (fun h => by cases h) rfl,
      settle_singleton rfl]
    exact .call hkind rfl rfl hfind' hget hcount' .nil (by simp)

/-! ## Operators -/

/-- A minus sign before an operand that does not begin with a number is a negation. -/
theorem Spells.negate (h : Spells v tightest False text tree) :
    Spells v sign False ('-' :: text)
      fun numbering => .call Standard.negation [tree numbering] := by
  intro draft hdraft position
  obtain ⟨k, tokens, hmoves, hspelt⟩ :=
    h _ (hdraft.symbol (c := '-') rfl position) (position + '-'.utf8Size)
  refine ⟨k, some (classify ['-'] position) :: tokens,
    (moves_symbol (c := '-') rfl (.after draft position)).append hmoves, ?_, hspelt.bars,
    hspelt.ends.cons _, ?_, ?_⟩
  · rw [hspelt.closed]
    simp
  · intro t ht hnumber
    obtain rfl : classify ['-'] position = t := by simpa using ht
    cases hnumber
  · rw [settle_minus rfl fun u hu => Bool.eq_false_iff.2 (hspelt.number u hu)]
    exact .negate rfl hspelt.derives

/-- The symbol of an operator is a symbol character by itself. -/
theorem symbol_cases (o : BinaryOperator) : ∃ c, o.symbol.toList = [c] ∧ isSymbol c = true ∧
    kindOf [c] = o.kind := by
  cases o <;> exact ⟨_, rfl, rfl, rfl⟩

/-- An operator between blanks is entered after the gap that the left operand may leave. -/
theorem moves_operator (o : BinaryOperator) (k : Cursor) :
    ∃ t position, IsBinary o t ∧ (Bars 1 k.parted → Ready (some t :: k.parted)) ∧
      Moves (' ' :: o.symbol.toList ++ [' ']) k (.after (some t :: k.parted) position) := by
  obtain ⟨c, htext, hc, hkind⟩ := symbol_cases o
  obtain ⟨here, there, hmoves⟩ : ∃ here there, Moves (' ' :: [c] ++ [' ']) k
      (.after (some (classify [c] here) :: k.parted) there) := by
    have hblank := moves_blank (c := ' ') rfl k
    have hsymbol := moves_symbol hc (.after k.parted (k.position + ' '.utf8Size))
    exact ⟨_, _, hblank.append (hsymbol.append (moves_blank (c := ' ') rfl _))⟩
  refine ⟨classify [c] here, there, ⟨hkind, ?_⟩, fun h => (Ready.bars h).symbol hc here,
    htext ▸ hmoves⟩
  exact String.toList_inj.1 ((toList_text_classify _ _).trans htext.symm)

/-- An operator after an operand stays what it is, and after it a minus sign has no left operand. -/
theorem settle_operator {o : BinaryOperator} {t : Token} (ht : IsBinary o t)
    (rest : List (Option Token)) : settle false (some t :: rest) = t :: settle true rest := by
  have hopens : t.kind.opensNegation = true := by
    rw [ht.1]
    cases o <;> rfl
  have hnegate : t.kind.isNegate = false := by
    rw [ht.1]
    cases o <;> rfl
  rw [settle_cons (fun _ => rfl) hnegate, hopens]

/-- An operator between blanks. -/
theorem Spells.join (o : BinaryOperator) {left right : List Char} {leftTree rightTree : NamedTree}
    {numeral' : Prop} (hleft : Spells v o.precedence numeral left leftTree)
    (hright : Spells v (o.precedence + 1) numeral' right rightTree) :
    Spells v o.precedence numeral (left ++ (' ' :: o.symbol.toList ++ ' ' :: right))
      fun numbering => o.combine (leftTree numbering) (rightTree numbering) := by
  intro draft hdraft position
  obtain ⟨k, tokens, hmoves, hspelt⟩ := hleft draft hdraft position
  obtain ⟨t, here, ht, hready, hoperator⟩ := moves_operator o k
  obtain ⟨k', tokens', hmoves', hspelt'⟩ := hright _ (hready hspelt.bars) here
  obtain ⟨gap, hgap, hparted⟩ : ∃ gap : List (Option Token), (gap = [] ∨ gap = [none]) ∧
      k.parted = gap ++ k.closed := by
    rcases k.parted_eq with h | h
    · exact ⟨[], .inl rfl, h⟩
    · exact ⟨[none], .inr rfl, h⟩
  refine ⟨k', tokens ++ (gap ++ some t :: tokens'), ?_, ?_, hspelt'.bars,
    ((hspelt'.ends.cons _).append gap).append tokens, ?_, ?_⟩
  · have hall := hmoves.append (hoperator.append hmoves')
    rw [List.append_assoc, List.singleton_append] at hall
    exact hall
  · have hreverse : gap.reverse = gap := by rcases hgap with rfl | rfl <;> rfl
    rw [hspelt'.closed, hparted, hspelt.closed]
    simp [hreverse]
  · intro t ht
    rw [List.head?_append_of_ne_nil _ hspelt.ends.ne_nil] at ht
    exact hspelt.number t ht
  · have hsettle : settle false (gap ++ some t :: tokens') = t :: settle true tokens' := by
      rw [← settle_operator ht]
      rcases hgap with rfl | rfl
      · rfl
      · exact settle_gap false _
    rw [hspelt.ends.settle_append, hsettle]
    exact .join ht hspelt.derives hspelt'.derives

end Grammar

end Reckoner
