import Reckoner.Proofs.Expr.ReadBack
import Reckoner.Proofs.Parser.Completeness
import Reckoner.Proofs.Parser.Phrases
import Reckoner.Proofs.Token.Doubles

/-!
Reading back what has been written.

By induction on a readable tree, its text spells an expression of the grammar that stands for the
tree read back. Where parentheses may be left out, the precedence of what stands around the tree says
how tightly its operator must bind; the operands of a sum within a sum go on where the outer sum has
come to. Since the parser is complete for the grammar, what is readable is read back.
-/
namespace Reckoner

/-- How tightly an operator must bind to stand here without parentheses; the full form leaves none
out. -/
def Surroundings.level (c : Surroundings) : Nat :=
  if c.minimal then c.precedence.toNat + 1 else Grammar.tightest

namespace Expr

open Grammar

variable {w : Leeway} {v : Vocabulary} {n m : Names} {e : Expr} {o : BinaryOperator}
  {id : FunctionId}

/-! ## Texts that are read as trees -/

/-- The numbering gives the variables the numbers that they have. -/
def Agrees (numbering : Numbering) (n : Names) : Prop :=
  ∀ name id, n.find? name = some id → numbering name = id

/-- The text spells an expression that stands for the tree where variables have their numbers. -/
def SpellsAs (v : Vocabulary) (n : Names) (p : Nat) (numeral : Prop) (text : List Char) (e : Expr) :
    Prop :=
  ∃ tree : NamedTree, (∀ numbering, Agrees numbering n → tree numbering = e) ∧
    Spells v p numeral text tree

section SpellsAs

variable {p q : Nat} {numeral numeral' : Prop} {text left right : List Char} {e₁ e₂ : Expr}

theorem spellsAs_literal {x : Value} (h : Spells v p numeral text fun _ => .literal x) :
    SpellsAs v n p numeral text (.literal x) :=
  ⟨_, fun _ _ => rfl, h⟩

theorem SpellsAs.mono (h : SpellsAs v n q numeral text e) (hpq : p ≤ q) :
    SpellsAs v n p numeral text e := by
  obtain ⟨tree, htree, hspells⟩ := h
  exact ⟨tree, htree, hspells.mono hpq⟩

theorem SpellsAs.imp (h : SpellsAs v n p numeral text e) (himp : numeral → numeral') :
    SpellsAs v n p numeral' text e := by
  obtain ⟨tree, htree, hspells⟩ := h
  exact ⟨tree, htree, hspells.imp himp⟩

theorem SpellsAs.parentheses (h : SpellsAs v n 1 numeral text e) :
    SpellsAs v n tightest False ('(' :: text ++ [')']) e := by
  obtain ⟨tree, htree, hspells⟩ := h
  exact ⟨tree, htree, hspells.parentheses⟩

theorem SpellsAs.negate (h : SpellsAs v n tightest False text e) :
    SpellsAs v n sign False ('-' :: text) (.call Standard.negation [e]) := by
  obtain ⟨tree, htree, hspells⟩ := h
  exact ⟨_, fun numbering hnumbering => by rw [htree numbering hnumbering], hspells.negate⟩

theorem SpellsAs.call {name : String} {f : NamedFunction} (h : SpellsAs v n 1 numeral text e)
    (hname : Token.IsName name.toList) (hfind : v.functions.findRegular? name = some id)
    (hget : v.functions.get? id = some f) (hcount : f.arity.accepts 1 = true) :
    SpellsAs v n tightest False (name.toList ++ ('(' :: text ++ [')'])) (callTree id [e]) := by
  obtain ⟨tree, htree, hspells⟩ := h
  exact ⟨_, fun numbering hnumbering => by rw [htree numbering hnumbering],
    hspells.call hname hfind hget hcount⟩

theorem SpellsAs.join (o : BinaryOperator) (hleft : SpellsAs v n o.precedence numeral left e₁)
    (hright : SpellsAs v n (o.precedence + 1) numeral' right e₂) :
    SpellsAs v n o.precedence numeral (left ++ (' ' :: o.symbol.toList ++ ' ' :: right))
      (o.combine e₁ e₂) := by
  obtain ⟨tree₁, htree₁, hspells₁⟩ := hleft
  obtain ⟨tree₂, htree₂, hspells₂⟩ := hright
  exact ⟨_, fun numbering hnumbering => by
      rw [htree₁ numbering hnumbering, htree₂ numbering hnumbering],
    hspells₁.join o hspells₂⟩

end SpellsAs

/-! ## What is known of the text of a tree -/

/-- A number without sign. -/
def IsUnsigned (e : Expr) : Prop :=
  ∃ x : Value, x.isUnsigned = true ∧ e = .literal x

/-- In the minimal form the tree is no operand of the sum or product that it is itself. -/
def Apart (c : Surroundings) (e : Expr) : Prop :=
  ∀ o : BinaryOperator, o.flattens = true → c.minimal = true → c.operator = some o.place →
    ∀ args : List Expr, 2 ≤ args.length → e ≠ .call o.place args

/-- The text can be a further operand of the sum or product, or the first one. -/
structure Continues (v : Vocabulary) (n : Names) (o : BinaryOperator) (text : List Char)
    (pieces : List Expr) : Prop where
  first : ∃ e rest, pieces = e :: rest ∧
    SpellsAs v n o.precedence True text (rest.foldl o.combine e)
  next : ∀ {left : List Char} {e : Expr} {numeral : Prop}, SpellsAs v n o.precedence numeral left e →
    SpellsAs v n o.precedence numeral (left ++ (' ' :: o.symbol.toList ++ ' ' :: text))
      (pieces.foldl o.combine e)

/-- The text of the tree spells the tree that is read back: by itself, and where it is an operand of
a sum or product. -/
structure WrittenBack (v : Vocabulary) (n : Names) (e : Expr) : Prop where
  alone : ∀ c : Surroundings, c.precedence ≤ sign → Apart c e →
    SpellsAs v n c.level (c.level = tightest → e.IsUnsigned) (e.write v.functions c).toList
      (e.readBack c.minimal)
  operand : ∀ (o : BinaryOperator) (c : Surroundings), o.flattens = true →
    c.operator = some o.place → c.precedence = o.precedence →
    Continues v n o (e.write v.functions c).toList (operands c.minimal o.place e)

section Surroundings

variable {c : Surroundings}

theorem level_le_tightest (h : c.precedence ≤ sign) : c.level ≤ tightest := by
  have hsign : sign = 10 := rfl
  have htightest : tightest = 11 := rfl
  unfold Surroundings.level
  split <;> omega

/-- Nothing is apart from its surroundings only where the surroundings are a sum or a product. -/
theorem apart_of_operator (h : ∀ o : BinaryOperator, o.flattens = true → c.operator ≠ some o.place)
    (e : Expr) : Apart c e :=
  fun o ho _ hoperator => absurd hoperator (h o ho)

/-- A text that is put between parentheses unless its operator binds tightly enough. -/
theorem SpellsAs.parenthesize {p : Nat} {numeral numeral' : Prop} {text : String} {bare : Bool}
    (h : SpellsAs v n p numeral text.toList e) (hp : 1 ≤ p) (hc : c.precedence ≤ sign)
    (hlevel : bare = true → c.level ≤ p)
    (hnumeral : bare = true → numeral → c.level = tightest → numeral') :
    SpellsAs v n c.level (c.level = tightest → numeral')
      (Reckoner.parenthesize bare text).toList e := by
  cases bare with
  | true => exact (h.mono (hlevel rfl)).imp (hnumeral rfl)
  | false =>
      have htext : (Reckoner.parenthesize false text).toList = '(' :: text.toList ++ [')'] := by
        simp [Reckoner.parenthesize]
      rw [htext]
      exact ((h.mono hp).parentheses.mono (level_le_tightest hc)).imp False.elim

end Surroundings

/-- What is known of a tree by itself is enough unless it is a sum or a product. -/
theorem continues_of_spellsAs {numeral : Prop} {text : List Char}
    (h : SpellsAs v n (o.precedence + 1) numeral text e) : Continues v n o text [e] where
  first := ⟨e, [], rfl, (h.mono (Nat.le_succ _)).imp fun _ => trivial⟩
  next := fun hleft => hleft.join o h

theorem le_level {c : Surroundings} (h : c.precedence = o.precedence) :
    o.precedence + 1 ≤ c.level := by
  have htightest : tightest = 11 := rfl
  have hprecedence : o.precedence ≤ 4 := by cases o <;> decide
  unfold Surroundings.level
  split <;> omega

/-- A tree that is no sum or product is the same wherever it stands. -/
theorem writtenBack_of_alone (hne : ∀ o : BinaryOperator, o.flattens = true → ∀ args : List Expr,
      2 ≤ args.length → e ≠ .call o.place args)
    (halone : ∀ c : Surroundings, c.precedence ≤ sign →
      SpellsAs v n c.level (c.level = tightest → e.IsUnsigned) (e.write v.functions c).toList
        (e.readBack c.minimal)) : WrittenBack v n e where
  alone := fun c hc _ => halone c hc
  operand := by
    intro o c ho _ hprecedence
    have hc : c.precedence ≤ sign := by
      rw [hprecedence]
      cases o <;> decide
    rw [operands_of_ne fun _ => hne o ho]
    exact continues_of_spellsAs ((halone c hc).mono (le_level hprecedence))

/-! ## Numbers -/

theorem isNumber_digits {j : Nat} (h : j ≤ 2 ^ 63) :
    (Token.kindOf (Token.digits j)).isNumber = true := by
  rcases Nat.lt_or_eq_of_le h with hlt | rfl
  · have hword : (BitVec.ofInt 64 j).toInt = j := by
      rw [BitVec.toInt_ofInt, Int.bmod_eq_of_le] <;> omega
    rw [Token.kindOf_of_readInt? (n := BitVec.ofInt 64 j) (by rw [Token.readInt?_digits, hword])]
    rfl
  · exact Token.isNumber_of_isDouble Token.isDouble_digits_least

theorem toList_text_of_nonneg {k : BitVec 64} {j : Nat} (h : k.toInt = j) :
    (Value.int k).text.toList = Token.digits j := by
  rw [Value.text, h]
  exact Nat.toList_repr

theorem toList_text_of_neg {k : BitVec 64} {i : Nat} (h : k.toInt = Int.negSucc i) :
    (Value.int k).text.toList = '-' :: Token.digits (i + 1) := by
  rw [Value.text, h]
  change ("-" ++ (i + 1).repr).toList = _
  rw [String.toList_append, Nat.toList_repr]
  rfl

/-- What is known of the text of a number, also with a minus sign before it. -/
structure Numeral (v : Vocabulary) (n : Names) (x : Value) : Prop where
  alone : SpellsAs v n tightest (IsUnsigned (.literal x)) x.text.toList (.literal x)
  minus : x.isUnsigned = true →
    SpellsAs v n tightest False ('-' :: x.text.toList) (.literal x.opposite)

theorem numeral_int (k : BitVec 64) : Numeral v n (.int k) where
  alone := by
    cases hk : k.toInt with
    | ofNat j =>
        have hunsigned : IsUnsigned (.literal (.int k)) :=
          ⟨.int k, decide_eq_true (hk ▸ Int.natCast_nonneg j), rfl⟩
        rw [toList_text_of_nonneg hk]
        exact spellsAs_literal ((spells_digits hk).imp fun _ => hunsigned)
    | negSucc i =>
        have hbound : i + 1 ≤ 2 ^ 63 := by
          have hleast := BitVec.le_toInt k
          omega
        rw [toList_text_of_neg hk]
        exact spellsAs_literal ((spells_minus_digits hk (isNumber_digits hbound)).imp False.elim)
  minus := by
    intro hk
    obtain ⟨j, hj⟩ := Int.eq_ofNat_of_zero_le (of_decide_eq_true hk)
    have hlt := BitVec.toInt_lt (x := k)
    have hopposite : (-k).toInt = -(j : Int) := by
      rw [BitVec.toInt_neg, hj, Int.bmod_eq_of_le] <;> omega
    rw [toList_text_of_nonneg hj]
    exact spellsAs_literal (spells_minus_digits hopposite (isNumber_digits (by omega)))

theorem numeral_double {x : Float} (hx : Token.ReadsBack x) : Numeral v n (.double x) := by
  have hnumber : (Token.kindOf (Decimal.text x).toList).number? = some (.double x) := by
    rw [hx.kind]
    rfl
  obtain ⟨c, rest, hc, hrest, htext⟩ := Token.exists_body (x := x) (by rw [hx.kind]; rfl)
  have hplain : ∀ d ∈ c :: rest, Token.IsPlain d := by
    intro d hd
    refine Token.isPlain_of_isDigitOrPoint ?_
    rcases List.mem_cons.1 hd with rfl | hd
    · exact .inl hc
    · exact hrest d hd
  constructor
  · rcases htext with htext | htext
    · have hunsigned : IsUnsigned (.literal (.double x)) := by
        refine ⟨.double x, ?_, rfl⟩
        have hne : c ≠ '-' := by
          rintro rfl
          cases hc
        simpa [Value.isUnsigned, htext] using hne
      rw [Value.text, htext]
      rw [htext] at hnumber
      exact spellsAs_literal ((spells_numeral (by simp) hplain hnumber).imp fun _ => hunsigned)
    · have hbody := Token.isNumber_of_minus hc hrest (by rw [← htext, hx.kind]; rfl)
      rw [Value.text, htext]
      rw [htext] at hnumber
      exact spellsAs_literal ((spells_minus_numeral (by simp) hplain hbody hnumber).imp False.elim)
  · intro hunsigned
    have hhead : (Decimal.text x).toList.head? ≠ some '-' := by
      simpa [Value.isUnsigned] using hunsigned
    have hopposite : (Token.kindOf ('-' :: (Decimal.text x).toList)).number? =
        some (.double (-x)) := by
      rw [hx.opposite hhead]
      rfl
    rcases htext with htext | htext
    · rw [Value.text, htext]
      rw [htext] at hnumber hopposite
      exact spellsAs_literal
        (spells_minus_numeral (by simp) hplain (isNumber_of_number? hnumber) hopposite)
    · exact absurd (by rw [htext]; rfl) hhead

/-- A number by itself. -/
theorem Numeral.writtenBack {x : Value} (h : Numeral v n x) : WrittenBack v n (.literal x) := by
  refine writtenBack_of_alone (fun _ _ _ _ heq => by cases heq) fun c hc => ?_
  rw [write, readBack]
  exact (h.alone.mono (level_le_tightest hc)).imp fun hunsigned _ => hunsigned

/-! ## Names and calls -/

theorem spellsAs_var {name : String} {id : VariableId} (hname : Token.IsName name.toList)
    (hconstant : v.constant? name = none) (hid : n.find? name = some id) :
    SpellsAs v n tightest False name.toList (.var name id) := by
  refine ⟨nameTree v name, fun numbering hnumbering => ?_, spells_name hname⟩
  simp only [nameTree, hconstant, hnumbering name id hid]

theorem spellsAs_constant {c : Constant} (hname : Token.IsName c.name.toList)
    (hconstant : v.constant? c.name = some c) :
    SpellsAs v n tightest False c.name.toList (.constant c.name c.value) := by
  refine ⟨nameTree v c.name, fun numbering _ => ?_, spells_name hname⟩
  simp only [nameTree, hconstant]

/-- A tree whose text needs no parentheses anywhere. -/
theorem writtenBack_of_tightest (hne : ∀ o : BinaryOperator, o.flattens = true →
      ∀ args : List Expr, 2 ≤ args.length → e ≠ .call o.place args)
    (h : ∀ c : Surroundings, SpellsAs v n tightest False (e.write v.functions c).toList
      (e.readBack c.minimal)) : WrittenBack v n e :=
  writtenBack_of_alone hne fun c hc => ((h c).mono (level_le_tightest hc)).imp False.elim

/-- The level inside parentheses. -/
theorem one_le_level_inside (c : Surroundings) : 1 ≤ (c.inside 0).level := by
  unfold Surroundings.level
  split
  · exact Nat.le_refl 1
  · decide

/-- A tree by itself between the parentheses of a call. -/
theorem WrittenBack.inside (h : WrittenBack v n e) (c : Surroundings) :
    SpellsAs v n 1 ((c.inside 0).level = tightest → e.IsUnsigned)
      (e.write v.functions (c.inside 0)).toList (e.readBack c.minimal) :=
  (h.alone (c.inside 0) (Int.natCast_nonneg sign) (apart_of_operator (fun _ _ h => by cases h) e)).mono
    (one_le_level_inside c)

/-- A call by name with one argument. -/
theorem WrittenBack.call {f : NamedFunction} {name : String} (h : WrittenBack v n e)
    (hname : Token.IsName name.toList) (hget : v.functions.get? id = some f)
    (hfind : v.functions.findRegular? name = some id) (hcount : f.arity.accepts 1 = true)
    (hwritten : writtenAs f 1 = .regular) (hcallName : callName f = name) (c : Surroundings) :
    SpellsAs v n tightest False ((Expr.call id [e]).write v.functions c).toList
      (.call id [e.readBack c.minimal]) := by
  have htext : ((Expr.call id [e]).write v.functions c).toList =
      name.toList ++ ('(' :: (e.write v.functions (c.inside 0)).toList ++ [')']) := by
    rw [write]
    simp [hget, hwritten, hcallName, writeAll]
  rw [htext]
  exact (h.inside c).call hname hfind hget hcount

theorem writtenBack_named (hv : v.functions.HasOperators) {f : NamedFunction}
    (hget : v.functions.get? id = some f) (hregular : f.fixity = .regular)
    (hname : Token.IsName f.favouredName.toList)
    (hfind : v.functions.findRegular? f.favouredName = some id)
    (hcount : f.arity.accepts 1 = true) (h : WrittenBack v n e) :
    WrittenBack v n (.call id [e]) := by
  have hid := ne_negation_of_regular hv hget hregular
  refine writtenBack_of_tightest (fun o _ args hcount heq => ?_) fun c => ?_
  · obtain ⟨-, rfl⟩ := Expr.call.inj heq
    exact absurd hcount (by simp)
  · rw [readBack_call (signed?_of_ne hid _) (.inr (by simp))]
    exact h.call hname hget hfind hcount (by simp [writtenAs, hregular])
      (by simp [callName, hregular]) c

/-- A sum or a product with fewer than two operands is called by its name. -/
theorem writtenBack_short (hv : v.functions.HasOperators) (ho : o.flattens = true)
    (hfind : v.functions.findRegular? o.description.name = some o.place) {args : List Expr}
    (hshort : args.length < 2) (h : ∀ e ∈ args, WrittenBack v n e) :
    WrittenBack v n (.call o.place args) := by
  have hname : Token.IsName o.description.name.toList := by
    cases o <;> decide +kernel
  have haccepts : ∀ k, o.description.arity.accepts k = true := by
    intro k
    cases o <;> first | exact decide_eq_true (Nat.zero_le k) | cases ho
  have hcallName : callName o.description = o.description.name := by simp [callName]
  refine writtenBack_of_tightest (fun o' _ args' hcount heq => ?_) fun c => ?_
  · obtain ⟨-, rfl⟩ := Expr.call.inj heq
    omega
  · rw [readBack_call (signed?_of_ne o.place_ne_negation _) (.inr hshort)]
    match args, hshort with
    | [], _ =>
        have htext : ((Expr.call o.place []).write v.functions c).toList =
            o.description.name.toList ++ ['(', ')'] := by
          rw [write]
          simp [hv.operator o, writtenAs, hcallName, writeAll]
        rw [htext]
        exact ⟨_, fun _ _ => rfl, spells_call_nil hname hfind (hv.operator o) (haccepts 0)⟩
    | [e], _ =>
        exact (h e (by simp)).call hname (hv.operator o) hfind (haccepts 1) (by simp [writtenAs])
          hcallName c

/-! ## Operators -/

theorem isUnsigned_literal {x : Value} : IsUnsigned (.literal x) ↔ x.isUnsigned = true := by
  constructor
  · rintro ⟨y, hy, heq⟩
    cases heq
    exact hy
  · exact fun h => ⟨x, h, rfl⟩

theorem signed?_of_not_isUnsigned (h : ¬ e.IsUnsigned) (id : FunctionId) :
    signed? id [e] = none := by
  unfold signed?
  split
  next x heq =>
    obtain ⟨rfl, -⟩ := List.cons.inj heq
    rw [if_neg fun hx => h (isUnsigned_literal.2 hx.2)]
  next => rfl

theorem write_negation (hv : v.functions.HasOperators) (c : Surroundings) (e : Expr) :
    (call Standard.negation [e]).write v.functions c =
      parenthesize (c.minimal && decide (c.precedence < sign))
        ("-" ++ e.write v.functions (c.under Standard.negation Standard.negationDescription)) := by
  have hfixity : writtenAs Standard.negationDescription 1 = .prefixOp := rfl
  have hsymbol : Standard.negationDescription.favouredName = "-" := rfl
  have hprecedence : Standard.negationDescription.precedence = (sign : Int) := rfl
  have hassociative : Standard.negationDescription.associative = false := rfl
  rw [write]
  simp [hv.negation, hfixity, hsymbol, hprecedence, hassociative, writeAll, Surroundings.isBare,
    String.join]

theorem level_le_of_lt {c : Surroundings} {p : Nat} (hp : 1 ≤ p)
    (h : (c.minimal && decide (c.precedence < p)) = true) : c.level ≤ p := by
  obtain ⟨hminimal, hlt⟩ := Bool.and_eq_true_iff.1 h
  have hlt := of_decide_eq_true hlt
  simp only [Surroundings.level, hminimal, if_true]
  omega

theorem writtenBack_negate (hv : v.functions.HasOperators) (h : WrittenBack v n e)
    (hnumeral : ∀ x, e = .literal x → Numeral v n x) :
    WrittenBack v n (.call Standard.negation [e]) := by
  refine writtenBack_of_alone (fun o _ args hcount heq => ?_) fun c hc => ?_
  · obtain ⟨-, rfl⟩ := Expr.call.inj heq
    exact absurd hcount (by simp)
  · have hsign : 1 ≤ sign := by decide
    have hbare := level_le_of_lt (c := c) hsign
    rw [write_negation hv]
    by_cases hunsigned : e.IsUnsigned
    · obtain ⟨x, hx, rfl⟩ := hunsigned
      have hread : (call Standard.negation [literal x]).readBack c.minimal = .literal x.opposite := by
        rw [readBack]
        simp [signed?, hx]
      have hspells : SpellsAs v n sign False ("-" ++ x.text).toList (.literal x.opposite) := by
        rw [String.toList_append]
        exact ((hnumeral x rfl).minus hx).mono (by decide)
      rw [hread, write]
      exact hspells.parenthesize hsign hc hbare fun _ => False.elim
    · have hoperand := h.alone (c.under Standard.negation Standard.negationDescription)
        (Int.le_refl _) (apart_of_operator (fun o ho heq => ?_) e)
      · have htight : (c.under Standard.negation Standard.negationDescription).level = tightest := by
          cases hminimal : c.minimal <;>
            simp only [Surroundings.level, Surroundings.under, hminimal] <;> rfl
        rw [htight] at hoperand
        have hspells : SpellsAs v n sign False
            ("-" ++ e.write v.functions
              (c.under Standard.negation Standard.negationDescription)).toList
            (.call Standard.negation [e.readBack c.minimal]) := by
          rw [String.toList_append]
          exact (hoperand.imp fun himp => hunsigned (himp rfl)).negate
        rw [readBack_call (signed?_of_not_isUnsigned hunsigned _) (.inl not_flattens_negation)]
        exact hspells.parenthesize hsign hc hbare fun _ => False.elim
      · exact o.place_ne_negation (Option.some.inj heq).symm

theorem writtenBack_assign (hassign : assignmentPrecedence v.functions = 1) {target value : Expr}
    (htarget : WrittenBack v n target) (hvalue : WrittenBack v n value) :
    WrittenBack v n (.assign target value) := by
  refine writtenBack_of_alone (fun _ _ _ _ heq => by cases heq) fun c hc => ?_
  have hapart : ∀ e, Apart (c.inside 1) e := apart_of_operator fun _ _ h => by cases h
  have hlevel : BinaryOperator.assign.precedence + 1 ≤ (c.inside 1).level := le_level rfl
  have hleft := (htarget.alone (c.inside 1) (by change (1 : Int) ≤ 10; decide) (hapart target)).mono
    (Nat.le_of_succ_le hlevel)
  have hright := (hvalue.alone (c.inside 1) (by change (1 : Int) ≤ 10; decide) (hapart value)).mono
    hlevel
  have hjoin := hleft.join .assign hright
  have htext : (target.write v.functions (c.inside 1)).toList ++
      (' ' :: BinaryOperator.assign.symbol.toList ++
        ' ' :: (value.write v.functions (c.inside 1)).toList) =
      (target.write v.functions (c.inside 1) ++ " = " ++
        value.write v.functions (c.inside 1)).toList := by
    simp [BinaryOperator.symbol]
  rw [htext] at hjoin
  rw [write, hassign, readBack]
  have hbare : (c.minimal && decide (c.precedence ≤ 0)) = true → c.level ≤ 1 := by
    intro hbare
    obtain ⟨hminimal, hle⟩ := Bool.and_eq_true_iff.1 hbare
    have hle := of_decide_eq_true hle
    simp only [Surroundings.level, hminimal, if_true]
    omega
  refine hjoin.parenthesize (Nat.le_refl 1) hc hbare fun h _ htight => ?_
  have hlevel := hbare h
  rw [htight] at hlevel
  exact absurd hlevel (by decide)

theorem writeAll_eq_map (r : Registry) (c : Surroundings) (es : List Expr) :
    writeAll r c es = es.map (write r c) := by
  induction es with
  | nil => rw [writeAll, List.map_nil]
  | cons e rest ih => rw [writeAll, ih, List.map_cons]

/-- What follows the first operand of an operator: the others, each after the operator. -/
def chainText (o : BinaryOperator) (texts : List String) : List Char :=
  texts.flatMap fun text => ' ' :: o.symbol.toList ++ ' ' :: text.toList

theorem toList_intercalate (o : BinaryOperator) (first : String) (others : List String) :
    ((" " ++ o.symbol ++ " ").intercalate (first :: others)).toList =
      first.toList ++ chainText o others := by
  induction others generalizing first with
  | nil => simp [chainText]
  | cons second others ih =>
      rw [String.intercalate_cons_cons, String.toList_append, ih]
      simp [chainText]

/-- The text of an operator with its operands. -/
theorem write_operator (hv : v.functions.HasOperators) (c : Surroundings) {args : List Expr}
    (hcount : 2 ≤ args.length) :
    (call o.place args).write v.functions c =
      parenthesize (c.isBare o.place o.description) ((" " ++ o.symbol ++ " ").intercalate
        (args.map (write v.functions (c.under o.place o.description)))) := by
  have hwritten : writtenAs o.description args.length = .infixOp := by
    simp [writtenAs, hcount]
  have hsymbol : o.description.favouredName = o.symbol := by cases o <;> rfl
  rw [write]
  simp only [hv.operator o, hwritten, hsymbol, writeAll_eq_map]

/-- An expression goes on with further operands of the same operator. -/
theorem SpellsAs.chain {c : Surroundings} {left : List Char} {numeral : Prop} {others : List Expr}
    (h : ∀ a ∈ others, Continues v n o (a.write v.functions c).toList (operands c.minimal o.place a))
    (hleft : SpellsAs v n o.precedence numeral left e) :
    SpellsAs v n o.precedence numeral (left ++ chainText o (others.map (write v.functions c)))
      ((spread c.minimal o.place others).foldl o.combine e) := by
  induction others generalizing left e with
  | nil =>
      rw [spread_nil]
      simpa [chainText] using hleft
  | cons a others ih =>
      have hnext := ih (fun a ha => h a (List.mem_cons_of_mem _ ha))
        ((h a List.mem_cons_self).next hleft)
      rw [spread_cons, List.foldl_append]
      simpa [chainText] using hnext

/-- The operands of a sum or product may be operands of the same one around it. -/
theorem continues_operands {c : Surroundings} {first : Expr} {others : List Expr}
    (h : ∀ a ∈ first :: others,
      Continues v n o (a.write v.functions c).toList (operands c.minimal o.place a)) :
    Continues v n o
      ((" " ++ o.symbol ++ " ").intercalate ((first :: others).map (write v.functions c))).toList
      (spread c.minimal o.place (first :: others)) := by
  have hfirst := h first List.mem_cons_self
  have hothers := fun a ha => h a (List.mem_cons_of_mem first ha)
  rw [List.map_cons, toList_intercalate, spread_cons]
  constructor
  · obtain ⟨e, rest, hpieces, hspells⟩ := hfirst.first
    refine ⟨e, rest ++ spread c.minimal o.place others, by rw [hpieces, List.cons_append], ?_⟩
    rw [List.foldl_append]
    exact hspells.chain hothers
  · intro left e numeral hleft
    have hnext := (hfirst.next hleft).chain hothers
    rw [List.foldl_append]
    simpa using hnext

theorem Continues.ne_nil {text : List Char} {pieces : List Expr} (h : Continues v n o text pieces) :
    pieces ≠ [] := by
  obtain ⟨e, rest, rfl, -⟩ := h.first
  simp

/-- Where a tree is apart from its surroundings, only precedence lets parentheses be left out. -/
theorem isBare_of_apart {c : Surroundings} {args : List Expr} (hcount : 2 ≤ args.length)
    (h : Apart c (.call o.place args)) :
    c.isBare o.place o.description = (c.minimal && decide (c.precedence < o.precedence)) := by
  have hassociative : o.description.associative = o.flattens := by cases o <;> rfl
  have hown : (c.minimal && o.flattens && c.operator == some o.place) = false := by
    refine Bool.eq_false_iff.2 fun hall => ?_
    simp only [Bool.and_eq_true, beq_iff_eq] at hall
    exact h o hall.1.2 hall.1.1 hall.2 args hcount rfl
  unfold Surroundings.isBare
  rw [hassociative, BinaryOperator.precedence_description]
  cases hminimal : c.minimal
  · rfl
  · rw [hminimal, Bool.true_and] at hown
    rw [Bool.true_and, Bool.true_and, Bool.and_assoc, hown, Bool.and_false, Bool.or_false]

/-- An operator with its operands, from what its operands spell. -/
theorem SpellsAs.operator (hv : v.functions.HasOperators) {c : Surroundings} {args : List Expr}
    {e' : Expr} {numeral : Prop} (hcount : 2 ≤ args.length) (hc : c.precedence ≤ sign)
    (hapart : Apart c (.call o.place args))
    (h : SpellsAs v n o.precedence numeral ((" " ++ o.symbol ++ " ").intercalate
      (args.map (write v.functions (c.under o.place o.description)))).toList e') (numeral' : Prop) :
    SpellsAs v n c.level (c.level = tightest → numeral')
      ((Expr.call o.place args).write v.functions c).toList e' := by
  have hprecedence : 1 ≤ o.precedence ∧ o.precedence < tightest := by cases o <;> decide
  rw [write_operator hv c hcount, isBare_of_apart hcount hapart]
  have hbare := level_le_of_lt (c := c) hprecedence.1
  refine h.parenthesize hprecedence.1 hc hbare fun hb _ htight => ?_
  have hlevel := hbare hb
  omega

/-- A sum or product of two or more operands. -/
theorem writtenBack_sum (hv : v.functions.HasOperators) (ho : o.flattens = true)
    {first second : Expr} {others : List Expr}
    (h : ∀ a ∈ first :: second :: others, WrittenBack v n a) :
    WrittenBack v n (.call o.place (first :: second :: others)) := by
  have hcount : 2 ≤ (first :: second :: others).length := by simp
  have hchain : ∀ c : Surroundings, Continues v n o
      ((" " ++ o.symbol ++ " ").intercalate ((first :: second :: others).map
        (write v.functions (c.under o.place o.description)))).toList
      (spread c.minimal o.place (first :: second :: others)) := by
    intro c
    exact continues_operands fun a ha => (h a ha).operand o (c.under o.place o.description) ho rfl
      (BinaryOperator.precedence_description o)
  have halone : ∀ c : Surroundings, c.precedence ≤ sign →
      Apart c (.call o.place (first :: second :: others)) →
      SpellsAs v n c.level (c.level = tightest →
          (Expr.call o.place (first :: second :: others)).IsUnsigned)
        ((Expr.call o.place (first :: second :: others)).write v.functions c).toList
        ((Expr.call o.place (first :: second :: others)).readBack c.minimal) := by
    intro c hc hapart
    obtain ⟨e, rest, hpieces, hspells⟩ := (hchain c).first
    have hrest : rest ≠ [] := by
      have hne : ∀ a ∈ first :: second :: others, operands c.minimal o.place a ≠ [] :=
        fun a ha => ((h a ha).operand o (c.under o.place o.description) ho rfl
          (BinaryOperator.precedence_description o)).ne_nil
      obtain ⟨x, xs, hx⟩ := List.exists_cons_of_ne_nil (hne first (by simp))
      obtain ⟨y, ys, hy⟩ := List.exists_cons_of_ne_nil (hne second (by simp))
      rw [spread_cons, spread_cons, hx, hy, List.cons_append] at hpieces
      rw [← (List.cons.inj hpieces).2]
      simp
    rw [readBack_of_flattens ho hcount, hpieces, ← foldl_combine_eq_joined ho e hrest]
    exact hspells.operator hv hcount hc hapart _
  refine ⟨halone, fun o' c ho' hoperator hprecedence => ?_⟩
  by_cases hsame : c.minimal = true ∧ o' = o
  · -- The sum is an operand of itself, so it has no parentheses and its operands go on.
    obtain ⟨hminimal, rfl⟩ := hsame
    have hunder : c.under o'.place o'.description = c := by
      simp only [Surroundings.under, BinaryOperator.precedence_description, ← hprecedence, ← hoperator]
    have hbare : c.isBare o'.place o'.description = true := by
      have hassociative : o'.description.associative = o'.flattens := by cases o' <;> rfl
      simp [Surroundings.isBare, hminimal, hprecedence, hassociative, ho, hoperator]
    have hoperands : operands c.minimal o'.place (.call o'.place (first :: second :: others)) =
        spread c.minimal o'.place (first :: second :: others) := by
      rw [operands]
      simp [hminimal]
    have hown := hchain c
    rw [hunder] at hown
    rw [hoperands, write_operator hv c hcount, hbare, hunder]
    exact hown
  · have hne : c.minimal = true → ∀ args : List Expr, 2 ≤ args.length →
        Expr.call o.place (first :: second :: others) ≠ .call o'.place args := by
      intro hminimal args _ heq
      exact hsame ⟨hminimal, (BinaryOperator.place_injective (Expr.call.inj heq).1).symm⟩
    have hapart : Apart c (.call o.place (first :: second :: others)) := by
      intro o'' _ hminimal hoperator' args hcount' heq
      rw [hoperator, Option.some.injEq] at hoperator'
      obtain rfl := BinaryOperator.place_injective hoperator'
      exact hne hminimal args hcount' heq
    have hc : c.precedence ≤ sign := by
      rw [hprecedence]
      cases o' <;> decide
    rw [operands_of_ne hne]
    exact continues_of_spellsAs ((halone c hc hapart).mono (le_level hprecedence))

/-- Any other operator has two operands. -/
theorem writtenBack_pair (hv : v.functions.HasOperators) (ho : o ≠ .assign)
    (hflattens : o.flattens = false) {first second : Expr} (hfirst : WrittenBack v n first)
    (hsecond : WrittenBack v n second) : WrittenBack v n (.call o.place [first, second]) := by
  refine writtenBack_of_alone (fun o' ho' _ _ heq => ?_) fun c hc => ?_
  · obtain rfl := BinaryOperator.place_injective (Expr.call.inj heq).1
    exact absurd ho' (by simp [hflattens])
  · have hunder : (c.under o.place o.description).precedence = o.precedence :=
      BinaryOperator.precedence_description o
    have hbound : (c.under o.place o.description).precedence ≤ sign := by
      rw [hunder]
      cases o <;> decide
    have hapart : ∀ e, Apart (c.under o.place o.description) e := by
      refine apart_of_operator fun o' ho' heq => ?_
      obtain rfl := BinaryOperator.place_injective (Option.some.inj heq)
      exact absurd ho' (by simp [hflattens])
    have hleft := (hfirst.alone _ hbound (hapart first)).mono (Nat.le_of_succ_le (le_level hunder))
    have hright := (hsecond.alone _ hbound (hapart second)).mono (le_level hunder)
    have hjoin := hleft.join o hright
    have htext : (first.write v.functions (c.under o.place o.description)).toList ++
        (' ' :: o.symbol.toList ++
          ' ' :: (second.write v.functions (c.under o.place o.description)).toList) =
        ((" " ++ o.symbol ++ " ").intercalate ([first, second].map
          (write v.functions (c.under o.place o.description)))).toList := by
      rw [List.map_cons, toList_intercalate]
      simp [chainText]
    rw [htext, combine_of_ne ho fun h => absurd h (by simp [hflattens])] at hjoin
    have hnotFlattens : flattens o.place = false := (flattens_place o).trans hflattens
    rw [readBack_call (signed?_of_ne o.place_ne_negation _) (.inl hnotFlattens)]
    refine hjoin.operator hv (by simp) hc (fun o' ho' _ _ _ _ heq => ?_) _
    obtain rfl := BinaryOperator.place_injective (Expr.call.inj heq).1
    exact absurd ho' (by simp [hflattens])

/-! ## Readable trees -/

/-- The literals of a readable tree are numbers. -/
theorem Readable.numeral (hw : ∀ x, w.double x → Token.ReadsBack x) {x : Value}
    (h : Readable w v n (.literal x)) : Numeral v n x := by
  cases h with
  | int k => exact numeral_int k
  | double hx => exact numeral_double (hw _ hx)

/-- The text of a readable tree spells the tree that is read back. -/
theorem writtenBack_of_readable (hv : v.functions.HasOperators)
    (hw : ∀ x, w.double x → Token.ReadsBack x) (h : Readable w v n e) : WrittenBack v n e := by
  induction h with
  | int k => exact (numeral_int k).writtenBack
  | double hx => exact (numeral_double (hw _ hx)).writtenBack
  | var hname hconstant hid =>
      refine writtenBack_of_tightest (fun _ _ _ _ heq => by cases heq) fun c => ?_
      rw [write, readBack]
      exact spellsAs_var hname hconstant hid
  | constant hname hconstant =>
      refine writtenBack_of_tightest (fun _ _ _ _ heq => by cases heq) fun c => ?_
      rw [write, readBack]
      exact spellsAs_constant hname hconstant
  | negate he ih =>
      refine writtenBack_negate hv ih fun x heq => ?_
      rw [heq] at he
      exact he.numeral hw
  | @operator o first second others ho _ hothers _ ih =>
      cases hflattens : o.flattens with
      | true => exact writtenBack_sum hv hflattens ih
      | false =>
          rcases hothers with rfl | htrue
          · exact writtenBack_pair hv ho hflattens (ih first (by simp)) (ih second (by simp))
          · exact absurd (htrue.symm.trans hflattens) (by decide)
  | short _ ho hfind hshort _ ih => exact writtenBack_short hv ho hfind hshort ih
  | named hget hregular hname hfind hcount _ ih =>
      exact writtenBack_named hv hget hregular hname hfind hcount ih
  | assign hprecedence _ _ htarget hvalue => exact writtenBack_assign hprecedence htarget hvalue

/-- What a readable tree is written as is parsed to the tree that is read back. -/
theorem parse_write (hv : v.functions.HasOperators) (hw : ∀ x, w.double x → Token.ReadsBack x)
    (h : Readable w v n e) (minimal : Bool) :
    ∃ m, n.Extends m ∧
      Parser.parse v n (Token.scan (e.write v.functions { minimal })) =
        (.ok (e.readBack minimal), m) := by
  obtain ⟨tree, htree, hspells⟩ := (writtenBack_of_readable hv hw h).alone { minimal }
    (Int.natCast_nonneg sign) (apart_of_operator (fun _ _ h => by cases h) e)
  obtain ⟨k, tokens, hmoves, hspelt⟩ := hspells [] Token.ready_nil 0
  have htokens : k.closed.reverse = tokens := by
    rw [hspelt.closed, List.append_nil, List.reverse_reverse]
  have hscan : Token.scan (e.write v.functions { minimal }) = Token.settle true tokens := by
    rw [Token.scan_eq_of_moves hmoves, htokens, hspelt.ends.filterMap_settleSigns]
  have hlevel : 1 ≤ ({ minimal } : Surroundings).level := one_le_level_inside { minimal }
  obtain ⟨m, hextends, -, hparse⟩ := parse_eq_of_derives hv (hspelt.derives.mono hlevel) n
  have hagrees : Agrees m.number n := fun name id hid =>
    Names.number_of_find? (hextends.find?_eq_some hid)
  refine ⟨m, hextends, ?_⟩
  rw [hscan, hparse, htree m.number hagrees]

/-! ## A calculator with the standard functions and constants -/

/-- The constants are known under the names by which they are shown. -/
theorem isName_of_constant? {c : Calculator}
    (hc : c.vocabulary = (Calculator.new { constants := true, functions := true }).vocabulary)
    {name : String} {constant : Constant} (h : c.vocabulary.constant? name = some constant) :
    Token.IsName constant.name.toList ∧ c.vocabulary.constant? constant.name = some constant := by
  rw [hc] at h ⊢
  have hstandard := Calculator.isStandard_of_constant? h
  refine ⟨?_, hstandard.known⟩
  rcases hstandard.name with hname | hname <;> rw [hname] <;> decide +kernel

/-- What has been read without error is readable, and the tree that is read back is read from what
it is written as. -/
theorem readable_and_readBack_of_parse {c : Calculator}
    (hc : c.vocabulary = (Calculator.new { constants := true, functions := true }).vocabulary)
    (hw : ∀ x, w.double x → Token.ReadsBack x) {text : String}
    (hparse : (c.parse text).1.error? = none) (htext : w.Allows (Token.scan text)) :
    Readable w c.vocabulary (c.parse text).2.names (c.parse text).1 ∧
      ∀ minimal, ((c.parse text).2.parse ((c.parse text).1.write c.registry { minimal })).1 =
        (c.parse text).1.readBack minimal := by
  have hfunctions : c.vocabulary.functions = Standard.registry := by
    rw [hc]
    exact Calculator.registry_new _
  have hreadable := htext.readable hfunctions (fun _ _ h => isName_of_constant? hc h)
    (Calculator.parse_eq_ok hparse)
  refine ⟨hreadable, fun minimal => ?_⟩
  obtain ⟨m, -, hagain⟩ :=
    parse_write (hfunctions ▸ Standard.hasOperators_registry) hw hreadable minimal
  exact Calculator.parse_of_eq_ok hagain

end Expr

end Reckoner
