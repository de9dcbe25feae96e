import Reckoner.Proofs.Parser.Grammar
import Reckoner.Proofs.Parser.Steps
import Reckoner.Proofs.Token.Spelling

/-!
Reduction of postfix order to a tree.

Numbers are given to variables while tokens are reduced, so a tree is known in the end only. A list
of tokens reduces to a `NamedTree` if it adds this tree to any stack, with the numbers of the names
met by then; names met later must not matter, which is what `Settled` says.
-/
namespace Reckoner

namespace Grammar

open Reckoner.Parser

variable {v : Vocabulary} {n m : Names}

/-! ## Trees and names -/

/-- Names met later than those of `n` do not occur in the tree. -/
def Settled (tree : NamedTree) (n : Names) : Prop :=
  ∀ m : Names, n.Extends m → tree m.number = tree n.number

theorem Settled.extends {tree : NamedTree} (h : Settled tree n) (hnm : n.Extends m) :
    Settled tree m := by
  intro k hmk
  rw [h k (hnm.trans hmk), h m hnm]

theorem settled_const (e : Expr) : Settled (fun _ => e) n :=
  fun _ _ => rfl

theorem settled_nameTree_idOf (v : Vocabulary) (n : Names) (x : String) :
    Settled (nameTree v x) (n.idOf x).2 := by
  intro m h
  unfold nameTree
  cases v.constant? x with
  | some c => rfl
  | none => simp only [h.number_idOf, (Names.Extends.refl _).number_idOf]

/-! ## Reduction of tokens to a tree -/

/-- The tokens in postfix order add one tree to the stack, which is `tree` with the numbers of the
names met in the end. -/
def Reduces (v : Vocabulary) (tokens : List Token) (tree : NamedTree) (n : Names) : Prop :=
  ∀ m : Names, n.Extends m → ∀ stack : List Expr, ∃ m' : Names, m.Extends m' ∧ Settled tree m' ∧
    Yields (tokens.foldlM (reduceToken v) stack) m (tree m'.number :: stack) m'

theorem Reduces.extends {tokens : List Token} {tree : NamedTree} (h : Reduces v tokens tree n)
    (hnm : n.Extends m) : Reduces v tokens tree m :=
  fun k hmk => h k (hnm.trans hmk)

theorem Reduces.ne_nil {tokens : List Token} {tree : NamedTree} (h : Reduces v tokens tree n) :
    tokens ≠ [] := by
  rintro rfl
  obtain ⟨m', _, _, hyields⟩ := h n (Names.Extends.refl n) []
  have heq := (yields_pure.1 hyields).1
  simp at heq

theorem operator?_eq_none {t : Token} (h : operatorId? v t = none) : operator? v t = none := by
  simp [operator?, h]

/-- A token that stands for a tree adds this tree. -/
theorem reduces_ofExpr {tree : NamedTree} (h : Settled tree n) (position : Nat) :
    Reduces v [.ofExpr (tree n.number) position] tree n := by
  intro m hnm stack
  refine ⟨m, Names.Extends.refl m, h.extends hnm, ?_⟩
  have hreduce : reduceToken v stack (.ofExpr (tree n.number) position) =
      pure (tree n.number :: stack) := rfl
  rw [List.foldlM_cons, hreduce, h m hnm]
  rfl

theorem reduces_literal {t : Token} {value : Value}
    (h : ∀ stack, reduceToken v stack t = pure (.literal value :: stack)) :
    Reduces v [t] (fun _ => .literal value) n := by
  intro m _ stack
  refine ⟨m, Names.Extends.refl m, settled_const _, ?_⟩
  rw [List.foldlM_cons, h]
  rfl

theorem reduces_name {t : Token} {x : String} (h : t.kind = .ident x) :
    Reduces v [t] (nameTree v x) n := by
  intro m _ stack
  have hreduce : reduceToken v stack t =
      (operand v t >>= fun e => pure (e :: stack)) := by
    simp [reduceToken, operator?, operatorId?, h]
  rw [List.foldlM_cons, hreduce]
  cases hc : v.constant? x with
  | some c =>
      have htree : nameTree v x = fun _ => .constant c.name c.value := by
        funext numbering
        simp [nameTree, hc]
      refine ⟨m, Names.Extends.refl m, htree ▸ settled_const _, ?_⟩
      simp only [operand, h, hc, htree]
      rfl
  | none =>
      refine ⟨(m.idOf x).2, m.extends_idOf x, settled_nameTree_idOf v m x, ?_⟩
      have htree : nameTree v x (m.idOf x).2.number = .var x (m.idOf x).1 := by
        simp only [nameTree, hc, (Names.Extends.refl _).number_idOf]
      simp only [operand, h, hc, htree]
      rfl

/-! ## Operators -/

theorem operator?_of_isBinary (hv : v.functions.HasOperators) {o : BinaryOperator}
    {t : Token} (h : IsBinary o t) : operator? v t = some (o.place, o.description) := by
  obtain ⟨hkind, htext⟩ := h
  have hid : operatorId? v t = some o.place := by
    have hsymbol := hv.symbol o
    rw [operatorId?, hkind, htext]
    cases o <;> exact hsymbol
  simp only [operator?, hid, hv.operator, Option.map_some]

theorem operator?_of_negate (hv : v.functions.HasOperators) {t : Token}
    (h : t.kind = .negate) :
    operator? v t = some (Standard.negation, Standard.negationDescription) := by
  simp only [operator?, operatorId?, h, hv.negate, hv.negation, Option.map_some]

theorem isBinary_impliedTimes (position : Nat) :
    IsBinary .multiply (impliedTimes position) :=
  ⟨rfl, rfl⟩

theorem build_description (o : BinaryOperator) (left right : Expr) :
    build o.description o.place [left, right] =
      .ok (if o = .assign then .assign left right else .call o.place [left, right]) := by
  cases o <;> rfl

/-- An operator between operands takes the two trees on top of the stack. -/
theorem apply_description (o : BinaryOperator) (t : Token) (left right : Expr)
    (stack : List Expr) :
    apply o.description o.place t (right :: left :: stack) =
      .ok (o.combine left right :: stack) := by
  have hbuild : apply o.description o.place t (right :: left :: stack) =
      .ok ((extend? o.description o.place (right :: left :: stack)).getD
        ((if o = .assign then .assign left right else .call o.place [left, right]) :: stack)) := by
    simp only [apply, o.accepts_two_description, build_description, if_true]
    cases extend? o.description o.place (right :: left :: stack) <;> rfl
  rw [hbuild]
  cases left with
  | call f args =>
      simp only [extend?, o.flattens_description, BinaryOperator.combine]
      by_cases hflat : (o.flattens && f == o.place) = true
      · have hassign : o ≠ .assign := by
          rintro rfl
          simp [BinaryOperator.flattens] at hflat
        simp [hflat, hassign]
      · simp [hflat]
  | _ => simp [extend?, BinaryOperator.combine]

theorem reduceToken_binary (hv : v.functions.HasOperators) {o : BinaryOperator} {t : Token}
    (h : IsBinary o t) (left right : Expr) (stack : List Expr) :
    reduceToken v (right :: left :: stack) t = pure (o.combine left right :: stack) := by
  simp only [reduceToken, operator?_of_isBinary hv h, apply_description]

/-- The negation takes the tree on top of the stack. -/
theorem reduceToken_negate (hv : v.functions.HasOperators) {t : Token}
    (h : t.kind = .negate) (e : Expr) (stack : List Expr) :
    reduceToken v (e :: stack) t = pure (.call Standard.negation [e] :: stack) := by
  have happly : apply Standard.negationDescription Standard.negation t (e :: stack) =
      .ok (.call Standard.negation [e] :: stack) := by
    cases stack with
    | nil => rfl
    | cons a rest => cases a <;> rfl
  simp only [reduceToken, operator?_of_negate hv h, happly]

/-- An operator between operands needs both on the stack. -/
theorem yields_reduceToken_binary (hv : v.functions.HasOperators) {o : BinaryOperator}
    {t : Token} (ht : IsBinary o t) {stack stack' : List Expr}
    (h : Yields (reduceToken v stack t) n stack' m) :
    ∃ left right rest, stack = right :: left :: rest ∧ stack' = o.combine left right :: rest ∧
      n = m := by
  rcases stack with _ | ⟨right, _ | ⟨left, rest⟩⟩
  · rcases yields_reduceToken h with ⟨hnone, -⟩ | ⟨id, f, hoperator, happly, -⟩
    · simp [operator?_of_isBinary hv ht] at hnone
    · cases happly
  · rcases yields_reduceToken h with ⟨hnone, -⟩ | ⟨id, f, hoperator, happly, -⟩
    · simp [operator?_of_isBinary hv ht] at hnone
    · rw [operator?_of_isBinary hv ht] at hoperator
      cases hoperator
      simp [apply, extend?] at happly
  · rw [reduceToken_binary hv ht] at h
    obtain ⟨rfl, rfl⟩ := yields_pure.1 h
    exact ⟨left, right, rest, rfl, rfl, rfl⟩

/-- The negation needs its operand on the stack. -/
theorem yields_reduceToken_negate (hv : v.functions.HasOperators) {t : Token}
    (ht : t.kind = .negate) {stack stack' : List Expr}
    (h : Yields (reduceToken v stack t) n stack' m) :
    ∃ e rest, stack = e :: rest ∧ stack' = .call Standard.negation [e] :: rest ∧ n = m := by
  cases stack with
  | nil =>
      rcases yields_reduceToken h with ⟨hnone, -⟩ | ⟨id, f, hoperator, happly, -⟩
      · simp [operator?_of_negate hv ht] at hnone
      · cases happly
  | cons e rest =>
      rw [reduceToken_negate hv ht] at h
      obtain ⟨rfl, rfl⟩ := yields_pure.1 h
      exact ⟨e, rest, rfl, rfl, rfl⟩

theorem operator?_of_isOperand {t : Token} (ht : t.kind.isOperand = true) :
    operator? v t = none := by
  apply operator?_eq_none
  cases hk : t.kind <;> simp_all [operatorId?, TokenKind.isOperand]

/-- An operand is put onto the stack. -/
theorem yields_reduceToken_operand {t : Token} (ht : t.kind.isOperand = true)
    {stack stack' : List Expr} (h : Yields (reduceToken v stack t) n stack' m) :
    ∃ e, Yields (operand v t) n e m ∧ stack' = e :: stack := by
  rcases yields_reduceToken h with ⟨-, hoperand⟩ | ⟨id, f, hoperator, -, -⟩
  · exact hoperand
  · simp [operator?_of_isOperand ht] at hoperator

/-- The token is an operator between operands or a negation. -/
def IsOperation (t : Token) : Prop :=
  t.kind = .negate ∨ ∃ o, IsBinary o t

theorem isOperation_of_spelled {t : Token} (hspelled : t.Spelled)
    (ht : t.kind.isOperator = true) : IsOperation t := by
  have hbinary : ∀ o : BinaryOperator, t.kind = o.kind → IsOperation t :=
    fun o hkind => .inr ⟨o, hkind, hspelled.text_eq_symbol hkind⟩
  cases hk : t.kind with
  | negate => exact .inl hk
  | plus => exact hbinary .add hk
  | minus => exact hbinary .subtract hk
  | asterisk => exact hbinary .multiply hk
  | slash => exact hbinary .divide hk
  | circumflex => exact hbinary .power hk
  | equals => exact hbinary .assign hk
  | _ => simp [hk, TokenKind.isOperator] at ht

theorem Reduces.binary (hv : v.functions.HasOperators) {o : BinaryOperator} {t : Token}
    (ht : IsBinary o t) {left right : List Token} {leftTree rightTree : NamedTree}
    (hleft : Reduces v left leftTree n) (hright : Reduces v right rightTree n) :
    Reduces v (left ++ right ++ [t])
      (fun numbering => o.combine (leftTree numbering) (rightTree numbering)) n := by
  intro m hnm stack
  obtain ⟨m₁, hm₁, hsettled₁, hyields₁⟩ := hleft m hnm stack
  obtain ⟨m₂, hm₂, hsettled₂, hyields₂⟩ :=
    hright m₁ (hnm.trans hm₁) (leftTree m₁.number :: stack)
  refine ⟨m₂, hm₁.trans hm₂, ?_, ?_⟩
  · intro k hk
    simp only [hsettled₂ k hk, hsettled₁ k (hm₂.trans hk), hsettled₁ m₂ hm₂]
  · rw [List.foldlM_append, List.foldlM_append, bind_assoc]
    refine hyields₁.bind (hyields₂.bind ?_)
    rw [← hsettled₁ m₂ hm₂, List.foldlM_cons, reduceToken_binary hv ht]
    simp

theorem Reduces.negate (hv : v.functions.HasOperators) {t : Token} (ht : t.kind = .negate)
    {tokens : List Token} {tree : NamedTree} (h : Reduces v tokens tree n) :
    Reduces v (tokens ++ [t]) (fun numbering => .call Standard.negation [tree numbering]) n := by
  intro m hnm stack
  obtain ⟨m₁, hm₁, hsettled, hyields⟩ := h m hnm stack
  refine ⟨m₁, hm₁, ?_, ?_⟩
  · intro k hk
    simp only [hsettled k hk]
  · rw [List.foldlM_append]
    refine hyields.bind ?_
    rw [List.foldlM_cons, reduceToken_negate hv ht]
    simp

end Grammar

end Reckoner
