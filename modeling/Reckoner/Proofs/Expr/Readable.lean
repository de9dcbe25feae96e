import Reckoner.Expr.Printer
import Reckoner.Proofs.Calculator
import Reckoner.Proofs.Parser.Trees
import Reckoner.Proofs.Standard.Constants
import Reckoner.Proofs.Token.Draft

/-!
Trees that can be read back from their text.

The text of a tree can be read again where all names are names to the reader. The full form loses
nothing of it if it has no doubles besides and if no sum begins with a sum and no product with a
product, which the reader would make one. The trees that are read are such, unless a double or a
call of the sum or the product by name occurs. How much of this is let through is a parameter.
-/
namespace Reckoner

namespace Expr

/-- The opposite of a whole number without sign, if that is what the call stands for. -/
def opposite? (id : FunctionId) : List Expr → Option (BitVec 64)
  | [literal (.int n)] => if id = Standard.negation ∧ 0 ≤ n.toInt then some (-n) else none
  | _ => none

mutual

/-- The tree with every negation of a whole number without sign replaced by the opposite number. -/
def foldNegations : Expr → Expr
  | literal v => literal v
  | var name id => var name id
  | constant name v => constant name v
  | call id arguments =>
    match opposite? id arguments with
    | some n => literal (.int n)
    | none => call id (foldAllNegations arguments)
  | assign target value => assign (foldNegations target) (foldNegations value)

/-- The same in several trees. -/
def foldAllNegations : List Expr → List Expr
  | [] => []
  | e :: rest => foldNegations e :: foldAllNegations rest

end

/-- What a tree may have in it although its text may be read as another tree. -/
structure Leeway where
  /-- The doubles that may be written out. -/
  double : Float → Prop := fun _ => False
  /-- Sums and products may have been called by name: they may begin with one of their kind, and may
  have fewer than two operands. -/
  byName : Prop := False

/-- A tree that the reader reads from its text, as it is but for negations of numbers without sign
and for what the leeway allows. -/
inductive Readable (w : Leeway) (v : Vocabulary) (n : Names) : Expr → Prop
  | int (k : BitVec 64) : Readable w v n (.literal (.int k))
  | double {x : Float} (hx : w.double x) : Readable w v n (.literal (.double x))
  | var {name : String} {id : VariableId} (hname : Token.IsName name.toList)
      (hconstant : v.constant? name = none) (hid : n.find? name = some id) :
      Readable w v n (.var name id)
  | constant {c : Constant} (hname : Token.IsName c.name.toList)
      (hconstant : v.constant? c.name = some c) : Readable w v n (.constant c.name c.value)
  | negate {e : Expr} (h : Readable w v n e) : Readable w v n (.call Standard.negation [e])
  | operator {o : BinaryOperator} {first second : Expr} {others : List Expr} (ho : o ≠ .assign)
      (hfirst : w.byName ∨ (o.flattens = true → ∀ args, first ≠ .call o.place args))
      (hothers : others = [] ∨ o.flattens = true)
      (hargs : ∀ e ∈ first :: second :: others, Readable w v n e) :
      Readable w v n (.call o.place (first :: second :: others))
  | short {o : BinaryOperator} {args : List Expr} (hw : w.byName) (ho : o.flattens = true)
      (hfind : v.functions.findRegular? o.description.name = some o.place)
      (hshort : args.length < 2) (hargs : ∀ e ∈ args, Readable w v n e) :
      Readable w v n (.call o.place args)
  | named {id : FunctionId} {f : NamedFunction} {e : Expr} (hget : v.functions.get? id = some f)
      (hregular : f.fixity = .regular) (hname : Token.IsName f.favouredName.toList)
      (hfind : v.functions.findRegular? f.favouredName = some id)
      (hcount : f.arity.accepts 1 = true) (h : Readable w v n e) : Readable w v n (.call id [e])
  | assign {target value : Expr} (hprecedence : assignmentPrecedence v.functions = 1)
      (htarget : Readable w v n target) (hvalue : Readable w v n value) :
      Readable w v n (.assign target value)

variable {w : Leeway} {v : Vocabulary} {n m : Names} {e : Expr}

theorem Readable.extends (h : Readable w v n e) (hnm : n.Extends m) : Readable w v m e := by
  induction h with
  | int k => exact .int k
  | double hx => exact .double hx
  | var hname hconstant hid => exact .var hname hconstant (hnm.find?_eq_some hid)
  | constant hname hconstant => exact .constant hname hconstant
  | negate _ ih => exact .negate ih
  | operator ho hfirst hothers _ ih => exact .operator ho hfirst hothers ih
  | short hw ho hfind hshort _ ih => exact .short hw ho hfind hshort ih
  | named hget hregular hname hfind hcount _ ih =>
      exact .named hget hregular hname hfind hcount ih
  | assign hprecedence _ _ htarget hvalue => exact .assign hprecedence htarget hvalue

/-- The negation is written before its operand. -/
theorem ne_negation_of_regular (hv : v.functions.HasOperators) {id : FunctionId}
    {f : NamedFunction} (hget : v.functions.get? id = some f) (hregular : f.fixity = .regular) :
    id ≠ Standard.negation := by
  rintro rfl
  rw [hv.negation, Option.some.injEq] at hget
  rw [← hget] at hregular
  cases hregular

/-- A readable sum or product takes further operands. -/
theorem Readable.append (hv : v.functions.HasOperators) {o : BinaryOperator} {args : List Expr}
    (h : Readable w v n (.call o.place args)) (ho : o.flattens = true) (he : Readable w v n e) :
    Readable w v n (.call o.place (args ++ [e])) := by
  generalize hcall : Expr.call o.place args = call at h
  cases h with
  | negate _ =>
      obtain ⟨hplace, -⟩ := Expr.call.inj hcall
      cases o <;> cases hplace
  | @operator o' first second others ho' hfirst hothers hargs =>
      obtain ⟨hplace, rfl⟩ := Expr.call.inj hcall
      obtain rfl := BinaryOperator.place_injective hplace
      refine .operator ho' hfirst (.inr ho) fun e' he' => ?_
      rcases List.mem_append.1 (show e' ∈ (first :: second :: others) ++ [e] from he') with he' | he'
      · exact hargs e' he'
      · obtain rfl : e' = e := by simpa using he'
        exact he
  | @short o' args' hw ho' hfind hshort hargs =>
      obtain ⟨hplace, rfl⟩ := Expr.call.inj hcall
      obtain rfl := BinaryOperator.place_injective hplace
      match args, hshort with
      | [], _ => exact .short hw ho hfind (by simp) (by simpa using he)
      | [first], _ =>
          have hboth : ∀ e' ∈ [first, e], Readable w v n e' := by
            simpa using ⟨hargs first (by simp), he⟩
          exact .operator (BinaryOperator.ne_assign_of_flattens ho) (.inl hw) (.inl rfl) hboth
  | named hget hregular _ _ _ _ =>
      obtain ⟨rfl, -⟩ := Expr.call.inj hcall
      rw [hv.operator o, Option.some.injEq] at hget
      rw [← hget, o.fixity_description] at hregular
      cases hregular
  | _ => cases hcall

/-- An operator between readable trees makes a readable tree. -/
theorem Readable.combine (hv : v.functions.HasOperators)
    (hprecedence : assignmentPrecedence v.functions = 1) (o : BinaryOperator) {left right : Expr}
    (hleft : Readable w v n left) (hright : Readable w v n right) :
    Readable w v n (o.combine left right) := by
  have hpair : ∀ e ∈ [left, right], Readable w v n e := by simp [hleft, hright]
  unfold BinaryOperator.combine
  split
  · exact .assign hprecedence hleft hright
  · next ho =>
      split
      next f args =>
        split
        next hflattens =>
          obtain ⟨ho', hplace⟩ := Bool.and_eq_true_iff.1 hflattens
          obtain rfl : f = o.place := by simpa using hplace
          exact hleft.append hv ho' hright
        next hflattens =>
          refine .operator ho (.inr fun hf args' heq => ?_) (.inl rfl) hpair
          obtain ⟨rfl, -⟩ := Expr.call.inj heq
          exact hflattens (by simp [hf])
      next hcall => exact .operator ho (.inr fun _ args heq => hcall _ _ heq) (.inl rfl) hpair

/-! ## Calls by name -/

/-- What is registered is an operator, the negation, or a function of one argument that is found
under the name by which it is written. -/
theorem function_cases {id : FunctionId} {f : NamedFunction}
    (h : Standard.registry.get? id = some f) :
    (∃ o : BinaryOperator, id = o.place) ∨ id = Standard.negation ∨
      f.fixity = .regular ∧ f.arity = .exactly 1 ∧
        Standard.registry.findRegular? f.favouredName = some id ∧
        Token.IsName f.favouredName.toList := by
  have hall : ∀ i < 23, i ∈ [0, 1, 2, 3, 5, 6] ∨ i = Standard.negation ∨
      (Standard.registry.get? i).all (fun f => decide (f.fixity = .regular ∧ f.arity = .exactly 1 ∧
        Standard.registry.findRegular? f.favouredName = some i ∧
        Token.IsName f.favouredName.toList)) = true := by
    decide +kernel
  have hlt : id < Standard.registry.functions.length := (List.getElem?_eq_some_iff.1 h).1
  rcases hall id hlt with hid | hid | hid
  · left
    simp only [List.mem_cons, List.not_mem_nil, or_false] at hid
    rcases hid with rfl | rfl | rfl | rfl | rfl | rfl
    · exact ⟨.add, rfl⟩
    · exact ⟨.multiply, rfl⟩
    · exact ⟨.subtract, rfl⟩
    · exact ⟨.divide, rfl⟩
    · exact ⟨.power, rfl⟩
    · exact ⟨.assign, rfl⟩
  · exact .inr (.inl hid)
  · rw [h] at hid
    exact .inr (.inr (by simpa using hid))

/-- A function that is found under a name has that name; operators are found under their symbols
besides, which are no names. -/
theorem name_of_findRegular? {name : String} {o : BinaryOperator}
    (hname : Token.IsName name.toList) (h : Standard.registry.findRegular? name = some o.place) :
    name = o.description.name := by
  rcases hfind : Standard.registry.findByName? name with _ | id
  · rw [Registry.findRegular?, hfind, Option.none_or] at h
    obtain ⟨before, after, hsymbols, -⟩ := List.lookup_eq_some_iff.1 h
    have hmem : (name, o.place) ∈ Standard.registry.symbols := hsymbols ▸ by simp
    have hall : ∀ pair ∈ Standard.registry.symbols, Token.IsName pair.1.toList →
        pair.2 ∉ [0, 1, 2, 3, 5, 6] := by
      decide +kernel
    have hplace : o.place ∈ [0, 1, 2, 3, 5, 6] := by cases o <;> decide
    exact absurd hplace (hall _ hmem hname)
  · rw [Registry.findRegular?, hfind, Option.some_or] at h
    cases h
    obtain ⟨f, hget, hf⟩ := Standard.coherent_registry.exists_get? hfind
    rw [BinaryOperator.get?_place, Option.some.injEq] at hget
    rw [hget, hf]

/-- An operand that, if it is a name, can be read back, and if it is a double, is let through. -/
structure ReadableOperand (w : Leeway) (t : Token) : Prop where
  spelled : t.Spelled
  double : ∀ x, t.kind = .double x → w.double x
  name : t.kind.isIdent = true → Token.IsName t.text.toList

/-- The name of a function, other than the sum and the product unless these are let through. -/
structure ReadableCallee (w : Leeway) (t : Token) : Prop where
  name : Token.IsName t.text.toList
  byName : w.byName ∨ t.text ≠ "add" ∧ t.text ≠ "multiply"

theorem readable_operand
    (hconstants : ∀ name c, v.constant? name = some c →
      Token.IsName c.name.toList ∧ v.constant? c.name = some c)
    {t : Token} (ht : ReadableOperand w t) (h : Parser.Yields (Parser.operand v t) n e m) :
    Readable w v m e := by
  have hname : ∀ {name : String}, t.kind = .ident name → Token.IsName name.toList := by
    intro name hk
    rw [← ht.spelled.text_eq_ident hk]
    exact ht.name (by rw [hk]; rfl)
  cases Parser.stands_of_yields h with
  | int _ => exact .int _
  | double hk => exact .double (ht.double _ hk)
  | tree hk => exact absurd hk (ht.spelled.kind_ne_tree e)
  | constant hk hconstant =>
      obtain ⟨hown, hknown⟩ := hconstants _ _ hconstant
      exact .constant hown hknown
  | var hk hconstant => exact .var (hname hk) hconstant (n.find?_idOf _)

/-- Only a sum or a product is called under its name. -/
theorem byName_of_flattens {t : Token} {o : BinaryOperator} (ht : ReadableCallee w t)
    (hfind : Standard.registry.findRegular? t.text = some o.place) (ho : o.flattens = true) :
    w.byName := by
  have htext := name_of_findRegular? ht.name hfind
  refine ht.byName.resolve_right fun hother => ?_
  cases o
  case add => exact hother.1 htext
  case multiply => exact hother.2 htext
  all_goals cases ho

/-- A sum or a product of any number of operands. -/
theorem readable_sum {o : BinaryOperator} {args : List Expr} (ho : o.flattens = true)
    (hfind : v.functions.findRegular? o.description.name = some o.place) (hw : w.byName)
    (hargs : ∀ e ∈ args, Readable w v n e) : Readable w v n (callTree o.place args) := by
  have hassign := BinaryOperator.ne_assign_of_flattens ho
  have hplace := BinaryOperator.place_ne_assignment hassign
  match args, hargs with
  | [], hargs => exact .short hw ho hfind (by simp) hargs
  | [a], hargs => exact .short hw ho hfind (by simp) hargs
  | [a, b], hargs =>
      rw [callTree, if_neg hplace]
      exact .operator hassign (.inl hw) (.inl rfl) hargs
  | a :: b :: c :: others, hargs => exact .operator hassign (.inl hw) (.inr ho) hargs

theorem readable_callTree (hv : v.functions = Standard.registry) {t : Token} {id : FunctionId}
    {f : NamedFunction} {args : List Expr} (ht : ReadableCallee w t)
    (hcallable : Grammar.Callable v t id f) (hcount : f.arity.accepts args.length = true)
    (hargs : ∀ e ∈ args, Readable w v n e) : Readable w v n (callTree id args) := by
  obtain ⟨hfind, hget⟩ := hcallable
  rw [hv] at hfind hget
  have hpair : ∀ {o : BinaryOperator}, f = o.description → o.flattens = false →
      ∃ a b, args = [a, b] := by
    intro o hf ho
    have harity : f.arity = .exactly 2 := by
      rw [hf]
      cases o <;> first | rfl | cases ho
    rw [harity] at hcount
    match args, hcount with
    | [a, b], _ => exact ⟨a, b, rfl⟩
  have hsingle : f.arity = .exactly 1 → ∃ a, args = [a] := by
    intro harity
    rw [harity] at hcount
    match args, hcount with
    | [a], _ => exact ⟨a, rfl⟩
  rcases function_cases hget with ⟨o, rfl⟩ | rfl | ⟨hregular, harity, hfavoured, hname⟩
  · have hf : f = o.description := by
      rw [BinaryOperator.get?_place, Option.some.injEq] at hget
      exact hget.symm
    cases hflattens : o.flattens with
    | true =>
        have hfound : v.functions.findRegular? o.description.name = some o.place := by
          rw [hv]
          cases o <;> rfl
        exact readable_sum hflattens hfound (byName_of_flattens ht hfind hflattens) hargs
    | false =>
        obtain ⟨a, b, rfl⟩ := hpair hf hflattens
        by_cases ho : o = .assign
        · subst ho
          exact .assign (hv ▸ rfl) (hargs a (by simp)) (hargs b (by simp))
        · rw [callTree, if_neg (BinaryOperator.place_ne_assignment ho)]
          exact .operator ho (.inr (by simp [hflattens])) (.inl rfl) hargs
  · rw [Standard.get?_negation, Option.some.injEq] at hget
    obtain ⟨a, rfl⟩ := hsingle (by rw [← hget]; rfl)
    exact .negate (hargs a (by simp))
  · obtain ⟨a, rfl⟩ := hsingle harity
    exact .named (hv ▸ hget) hregular hname (hv ▸ hfavoured) (by rw [harity]; rfl)
      (hargs a (by simp))

theorem treeProperty_readable (hv : v.functions = Standard.registry)
    (hconstants : ∀ name c, v.constant? name = some c →
      Token.IsName c.name.toList ∧ v.constant? c.name = some c) :
    Grammar.TreeProperty v (ReadableOperand w) (ReadableCallee w) (Readable w v) where
  mono := fun hnm h => h.extends hnm
  operand := readable_operand hconstants
  binary := fun o _ _ => Readable.combine (hv ▸ Standard.hasOperators_registry) (hv ▸ rfl) o
  negate := .negate
  call := readable_callTree hv

/-! ## What has been read -/

theorem mem_zip_tail {tokens rest : List Token} {t u : Token} (h : t :: u :: rest <:+ tokens) :
    (t, u) ∈ tokens.zip tokens.tail := by
  obtain ⟨before, rfl⟩ := h
  induction before with
  | nil => exact List.mem_cons_self
  | cons x before ih =>
      cases before with
      | nil => exact List.mem_cons_of_mem _ ih
      | cons y before => exact List.mem_cons_of_mem _ ih

/-- What the leeway asks of the tokens of a text. -/
structure Leeway.Allows (w : Leeway) (tokens : List Token) : Prop where
  double : ∀ t ∈ tokens, ∀ x, t.kind = .double x → w.double x
  name : ∀ t ∈ tokens, t.kind.isIdent = true → Token.IsName t.text.toList
  byName : w.byName ∨ ∀ pair ∈ tokens.zip tokens.tail, pair.2.kind.isOpen = true →
    pair.1.text ≠ "add" ∧ pair.1.text ≠ "multiply"

/-- The tree of such a text is readable. -/
theorem Leeway.Allows.readable (hv : v.functions = Standard.registry)
    (hconstants : ∀ name c, v.constant? name = some c →
      Token.IsName c.name.toList ∧ v.constant? c.name = some c)
    {text : String} (htext : w.Allows (Token.scan text))
    (h : Parser.parse v n (Token.scan text) = (.ok e, m)) : Readable w v m e := by
  refine (treeProperty_readable hv hconstants).of_parse (hv ▸ Standard.hasOperators_registry)
    (fun t ht => Token.spelled_of_mem_scan ht) (fun t rest hsuffix _ _ => ?_)
    (fun t rest hsuffix hcall => ?_) h
  · have ht : t ∈ Token.scan text := hsuffix.subset List.mem_cons_self
    exact ⟨Token.spelled_of_mem_scan ht, htext.double t ht, htext.name t ht⟩
  · obtain ⟨hident, hopen⟩ := Bool.and_eq_true_iff.1 hcall
    have ht : t ∈ Token.scan text := hsuffix.subset List.mem_cons_self
    refine ⟨htext.name t ht hident, htext.byName.imp_right fun hcalls => ?_⟩
    cases rest with
    | nil => cases hopen
    | cons u rest => exact hcalls _ (mem_zip_tail hsuffix) hopen

end Expr

end Reckoner
