import Reckoner.Proofs.Calculator
import Reckoner.Proofs.Parser.Postfix

/-!
Operands and operators level by level.

`Outline` follows the nesting of a list of tokens and knows nothing of the parser: it notes, for
every parenthesis and every argument, which operands and which operators between operands stand
directly inside it. The parser appends operands without asking whether one is due, so the order of
the two is lost; what it does enforce is their number. The run invariant relates the open levels of
the parser to those of the outline, and the reduction of a level counts.
-/
namespace Reckoner

namespace Grammar

open Reckoner.Parser

/-- What stands directly inside a level: an operand, which is a number, a name, a parenthesis or a
call, or an operator between operands. -/
inductive Item where
  | operand
  | operator
deriving DecidableEq, Repr

/-- An operand, and any number of times an operator and an operand; or nothing. -/
inductive Alternates : List Item → Prop
  | nil : Alternates []
  | operand : Alternates [.operand]
  | cons {rest : List Item} (hrest : Alternates rest) (hne : rest ≠ []) :
      Alternates (.operand :: .operator :: rest)

/-- Two operands stand next to each other. -/
inductive Juxtaposes : List Item → Prop
  | here {rest : List Item} : Juxtaposes (.operand :: .operand :: rest)
  | there {item : Item} {rest : List Item} (h : Juxtaposes rest) : Juxtaposes (item :: rest)

/-- There is one operand more than there are operators, or nothing at all. -/
def Complete (items : List Item) : Prop :=
  items = [] ∨ items.count .operand = items.count .operator + 1

/-! ## Counting and order -/

theorem Alternates.not_juxtaposes {items : List Item} (h : Alternates items) :
    ¬ Juxtaposes items := by
  induction h with
  | nil => rintro ⟨⟩
  | operand =>
      rintro (_ | ⟨⟨⟩⟩)
  | cons hrest hne ih =>
      rintro (_ | ⟨_ | h⟩)
      exact ih h

/-- Without neighbouring operands, an operator stands between any two of them. -/
theorem count_operand_le {items : List Item} (h : ¬ Juxtaposes items) :
    items.count .operand ≤ items.count .operator + 1 := by
  match items with
  | [] => simp
  | .operator :: rest =>
      have hrest := count_operand_le fun hrest => h (.there hrest)
      simp only [List.count_cons_self, List.count_cons_of_ne (show Item.operator ≠ .operand by decide)]
      omega
  | [.operand] => simp
  | .operand :: .operand :: rest => exact absurd .here h
  | .operand :: .operator :: rest =>
      have hrest := count_operand_le fun hrest => h (.there (.there hrest))
      simp only [List.count_cons_self, List.count_cons_of_ne (show Item.operator ≠ .operand by decide),
        List.count_cons_of_ne (show Item.operand ≠ .operator by decide)]
      omega

/-- Where the numbers are right, neighbouring operands are all that can be wrong. -/
theorem alternates_of_not_juxtaposes {items : List Item} (h : ¬ Juxtaposes items)
    (hcount : items.count .operand = items.count .operator + 1) : Alternates items := by
  match items with
  | [] => exact .nil
  | .operator :: rest =>
      have hrest := count_operand_le fun hrest => h (.there hrest)
      simp only [List.count_cons_self,
        List.count_cons_of_ne (show Item.operator ≠ .operand by decide)] at hcount
      omega
  | [.operand] => exact .operand
  | .operand :: .operand :: rest => exact absurd .here h
  | .operand :: .operator :: rest =>
      simp only [List.count_cons_self,
        List.count_cons_of_ne (show Item.operator ≠ .operand by decide),
        List.count_cons_of_ne (show Item.operand ≠ .operator by decide)] at hcount
      refine .cons
        (alternates_of_not_juxtaposes (fun hrest => h (.there (.there hrest))) (by omega)) ?_
      rintro rfl
      simp at hcount

theorem Complete.alternates_iff {items : List Item} (h : Complete items) :
    Alternates items ↔ ¬ Juxtaposes items := by
  refine ⟨Alternates.not_juxtaposes, fun hnot => ?_⟩
  rcases h with rfl | hcount
  · exact .nil
  · exact alternates_of_not_juxtaposes hnot hcount

/-! ## The outline of a list of tokens -/

/-- What has been found on the innermost open level, on the open levels around it, from the inside
out, and on the levels that are closed. -/
structure Outline where
  current : List Item := []
  outer : List (List Item) := []
  closed : List (List Item) := []

/-- What the token `t` before `next` adds to its level: an operator that may be unwritten follows a
number, and a name is no operand where a call begins. -/
def itemsOf (t : Token) (next : Option Token) : List Item :=
  if t.isNumber then
    if opensOperand next then [.operand, .operator] else [.operand]
  else if t.kind.isOperand then
    if opensCall t next then [] else [.operand]
  else if t.kind.isOperator && !t.kind.isNegate then
    [.operator]
  else
    []

/-- The outline after one more token. What a parenthesis encloses is an operand outside of it. -/
def Outline.add (o : Outline) (t : Token) (next : Option Token) : Outline :=
  match t.kind with
  | .lparen => { o with current := [], outer := o.current :: o.outer }
  | .comma => { o with current := [], closed := o.closed ++ [o.current] }
  | .rparen =>
    match o.outer with
    | base :: outer => ⟨base ++ [.operand], outer, o.closed ++ [o.current]⟩
    | [] => o
  | _ => { o with current := o.current ++ itemsOf t next }

/-- The outline after further tokens. -/
def Outline.addAll : Outline → List Token → Outline
  | o, [] => o
  | o, t :: rest => (o.add t rest.head?).addAll rest

/-- The levels of a list of tokens: those of parentheses and arguments, and the outermost one. -/
def levels (tokens : List Token) : List (List Item) :=
  let o := Outline.addAll {} tokens
  o.closed ++ o.current :: o.outer

/-! ## Reduction counts -/

variable {v : Vocabulary} {n n' : Names}

/-- The token stands between two operands. -/
def joins (t : Token) : Bool :=
  t.kind.isOperator && !t.kind.isNegate

theorem joins_of_isBinary {o : BinaryOperator} {t : Token} (h : IsBinary o t) :
    joins t = true ∧ t.kind.isOperand = false := by
  rw [joins, h.1]
  cases o <;> exact ⟨rfl, rfl⟩

theorem joins_of_negate {t : Token} (h : t.kind = .negate) :
    joins t = false ∧ t.kind.isOperand = false := by
  rw [joins, h]
  exact ⟨rfl, rfl⟩

theorem joins_of_isOperand {t : Token} (h : t.kind.isOperand = true) : joins t = false := by
  cases hk : t.kind <;> simp_all [joins, TokenKind.isOperand, TokenKind.isOperator]

/-- Every operand adds one tree to the stack and every operator between operands takes one away. -/
theorem length_of_yields_foldlM (hv : v.functions.HasOperators) {tokens : List Token}
    (htokens : ∀ t ∈ tokens, t.kind.isOperand = true ∨ IsOperation t) {stack stack' : List Expr}
    (h : Yields (tokens.foldlM (reduceToken v) stack) n stack' n') :
    stack'.length + tokens.countP joins = stack.length + tokens.countP (·.kind.isOperand) := by
  induction tokens generalizing stack n with
  | nil =>
      obtain ⟨rfl, -⟩ := yields_pure.1 h
      rfl
  | cons t rest ih =>
      obtain ⟨stack₁, n₁, hfirst, hrest⟩ := yields_foldlM_cons.1 h
      have hlength := ih (fun t ht => htokens t (List.mem_cons_of_mem _ ht)) hrest
      rcases htokens t List.mem_cons_self with ht | ht | ⟨o, ht⟩
      · obtain ⟨e, -, rfl⟩ := yields_reduceToken_operand ht hfirst
        simp only [List.countP_cons, ht, joins_of_isOperand ht, List.length_cons, if_true,
          Bool.false_eq_true, if_false] at hlength ⊢
        omega
      · obtain ⟨e, rest', rfl, rfl, -⟩ := yields_reduceToken_negate hv ht hfirst
        obtain ⟨hjoins, hoperand⟩ := joins_of_negate ht
        simp only [List.countP_cons, hjoins, hoperand, List.length_cons, Bool.false_eq_true,
          if_false] at hlength ⊢
        omega
      · obtain ⟨left, right, rest', rfl, rfl, -⟩ := yields_reduceToken_binary hv ht hfirst
        obtain ⟨hjoins, hoperand⟩ := joins_of_isBinary ht
        simp only [List.countP_cons, hjoins, hoperand, List.length_cons, if_true,
          Bool.false_eq_true, if_false] at hlength ⊢
        omega

/-- The level holds as many operands and operators as have been found on it. -/
structure Counts (l : Level) (items : List Item) : Prop where
  isCall : l.isCall = false
  tokens : ∀ t ∈ l.finished, t.kind.isOperand = true ∨ IsOperation t
  operands : l.finished.countP (·.kind.isOperand) = items.count .operand
  operators : l.finished.countP joins = items.count .operator

theorem counts_empty (start : Nat) : Counts { start } [] where
  isCall := rfl
  tokens := by simp [Level.finished]
  operands := rfl
  operators := rfl

section Counts

variable {l l' : Level} {items : List Item} {t : Token}

theorem Counts.operand (h : Counts l items) (hcall : l'.isCall = l.isCall)
    (hperm : l'.finished.Perm (t :: l.finished)) (ht : t.kind.isOperand = true) :
    Counts l' (items ++ [.operand]) where
  isCall := hcall.trans h.isCall
  tokens := Level.forall_mem_of_perm h.tokens hperm (.inl ht)
  operands := by
    rw [hperm.countP_eq]
    simp [ht, h.operands]
  operators := by
    rw [hperm.countP_eq]
    simp [joins_of_isOperand ht, h.operators]

theorem Counts.binary (h : Counts l items) (hcall : l'.isCall = l.isCall)
    (hperm : l'.finished.Perm (t :: l.finished)) {o : BinaryOperator} (ht : IsBinary o t) :
    Counts l' (items ++ [.operator]) where
  isCall := hcall.trans h.isCall
  tokens := Level.forall_mem_of_perm h.tokens hperm (.inr (.inr ⟨o, ht⟩))
  operands := by
    rw [hperm.countP_eq]
    simp [joins_of_isBinary ht, h.operands]
  operators := by
    rw [hperm.countP_eq]
    simp [joins_of_isBinary ht, h.operators]

theorem Counts.negate (h : Counts l items) (hcall : l'.isCall = l.isCall)
    (hperm : l'.finished.Perm (t :: l.finished)) (ht : t.kind = .negate) : Counts l' items where
  isCall := hcall.trans h.isCall
  tokens := Level.forall_mem_of_perm h.tokens hperm (.inr (.inl ht))
  operands := by
    rw [hperm.countP_eq]
    simp [joins_of_negate ht, h.operands]
  operators := by
    rw [hperm.countP_eq]
    simp [joins_of_negate ht, h.operators]

/-- A level that is reduced to a tree has one operand more than operators. -/
theorem Counts.complete_of_reduce (hv : v.functions.HasOperators) (h : Counts l items) {start : Nat}
    {e : Expr} (hreduce : Yields (reduce v start l.finished) n e n') : Complete items := by
  have hlength := length_of_yields_foldlM hv h.tokens (yields_reduce hreduce).2
  rw [h.operands, h.operators] at hlength
  right
  simpa [Nat.add_comm] using hlength.symm

theorem Counts.complete_of_nil (h : Counts l items) (hempty : l.finished = []) :
    Complete items := by
  left
  have hoperands := h.operands
  have hoperators := h.operators
  rw [hempty] at hoperands hoperators
  cases items with
  | nil => rfl
  | cons item rest => cases item <;> simp at hoperands hoperators

end Counts

/-! ## The run invariant -/

/-- The open levels of the parser hold what has been found on those of the outline. A level that
collects arguments lies between two of the others and has no counterpart. -/
inductive Tracks : Level → List Level → List Item → List (List Item) → Prop
  | outermost {l : Level} {items : List Item} (h : Counts l items) : Tracks l [] items []
  | parenthesis {l base : Level} {outer : List Level} {items below : List Item}
      {rest : List (List Item)} (h : Counts l items) (hbase : Tracks base outer below rest) :
      Tracks l (base :: outer) items (below :: rest)
  | argument {l call base : Level} {outer : List Level} {items below : List Item}
      {rest : List (List Item)} (h : Counts l items) (hcall : call.isCall = true)
      (hbase : Tracks base outer below rest) :
      Tracks l (call :: base :: outer) items (below :: rest)

theorem Tracks.counts {l : Level} {outer : List Level} {items : List Item}
    {rest : List (List Item)} (h : Tracks l outer items rest) : Counts l items := by
  cases h <;> assumption

/-- Only the innermost level changes between two parentheses or commas. -/
theorem Tracks.replace {l l' : Level} {outer : List Level} {items items' : List Item}
    {rest : List (List Item)} (h : Tracks l outer items rest) (hl : Counts l' items') :
    Tracks l' outer items' rest := by
  cases h with
  | outermost _ => exact .outermost hl
  | parenthesis _ hbase => exact .parenthesis hl hbase
  | argument _ hcall hbase => exact .argument hl hcall hbase

/-- The parser's state and the outline agree, and the closed levels are complete. -/
structure Follows (s : State) (o : Outline) : Prop where
  tracks : Tracks s.current s.outer o.current o.outer
  closed : ∀ items ∈ o.closed, Complete items

theorem Outline.add_of_items {o : Outline} {t : Token} {next : Option Token}
    (ht : (t.kind.isOperand || t.kind.isOperator) = true) :
    o.add t next = { o with current := o.current ++ itemsOf t next } := by
  unfold add
  cases hk : t.kind <;> simp_all [TokenKind.isOperand, TokenKind.isOperator]

theorem Outline.add_callee {o : Outline} {t : Token} {next : Option Token}
    (ht : opensCall t next = true) : o.add t next = o := by
  have hident : t.kind.isIdent = true := (Bool.and_eq_true_iff.1 ht).1
  have hitems : itemsOf t next = [] := by
    cases hk : t.kind <;>
      simp_all [itemsOf, Token.isNumber, TokenKind.isNumber, TokenKind.isOperand, TokenKind.isIdent]
  have hoperand : t.kind.isOperand = true := by
    cases hk : t.kind <;> simp_all [TokenKind.isIdent, TokenKind.isOperand]
  rw [add_of_items (by simp [hoperand]), hitems, List.append_nil]

theorem Outline.add_operand {o : Outline} {t : Token} {next : Option Token}
    (ht : t.kind.isOperand = true) (hcall : opensCall t next = false)
    (hjoin : (t.isNumber && opensOperand next) = false) :
    o.add t next = { o with current := o.current ++ [.operand] } := by
  have hitems : itemsOf t next = [.operand] := by
    cases hnumber : t.isNumber <;> simp_all [itemsOf]
  rw [add_of_items (by simp [ht]), hitems]

theorem Outline.add_factor {o : Outline} {t : Token} {next : Option Token}
    (ht : t.isNumber = true) (hnext : opensOperand next = true) :
    o.add t next = { o with current := o.current ++ [.operand] ++ [.operator] } := by
  have hitems : itemsOf t next = [.operand] ++ [.operator] := by
    simp [itemsOf, ht, hnext]
  rw [add_of_items (by simp [(isOperand_of_isNumber ht next).1]), hitems, List.append_assoc]

theorem Outline.add_negate {o : Outline} {t : Token} {next : Option Token}
    (ht : t.kind = .negate) : o.add t next = o := by
  have hitems : itemsOf t next = [] := by
    simp [itemsOf, Token.isNumber, ht, TokenKind.isNumber, TokenKind.isOperand, TokenKind.isNegate]
  rw [add_of_items (by simp [ht, TokenKind.isOperator]), hitems, List.append_nil]

theorem Outline.add_binary {o : Outline} {t : Token} {next : Option Token} {op : BinaryOperator}
    (ht : IsBinary op t) : o.add t next = { o with current := o.current ++ [.operator] } := by
  have hitems : itemsOf t next = [.operator] := by
    simp only [itemsOf, Token.isNumber, ht.1]
    cases op <;> rfl
  have hoperator : t.kind.isOperator = true := by
    rw [ht.1]
    cases op <;> rfl
  rw [add_of_items (by simp [hoperator]), hitems]

theorem Outline.add_closing {o : Outline} {t : Token} {next : Option Token}
    (ht : t.kind = .rparen) {base : List Item} {outer : List (List Item)}
    (ho : o.outer = base :: outer) :
    o.add t next = ⟨base ++ [.operand], outer, o.closed ++ [o.current]⟩ := by
  rw [add, ht, ho]

/-- A level that ends is complete, like those that have ended before. -/
theorem Follows.closed_append {s : State} {o : Outline} (h : Follows s o)
    (hcomplete : Complete o.current) : ∀ items ∈ o.closed ++ [o.current], Complete items := by
  intro items hitems
  rcases List.mem_append.1 hitems with hitems | hitems
  · exact h.closed items hitems
  · obtain rfl : items = o.current := by simpa using hitems
    exact hcomplete

theorem Counts.push_ofExpr {l : Level} {items : List Item} (h : Counts l items) (e : Expr)
    (start : Nat) : Counts (l.push (.ofExpr e start)) (items ++ [.operand]) :=
  h.operand rfl (l.perm_push _) rfl

/-- One step keeps the agreement. -/
theorem Follows.step (hv : v.functions.HasOperators) {s s' : State} {o : Outline} {t : Token}
    {next : Option Token} (hspelled : t.Spelled) (h : Follows s o)
    (hstep : Step v t next s n s' n') : Follows s' (o.add t next) := by
  have htracks := h.tracks
  have hcounts := h.tracks.counts
  cases hstep with
  | openParenthesis ht hs =>
      rw [Outline.add, ht]
      exact ⟨.parenthesis (counts_empty _) htracks, h.closed⟩
  | openCall ht hs =>
      rw [Outline.add, ht]
      exact ⟨.argument (counts_empty _) rfl htracks, h.closed⟩
  | comma ht hs houter hcall hreduce =>
      rw [Outline.add, ht]
      refine ⟨?_, h.closed_append (hcounts.complete_of_reduce hv hreduce)⟩
      rw [houter] at htracks
      generalize o.outer = rest at htracks
      cases htracks with
      | parenthesis _ hbase => exact absurd hcall (by simp [hbase.counts.isCall])
      | argument _ _ hbase => exact .argument (counts_empty _) hcall hbase
  | closeParenthesis ht hs houter hbase hreduce =>
      rw [houter] at htracks
      generalize hrest : o.outer = rest at htracks
      cases htracks with
      | parenthesis _ htail =>
          rw [Outline.add_closing ht hrest]
          exact ⟨htail.replace (htail.counts.push_ofExpr _ _),
            h.closed_append (hcounts.complete_of_reduce hv hreduce)⟩
      | argument _ hcall _ => exact absurd hcall (by simp [hbase])
  | closeCall ht hs houter hcall hinner hreduce =>
      have hcomplete : Complete o.current := by
        rcases yields_reduceInner hinner with ⟨-, hempty, -, -⟩ | ⟨e, hreduce, -⟩
        · exact hcounts.complete_of_nil hempty
        · exact hcounts.complete_of_reduce hv hreduce
      rw [houter] at htracks
      generalize hrest : o.outer = rest at htracks
      cases htracks with
      | parenthesis _ htail => exact absurd hcall (by simp [htail.counts.isCall])
      | argument _ _ htail =>
          rw [Outline.add_closing ht hrest]
          exact ⟨htail.replace (htail.counts.push_ofExpr _ _), h.closed_append hcomplete⟩
  | callee ht hs hfind =>
      rw [Outline.add_callee ht]
      exact ⟨htracks, h.closed⟩
  | operand ht hs hcall hjoin =>
      rw [Outline.add_operand ht hcall hjoin]
      exact ⟨htracks.replace (hcounts.operand rfl (s.current.perm_push t) ht), h.closed⟩
  | factor ht hs hnext hoperator =>
      rw [Outline.add_factor ht hnext]
      have hpush : Counts (s.current.push t) (o.current ++ [.operand]) :=
        hcounts.operand rfl (s.current.perm_push t) (isOperand_of_isNumber ht next).1
      exact ⟨htracks.replace (hpush.binary rfl ((s.current.push t).perm_pushOperator _ _)
        (isBinary_impliedTimes _)), h.closed⟩
  | operator ht hs hoperator =>
      rcases isOperation_of_spelled hspelled ht with hnegate | ⟨o', ho'⟩
      · rw [Outline.add_negate hnegate]
        exact ⟨htracks.replace (hcounts.negate rfl (s.current.perm_pushOperator _ _) hnegate),
          h.closed⟩
      · rw [Outline.add_binary ho']
        exact ⟨htracks.replace (hcounts.binary rfl (s.current.perm_pushOperator _ _) ho'), h.closed⟩

/-- So does a run. -/
theorem Follows.run (hv : v.functions.HasOperators) {tokens : List Token} {s s' : State}
    {o : Outline} (hspelled : ∀ t ∈ tokens, t.Spelled) (h : Follows s o)
    (hrun : Yields (run v s tokens) n s' n') : Follows s' (o.addAll tokens) := by
  induction tokens generalizing s o n with
  | nil =>
      obtain ⟨rfl, -⟩ := yields_pure.1 hrun
      exact h
  | cons t rest ih =>
      rw [run_cons] at hrun
      obtain ⟨s₁, n₁, hfirst, hrest⟩ := yields_bind.1 hrun
      have hnext := h.step hv (hspelled t List.mem_cons_self) (step_of_yields hfirst)
      exact ih (fun t ht => hspelled t (List.mem_cons_of_mem _ ht)) hnext hrest

/-- In a text that is read without error, every level has one operand more than operators between
operands, or nothing at all. So operands and operators alternate on a level exactly if no two
operands are neighbours there. -/
theorem levels_of_parse {c : Calculator} (hc : c.registry.HasOperators) {text : String}
    (h : (c.parse text).1.error? = none) :
    ∀ items ∈ levels (Token.scan text),
      Complete items ∧ (Alternates items ↔ ¬ Juxtaposes items) := by
  obtain ⟨-, s, n₁, hrun, houter, hreduce⟩ := parse_eq_ok_cases (c.parse_eq_ok h)
  have hstart : Follows {} {} := ⟨.outermost (counts_empty 0), by simp⟩
  have hfollows := hstart.run hc (fun t ht => Token.spelled_of_mem_scan ht) hrun
  have hcurrent := hfollows.tracks.counts.complete_of_reduce hc hreduce
  have htracks := hfollows.tracks
  rw [houter] at htracks
  have hnone : (Outline.addAll {} (Token.scan text)).outer = [] := by
    generalize (Outline.addAll {} (Token.scan text)).outer = rest at htracks
    cases htracks
    rfl
  intro items hitems
  have hcomplete : Complete items := by
    simp only [levels, hnone] at hitems
    exact hfollows.closed_append hcurrent items hitems
  exact ⟨hcomplete, hcomplete.alternates_iff⟩

/-- `2 3 +` is read as a sum. -/
theorem levels_two_three_plus :
    ((Calculator.new {}).parse "2 3 +").1.error? = none ∧
      ∀ items ∈ levels (Token.scan "2 3 +"),
        Complete items ∧ (Alternates items ↔ ¬ Juxtaposes items) := by
  have hnone : ((Calculator.new {}).parse "2 3 +").1.error? = none := by decide +kernel
  exact ⟨hnone, levels_of_parse (Calculator.hasOperators_new {}) hnone⟩

/-- Operands and operators of a text that is read without error need not alternate. -/
theorem not_alternates_two_three_plus :
    ((Calculator.new {}).parse "2 3 +").1.error? = none ∧
      ¬ ∀ items ∈ levels (Token.scan "2 3 +"), Alternates items := by
  refine ⟨by decide +kernel, fun h => ?_⟩
  have hlevels : levels (Token.scan "2 3 +") = [[.operand, .operand, .operator]] := by
    decide +kernel
  rw [hlevels] at h
  exact (h _ List.mem_cons_self).not_juxtaposes .here

end Grammar

end Reckoner
