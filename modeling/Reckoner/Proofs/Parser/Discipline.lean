import Reckoner.Proofs.Parser.Errors
import Reckoner.Proofs.Parser.Trees
import Reckoner.Proofs.Vocabulary

/-!
The parser keeps its levels in order.

Between any two tokens a level that is read into has operators alone waiting, each of which binds
more tightly than the one below it, and a level that collects arguments has nothing but a function
that is known waiting and nothing but trees collected. A step preserves this whatever the operators
have been redefined to, since it depends on the precedences that the vocabulary gives and not on
those of the fundamental operators. From such a state a step fails only for a reason that lies in
the text.
-/
namespace Reckoner

namespace Parser

open Reckoner.Grammar

variable {v : Vocabulary} {n n' : Names} {s s' : State} {l : Level} {t : Token}
  {rest tokens : List Token} {err : ParseError}

/-! ## Operators -/

/-- How tightly a token binds as an operator. -/
def precedenceOf (v : Vocabulary) (t : Token) : Int :=
  match operator? v t with
  | some (_, f) => f.precedence
  | none => 0

theorem precedenceOf_eq {id : FunctionId} {f : NamedFunction} (h : operator? v t = some (id, f)) :
    precedenceOf v t = f.precedence := by
  rw [precedenceOf, h]

theorem precedes_eq_true_iff (ht : (operator? v t).isSome = true) (precedence : Int) :
    precedes v precedence t = true ↔ precedence ≤ precedenceOf v t := by
  obtain ⟨⟨id, f⟩, hoperator⟩ := Option.isSome_iff_exists.1 ht
  simp [precedes, precedenceOf, hoperator]

/-- Every way in which a text writes an operator denotes one. -/
theorem isSome_operator? (hv : v.functions.KnowsOperators) (ht : IsOperation t) :
    (operator? v t).isSome = true := by
  obtain ⟨id, hid, hget⟩ : ∃ id, operatorId? v t = some id ∧
      (v.functions.get? id).isSome = true := by
    rcases ht with hnegate | ⟨o, hkind, htext⟩
    · obtain ⟨id, hfind⟩ := Option.isSome_iff_exists.1 hv.negate
      obtain ⟨f, hget, -⟩ := hv.coherent.exists_get? hfind
      exact ⟨id, by rw [operatorId?, hnegate, hfind], by rw [hget]; rfl⟩
    · obtain ⟨id, hfind⟩ := Option.isSome_iff_exists.1 (hv.symbol o)
      refine ⟨id, ?_, hv.present hfind⟩
      rw [operatorId?, hkind, htext]
      cases o <;> exact hfind
  simpa [operator?, hid] using hget

/-- Behind the waiting operators that go before it a new operator finds only looser ones. -/
theorem lt_of_mem_dropWhile {pending : List Token} {precedence : Int}
    (hknown : ∀ t ∈ pending, (operator? v t).isSome = true)
    (hrising : pending.Pairwise fun upper lower => precedenceOf v lower < precedenceOf v upper) :
    ∀ t ∈ pending.dropWhile (precedes v precedence), precedenceOf v t < precedence := by
  induction pending with
  | nil => nofun
  | cons top below ih =>
      obtain ⟨hbelow, hrising⟩ := List.pairwise_cons.1 hrising
      obtain ⟨htop, hknown⟩ := List.forall_mem_cons.1 hknown
      by_cases hprecedes : precedes v precedence top = true
      · rw [List.dropWhile_cons_of_pos hprecedes]
        exact ih hknown hrising
      · rw [List.dropWhile_cons_of_neg hprecedes]
        have hlt : precedenceOf v top < precedence := by
          rwa [precedes_eq_true_iff htop, Int.not_le] at hprecedes
        intro t ht
        rcases List.mem_cons.1 ht with rfl | ht
        · exact hlt
        · exact Int.lt_trans (hbelow t ht) hlt

/-! ## Levels -/

/-- A level that is read into: operands and operators in postfix order, and operators that wait,
each of which binds more tightly than those below it. -/
structure Ordered (v : Vocabulary) (l : Level) : Prop where
  isCall : l.isCall = false
  output : ∀ t ∈ l.output, t.kind.isOperand = true ∨ (operator? v t).isSome = true
  pending : ∀ t ∈ l.pending, (operator? v t).isSome = true
  rising : l.pending.Pairwise fun upper lower => precedenceOf v lower < precedenceOf v upper

/-- A level that collects the arguments of a function: the function waits alone, and what has been
collected are trees. -/
structure Collecting (v : Vocabulary) (l : Level) : Prop where
  isCall : l.isCall = true
  pending : ∃ name, l.pending = [name] ∧ (v.functions.findRegular? name.text).isSome = true
  output : ∀ t ∈ l.output, ∃ e, t.kind = .tree e

theorem ordered_empty (v : Vocabulary) (start : Nat) : Ordered v { start } :=
  ⟨rfl, by simp, by simp, .nil⟩

theorem Ordered.finished (h : Ordered v l) :
    ∀ t ∈ l.finished, t.kind.isOperand = true ∨ (operator? v t).isSome = true := by
  intro t ht
  rcases List.mem_append.1 ht with ht | ht
  · exact h.output t ht
  · exact .inr (h.pending t ht)

theorem Ordered.push (h : Ordered v l) (ht : t.kind.isOperand = true) : Ordered v (l.push t) where
  isCall := h.isCall
  output := List.forall_mem_append.2 ⟨h.output, by simpa using .inl ht⟩
  pending := h.pending
  rising := h.rising

theorem Ordered.pushOperator {id : FunctionId} {f : NamedFunction} (h : Ordered v l)
    (ht : operator? v t = some (id, f)) : Ordered v (l.pushOperator v t f.precedence) where
  isCall := h.isCall
  output := by
    refine List.forall_mem_append.2 ⟨h.output, fun u hu => .inr (h.pending u ?_)⟩
    exact (List.takeWhile_prefix _).subset hu
  pending := by
    refine List.forall_mem_cons.2 ⟨by rw [ht]; rfl, fun u hu => h.pending u ?_⟩
    exact (List.dropWhile_suffix _).subset hu
  rising := by
    refine List.pairwise_cons.2 ⟨?_, h.rising.sublist (List.dropWhile_sublist _)⟩
    rw [precedenceOf_eq ht]
    exact lt_of_mem_dropWhile h.pending h.rising

theorem Collecting.push (h : Collecting v l) (e : Expr) (start : Nat) :
    Collecting v (l.push (.ofExpr e start)) where
  isCall := h.isCall
  pending := h.pending
  output := List.forall_mem_append.2 ⟨h.output, by simpa using ⟨e, rfl⟩⟩

/-! ## Steps -/

/-- The parser's state before the tokens `rest`. The levels are in order, so the outermost one
collects no arguments and every one that does lies directly inside one that is read into; a function
that awaits its arguments is known, and a parenthesis opens next. -/
structure Disciplined (v : Vocabulary) (s : State) (rest : List Token) : Prop where
  levels : Nested (Ordered v) (Collecting v) s.current s.outer
  callee : ∀ name, s.callee = some name →
    (v.functions.findRegular? name.text).isSome = true ∧ rest.head?.any (·.kind.isOpen) = true

theorem disciplined_start (v : Vocabulary) (tokens : List Token) : Disciplined v {} tokens :=
  ⟨.outermost (ordered_empty v 0), nofun⟩

/-- A state in which no function awaits its arguments. -/
theorem Disciplined.of_callee_eq_none (hs : s.callee = none)
    (h : Nested (Ordered v) (Collecting v) s.current s.outer) : Disciplined v s rest :=
  ⟨h, by simp [hs]⟩

/-- One step keeps the levels in order. -/
theorem Disciplined.step (h : Disciplined v s (t :: rest))
    (hstep : Step v t rest.head? s n s' n') : Disciplined v s' rest := by
  have hlevels := h.levels
  have hcurrent := h.levels.innermost
  cases hstep with
  | openParenthesis _ _ =>
      exact .of_callee_eq_none rfl (.parenthesis (ordered_empty v _) h.levels)
  | @openCall name _ hs =>
      have hcall : Collecting v { isCall := true, start := t.position, pending := [name] } :=
        ⟨rfl, ⟨name, rfl, (h.callee name hs).1⟩, by simp⟩
      exact .of_callee_eq_none rfl (.argument (ordered_empty v _) hcall h.levels)
  | comma _ hs houter hcall _ =>
      rw [houter] at hlevels
      rcases hlevels.outer_cases with hnil | ⟨_, _, heq, hbase⟩ | ⟨_, _, _, heq, hcollecting, hbase⟩
      · cases hnil
      · cases heq
        exact absurd hcall (by simp [hbase.innermost.isCall])
      · cases heq
        exact .of_callee_eq_none rfl (.argument (ordered_empty v _) (hcollecting.push _ _) hbase)
  | closeParenthesis _ hs houter hbase _ =>
      rw [houter] at hlevels
      rcases hlevels.outer_cases with hnil | ⟨_, _, heq, hnested⟩ | ⟨_, _, _, heq, hcollecting, -⟩
      · cases hnil
      · cases heq
        exact .of_callee_eq_none rfl (hnested.replace (hnested.innermost.push rfl))
      · cases heq
        exact absurd hcollecting.isCall (by simp [hbase])
  | closeCall _ hs houter hcall _ _ =>
      rw [houter] at hlevels
      rcases hlevels.outer_cases with hnil | ⟨_, _, heq, hnested⟩ | ⟨_, _, _, heq, -, hnested⟩
      · cases hnil
      · cases heq
        exact absurd hcall (by simp [hnested.innermost.isCall])
      · cases heq
        exact .of_callee_eq_none rfl (hnested.replace (hnested.innermost.push rfl))
  | callee ht _ hfind =>
      refine ⟨h.levels, fun name hname => ?_⟩
      obtain rfl : t = name := by simpa using hname
      exact ⟨hfind, (Bool.and_eq_true_iff.1 ht).2⟩
  | operand ht hs _ _ => exact .of_callee_eq_none hs (h.levels.replace (hcurrent.push ht))
  | factor ht hs hnext hoperator =>
      have hpush := hcurrent.push (isOperand_of_isNumber ht rest.head?).1
      exact .of_callee_eq_none hs (h.levels.replace (hpush.pushOperator hoperator))
  | operator _ hs hoperator =>
      exact .of_callee_eq_none hs (h.levels.replace (hcurrent.pushOperator hoperator))

/-! ## Failures -/

/-- What can be wrong with the tokens of a level. -/
inductive ReductionError : ParseError → Prop
  | missingArgument (p : Nat) : ReductionError (.missingArgument p)
  | missingOperator (p : Nat) : ReductionError (.missingOperator p)
  | missingOperand (operator : String) (p : Nat) : ReductionError (.missingOperand operator p)
  | refused (e : CalcError) : ReductionError (.refused e)

/-- What can be wrong with the arguments of a call. -/
inductive CallError : ParseError → Prop
  | wrongCount (function : String) (arity : Arity) (count p : Nat) :
      CallError (.wrongCount function arity count p)
  | refused (e : CalcError) : CallError (.refused e)

/-- What can be wrong with the token `t` before `next`. A name before a parenthesis may be unknown,
but the name of a call that ends is not looked up in vain, and a parenthesis closes too much only if
none is open. -/
inductive StepError (s : State) (t : Token) (next : Option Token) : ParseError → Prop
  | unknownFunction (ht : opensCall t next = true) :
      StepError s t next (.unknownFunction t.text t.position)
  | unexpectedComma (ht : t.kind = .comma) : StepError s t next (.unexpectedComma t.position)
  | extraClose (ht : t.kind = .rparen) (houter : s.outer = []) :
      StepError s t next (.extraClose t.position)
  | reduction {err : ParseError} (ht : t.kind = .comma ∨ t.kind = .rparen)
      (h : ReductionError err) : StepError s t next err
  | call {err : ParseError} (ht : t.kind = .rparen) (h : CallError err) : StepError s t next err

theorem build_eq_error {f : NamedFunction} {id : FunctionId} {args : List Expr}
    (h : build f id args = .error err) : ∃ e, err = .refused e := by
  unfold build at h
  split at h
  · cases h
  · next e _ =>
      cases h
      exact ⟨e, rfl⟩

theorem ReductionError.of_apply {f : NamedFunction} {id : FunctionId} {stack : List Expr}
    (h : apply f id t stack = .error err) : ReductionError err := by
  have hbuild : ∀ {args rest : List Expr}, (build f id args).map (· :: rest) = .error err →
      ReductionError err := by
    intro args rest hmap
    cases hresult : build f id args with
    | ok e =>
        rw [hresult] at hmap
        cases hmap
    | error e =>
        rw [hresult] at hmap
        cases hmap
        obtain ⟨e, rfl⟩ := build_eq_error hresult
        exact .refused e
  unfold apply at h
  split at h
  · cases h
  · split at h
    · split at h
      · exact hbuild h
      · split at h
        · exact hbuild h
        · cases h
          exact .missingOperand _ _
    · split at h
      · exact hbuild h
      · cases h
        exact .missingOperand _ _
    · cases h
      exact .missingOperand _ _

/-- An operand has a tree. -/
theorem not_raises_operand (ht : t.kind.isOperand = true) : ¬ Raises (operand v t) n err := by
  intro h
  unfold operand at h
  split at h
  · exact not_raises_pure h
  · exact not_raises_pure h
  · exact not_raises_pure h
  · split at h
    · exact not_raises_pure h
    · obtain ⟨_, h⟩ := h
      cases h
  · cases hk : t.kind <;> simp_all [TokenKind.isOperand]

theorem ReductionError.of_reduceToken {stack : List Expr}
    (ht : t.kind.isOperand = true ∨ (operator? v t).isSome = true)
    (h : Raises (reduceToken v stack t) n err) : ReductionError err := by
  unfold reduceToken at h
  split at h
  · split at h
    · exact absurd h not_raises_pure
    · next happly =>
        obtain rfl := raises_throw.1 h
        exact .of_apply happly
  · next hoperator =>
      have ht : t.kind.isOperand = true := by simpa [hoperator] using ht
      rcases raises_bind.1 h with h | ⟨_, _, _, h⟩
      · exact absurd h (not_raises_operand ht)
      · exact absurd h not_raises_pure

theorem ReductionError.of_foldlM {stack : List Expr}
    (htokens : ∀ t ∈ tokens, t.kind.isOperand = true ∨ (operator? v t).isSome = true)
    (h : Raises (tokens.foldlM (reduceToken v) stack) n err) : ReductionError err := by
  induction tokens generalizing stack n with
  | nil => exact absurd h not_raises_pure
  | cons t rest ih =>
      obtain ⟨ht, hrest⟩ := List.forall_mem_cons.1 htokens
      rw [List.foldlM_cons] at h
      rcases raises_bind.1 h with h | ⟨stack', n₁, -, h⟩
      · exact .of_reduceToken ht h
      · exact ih hrest h

theorem ReductionError.of_reduce {start : Nat}
    (htokens : ∀ t ∈ tokens, t.kind.isOperand = true ∨ (operator? v t).isSome = true)
    (h : Raises (reduce v start tokens) n err) : ReductionError err := by
  unfold reduce at h
  split at h
  · obtain rfl := raises_throw.1 h
    exact .missingArgument start
  · rcases raises_bind.1 h with h | ⟨stack, n₁, -, h⟩
    · exact .of_foldlM htokens h
    · split at h
      · exact absurd h not_raises_pure
      · obtain rfl := raises_throw.1 h
        exact .missingOperator start

theorem ReductionError.of_reduceInner {inCall : Bool} (hl : Ordered v l)
    (h : Raises (reduceInner v inCall l) n err) : ReductionError err := by
  unfold reduceInner at h
  split at h
  · exact absurd h not_raises_pure
  · rcases raises_bind.1 h with h | ⟨_, _, _, h⟩
    · exact .of_reduce hl.finished h
    · exact absurd h not_raises_pure

/-- Trees are arguments. -/
theorem exists_argumentsOf (h : ∀ t ∈ tokens, ∃ e, t.kind = .tree e) :
    ∃ args, argumentsOf tokens = .ok args := by
  induction tokens with
  | nil => exact ⟨[], rfl⟩
  | cons t rest ih =>
      obtain ⟨⟨e, he⟩, hrest⟩ := List.forall_mem_cons.1 h
      obtain ⟨args, hargs⟩ := ih hrest
      exact ⟨e :: args, by simp only [argumentsOf, he, hargs]; rfl⟩

theorem CallError.of_reduceCall (hv : v.functions.KnowsOperators) (hl : Collecting v l)
    (h : reduceCall v l = .error err) : CallError err := by
  obtain ⟨name, hpending, hknown⟩ := hl.pending
  obtain ⟨id, hfind⟩ := Option.isSome_iff_exists.1 hknown
  obtain ⟨f, hget⟩ := Option.isSome_iff_exists.1 (hv.isSome_get? hfind)
  obtain ⟨args, hargs⟩ := exists_argumentsOf hl.output
  simp only [reduceCall, hpending, List.getLast?_singleton, hfind, Option.bind_some, hget,
    Option.map_some, hargs] at h
  split at h
  · obtain ⟨e, rfl⟩ := build_eq_error h
    exact .refused e
  · cases h
    exact .wrongCount _ _ _ _

theorem StepError.of_nextArgument {next : Option Token} (h : Disciplined v s (t :: rest))
    (ht : t.kind = .comma) (hraises : Raises (s.nextArgument v t.position) n err) :
    StepError s t next err := by
  unfold State.nextArgument at hraises
  split at hraises
  · split at hraises
    · rcases raises_bind.1 hraises with hreduce | ⟨_, _, _, hpure⟩
      · exact .reduction (.inl ht) (.of_reduce h.levels.innermost.finished hreduce)
      · exact absurd hpure not_raises_pure
    · obtain rfl := raises_throw.1 hraises
      exact .unexpectedComma ht
  · obtain rfl := raises_throw.1 hraises
    exact .unexpectedComma ht

theorem StepError.of_close {next : Option Token} (hv : v.functions.KnowsOperators)
    (h : Disciplined v s (t :: rest)) (ht : t.kind = .rparen)
    (hraises : Raises (s.close v t.position) n err) : StepError s t next err := by
  have hlevels := h.levels
  unfold State.close at hraises
  split at hraises
  · next houter =>
      obtain rfl := raises_throw.1 hraises
      exact .extraClose ht houter
  · next enclosing outer houter =>
      rw [houter] at hlevels
      rcases raises_bind.1 hraises with hinner | ⟨inner, n₁, hinner, hlast⟩
      · exact .reduction (.inr ht) (.of_reduceInner h.levels.innermost hinner)
      · rcases hlevels.outer_cases with hnil | ⟨_, _, heq, hbase⟩ | ⟨_, base, _, heq, hcall, -⟩
        · cases hnil
        · cases heq
          simp only [hbase.innermost.isCall, Bool.false_eq_true, if_false] at hlast
          exact absurd hlast not_raises_pure
        · cases heq
          have hfull : Collecting v { enclosing with output := enclosing.output ++ inner } := by
            rcases yields_reduceInner hinner with ⟨-, -, rfl, -⟩ | ⟨e, -, rfl⟩
            · simpa using hcall
            · exact hcall.push e _
          simp only [hcall.isCall, if_true] at hlast hfull
          split at hlast
          · next hreduce =>
              obtain rfl := raises_throw.1 hlast
              exact .call ht (.of_reduceCall hv hfull hreduce)
          · exact absurd hlast not_raises_pure

theorem not_raises_operator_of_isSome (ht : (operator? v t).isSome = true) :
    ¬ Raises (s.operator v t) n err := by
  obtain ⟨⟨id, f⟩, hoperator⟩ := Option.isSome_iff_exists.1 ht
  simp only [State.operator, hoperator]
  exact not_raises_pure

/-- A step fails only for a reason that lies in the text. -/
theorem StepError.of_raises (hv : v.functions.KnowsOperators) (h : Disciplined v s (t :: rest))
    (hspelled : t.Spelled) (hraises : Raises (step v s t rest.head?) n err) :
    StepError s t rest.head? err := by
  have htimes : ∀ s : State, ¬ Raises (s.operator v (impliedTimes t.position)) n err := fun s =>
    not_raises_operator_of_isSome (isSome_operator? hv (.inr ⟨.multiply, isBinary_impliedTimes _⟩))
  unfold Parser.step at hraises
  split at hraises
  · exact absurd hraises not_raises_pure
  · next name hs hopen =>
      -- The token after the name of a function opens its arguments.
      have hparen : t.kind.isOpen = true := (h.callee name hs).2
      cases hk : t.kind <;> simp_all [TokenKind.isOpen]
  · next ht _ => exact .of_nextArgument h ht hraises
  · next ht _ => exact .of_close hv h ht hraises
  · next ht _ =>
      split at hraises
      · next hopen =>
          split at hraises
          · exact absurd hraises not_raises_pure
          · obtain rfl := raises_throw.1 hraises
            exact .unknownFunction (by simp [opensCall, ht, TokenKind.isIdent, hopen])
      · exact absurd hraises not_raises_pure
  · split at hraises
    · exact absurd hraises (htimes _)
    · exact absurd hraises not_raises_pure
  · split at hraises
    · exact absurd hraises (htimes _)
    · exact absurd hraises not_raises_pure
  · exact absurd hraises not_raises_pure
  · have ht : t.kind.isOperator = true := by
      cases hk : t.kind <;> simp_all [TokenKind.isOperator]
    have hknown := isSome_operator? hv (isOperation_of_spelled hspelled ht)
    exact absurd hraises (not_raises_operator_of_isSome hknown)

/-! ## Runs -/

/-- While it reads `tokens`, having met the names `names` before, the parser comes to this state, to
these names and to these tokens that are left. -/
inductive Reached (v : Vocabulary) (tokens : List Token) (names : Names) :
    State → Names → List Token → Prop
  | start : Reached v tokens names {} names tokens
  | step {s s' : State} {n n' : Names} {t : Token} {rest : List Token}
      (h : Reached v tokens names s n (t :: rest))
      (hstep : Yields (Parser.step v s t rest.head?) n s' n') : Reached v tokens names s' n' rest

section Reached

variable {names : Names}

theorem Reached.suffix (h : Reached v tokens names s n rest) : rest <:+ tokens := by
  induction h with
  | start => exact List.suffix_rfl
  | step _ _ ih => exact (List.suffix_cons _ _).trans ih

/-- The levels are in order at every moment. -/
theorem Reached.disciplined (h : Reached v tokens names s n rest) : Disciplined v s rest := by
  induction h with
  | start => exact disciplined_start v tokens
  | step _ hstep ih => exact ih.step (step_of_yields hstep)

/-- A run that succeeds comes to its end. -/
theorem Reached.of_run (h : Reached v tokens names s n rest)
    (hrun : Yields (run v s rest) n s' n') : Reached v tokens names s' n' [] := by
  induction rest generalizing s n with
  | nil =>
      obtain ⟨rfl, rfl⟩ := yields_pure.1 hrun
      exact h
  | cons t rest ih =>
      rw [run_cons] at hrun
      obtain ⟨s₁, n₁, hfirst, hrest⟩ := yields_bind.1 hrun
      exact ih (h.step hfirst) hrest

/-- A run that fails comes to a step that fails. -/
theorem Reached.exists_raises_step (h : Reached v tokens names s n rest)
    (hrun : Raises (run v s rest) n err) :
    ∃ s n t rest, Reached v tokens names s n (t :: rest) ∧
      Raises (Parser.step v s t rest.head?) n err := by
  induction rest generalizing s n with
  | nil => exact absurd hrun not_raises_pure
  | cons t rest ih =>
      rw [run_cons] at hrun
      rcases raises_bind.1 hrun with hfirst | ⟨s₁, n₁, hfirst, hrest⟩
      · exact ⟨s, n, t, rest, h, hfirst⟩
      · exact ih (h.step hfirst) hrest

/-- Parsing fails at a step, or at the end of the tokens. -/
theorem parse_eq_error_cases (h : parse v names tokens = (.error err, n')) :
    err = .noTokens ∨
      (∃ s n t rest, Reached v tokens names s n (t :: rest) ∧
        Raises (Parser.step v s t rest.head?) n err) ∨
      ∃ s n, Reached v tokens names s n [] ∧ (err = .missingClose s.current.start ∨
        Raises (reduce v s.current.start s.current.finished) n err) := by
  have hraises := parse_eq_error_iff.1 ⟨n', h⟩
  unfold parseTokens at hraises
  split at hraises
  · exact .inl (raises_throw.1 hraises).symm
  · rcases raises_bind.1 hraises with hrun | ⟨s, n₁, hrun, hlast⟩
    · exact .inr (.inl (Reached.start.exists_raises_step hrun))
    · refine .inr (.inr ⟨s, n₁, Reached.start.of_run hrun, ?_⟩)
      split at hlast
      · exact .inr hlast
      · exact .inl (raises_throw.1 hlast).symm

end Reached

/-- The levels of the parser are in order at every moment of reading a text, however a host has
extended the vocabulary of the fundamental operators and redefined them, and a step fails only for a
reason that lies in the text. No text is told that the arguments of a function are still awaited,
that a token is not supported, that one is left over, or that a list of arguments lacks its
function. -/
theorem disciplined_extendAll (additions : List Addition) (names : Names) (text : String) :
    let v := Standard.vocabulary.extendAll additions
    let tokens := Token.scan text
    (∀ s n rest, Reached v tokens names s n rest → Disciplined v s rest) ∧
      (∀ s n t rest err, Reached v tokens names s n (t :: rest) →
        Raises (Parser.step v s t rest.head?) n err → StepError s t rest.head? err) ∧
      ∀ err n', parse v names tokens = (.error err, n') → ∀ word p,
        err ≠ .awaitedArguments word p ∧ err ≠ .unsupported word p ∧ err ≠ .strayToken word p ∧
          err ≠ .missingFunction p := by
  intro v tokens
  have hv : v.functions.KnowsOperators := Vocabulary.knowsOperators_extendAll additions
  have hstep : ∀ s n t rest err, Reached v tokens names s n (t :: rest) →
      Raises (Parser.step v s t rest.head?) n err → StepError s t rest.head? err := by
    intro s n t rest err hreached hraises
    have hspelled := Token.spelled_of_mem_scan (hreached.suffix.subset List.mem_cons_self)
    exact .of_raises hv hreached.disciplined hspelled hraises
  refine ⟨fun s n rest hreached => hreached.disciplined, hstep, fun err n' hparse word p => ?_⟩
  rcases parse_eq_error_cases hparse with rfl | ⟨s, n, t, rest, hreached, hraises⟩ |
    ⟨s, n, hreached, rfl | hreduce⟩
  · simp
  · have herror := hstep s n t rest err hreached hraises
    cases herror with
    | reduction _ h => cases h <;> simp
    | call _ h => cases h <;> simp
    | _ => simp
  · simp
  · have herror := ReductionError.of_reduce hreached.disciplined.levels.innermost.finished hreduce
    cases herror <;> simp

end Parser

end Reckoner
